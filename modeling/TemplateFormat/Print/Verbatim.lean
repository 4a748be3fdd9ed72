import TemplateFormat.Action
import TemplateFormat.Doc.Basic

/-!
# Keeping source text

What surrounds a node in the source decides some of its printing: whether it stands alone on its line
(`aloneOnLine`), whether its closing action starts a line (`endsWithNewLine`), and whether a blank line
and another action follow it (`blankLineFollows`). `verbatim` prints source text as it stands, moved to
the new indentation.

`before` and `after` are the source before and after the node.
-/

namespace TemplateFormat

/-- What follows a line end, after spaces and tabs. -/
def afterLineEnd? (t : Text) : Option Text :=
  match t.dropWhile isSpace with
  | '\n' :: rest => some rest
  | '\r' :: '\n' :: rest => some rest
  | _ => none

/-- A blank line follows, and then, after white space, an action. -/
def blankLineFollows (after : Text) : Bool :=
  match (afterLineEnd? after).bind afterLineEnd? with
  | some rest => Text.startsWith openBraces (Text.trimStart rest)
  | none => false

/-- The line break that keeps a blank line before the next action. -/
def keptBlankLine (after : Text) : Doc :=
  if blankLineFollows after then .softline else .empty

/-- Only white space stands on the line around the node. -/
def aloneOnLine (before after : Text) : Bool :=
  Text.isBlank (Text.lastLine before) && Text.isBlank (Text.firstLine after)

/-- The content of a block ends with a line feed and white space, so that its closer starts a line. -/
def endsWithNewLine (content : Text) : Bool :=
  content.any (· == '\n') && Text.isBlank (Text.lastLine content)

/-- The line without up to `width` spaces and tabs at its start. -/
def dedent : Nat → Text → Text
  | width + 1, c :: line => if isSpace c then dedent width line else c :: line
  | _, line => line

/-- The lines of `text` without white space at their ends. All but the first lose as much indentation as
the line on which the text starts has. -/
def verbatim (before text : Text) : Doc :=
  let width := ((Text.lastLine before).takeWhile isSpace).length
  match Text.lines text with
  | [] => .empty
  | first :: rest =>
    .join (.ofText (Text.trimEnd first) :: rest.flatMap fun line =>
      [.line .verbatim, .ofText (dedent width (Text.trimEnd line))])

/-- Source text as it stands, and the blank line after it. -/
def keptText (before text after : Text) : Doc :=
  .join [verbatim before text, keptBlankLine after]

end TemplateFormat
