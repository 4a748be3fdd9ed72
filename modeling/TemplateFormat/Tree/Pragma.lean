import TemplateFormat.Tree.Basic

/-!
# Ignore pragmas

A node is kept as written where the line directly above it is an ignore pragma: a markup comment that
holds `prettier-ignore` and ends that line, or an action with `prettier-ignore` in its statement that
is the previous sibling. Raw regions are kept anyway and are not marked.
-/

namespace TemplateFormat

namespace Pragma

/-- The word that makes a comment or an action a pragma. -/
def word : Text := "prettier-ignore".toList

/-- The opening of a markup comment. -/
def commentOpening : Text := "<!--".toList

/-- The end of a markup comment. -/
def commentClosing : Text := "-->".toList

/-- The line without one carriage return at its end. -/
def dropReturn (line : Text) : Text := (Text.dropEnding? ['\r'] line).getD line

/-- The line ends with a comment that holds the word. -/
def isComment (line : Text) : Bool :=
  match Text.dropEnding? commentClosing (Text.trimEndBy isSpace (dropReturn line)) with
  | none => false
  | some inside =>
    match Text.cut? commentOpening inside with
    | none => false
    | some (_, body) => Text.contains word body

/-- The gap before a node ends with a comment line and the indentation of the node's line. -/
def endsWithComment (gap : Text) : Bool :=
  match (Text.lines gap).reverse with
  | last :: line :: _ => last.all isSpace && isComment line
  | _ => false

/-- One line break, with spaces and tabs around it. -/
def isLineBreak (gap : Text) : Bool :=
  match gap.dropWhile isSpace with
  | '\n' :: rest => rest.all isSpace
  | '\r' :: '\n' :: rest => rest.all isSpace
  | _ => false

/-- The node is an action that says the word. -/
def isPragma : Node → Bool
  | .action _ _ act => Text.contains word act.statement
  | _ => false

/-- An ignore pragma precedes `node`; `previous` is the sibling before it. -/
def precedes (previous : Option Node) (node : Node) : Bool :=
  match node with
  | .raw _ _ => false
  | _ =>
    endsWithComment node.info.lead ||
      (previous.any isPragma && isLineBreak node.info.lead)

end Pragma

end TemplateFormat
