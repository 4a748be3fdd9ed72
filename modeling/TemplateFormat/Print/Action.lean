import TemplateFormat.Action
import TemplateFormat.Doc.Basic

/-!
# Printing actions

An action on one line is padded with spaces inside its braces, if the settings ask for it. A hyphen mark
is always padded: without the space it could be the sign of a number. A statement of several lines keeps
its lines, each but the first indented, and the closing braces come on a line of their own.
-/

namespace TemplateFormat

/-- The lines of a statement, trimmed; a line feed at the end starts no line. -/
def statementLines (statement : Text) : List Text :=
  let lines := Text.lines statement
  let lines := if lines.getLast? = some [] then lines.dropLast else lines
  lines.map Text.trim

/-- A statement, with a space at its start and at its end if asked for. -/
def statementDoc (statement : Text) (padStart padEnd : Bool) : Doc :=
  let pad (b : Bool) : Doc := .ofText (if b then [' '] else [])
  match statementLines statement with
  | [] => .empty
  | [line] => .join [pad padStart, .ofText line, pad padEnd]
  | first :: rest =>
    .join (.ofText first :: rest.map (fun line => .nest (.join [.hardline, .ofText line])) ++
      [.hardline])

/-- An action with its braces and marks. -/
def Action.doc (a : Action) (spacing : Bool) : Doc :=
  .join [.ofText openBraces, .ofText a.opening.opening,
    statementDoc a.statement (spacing || a.opening == .trim) (spacing || a.closing == .trim),
    .ofText a.closing.closing, .ofText closeBraces]

end TemplateFormat
