import TemplateFormat.Keyword
import TemplateFormat.Text.Blank

/-!
# Actions

An action is what stands between double braces: an opening delimiter directly after the braces, a
statement, and a closing delimiter directly before the braces that end it. `Action.ofInner` reads the
text between the braces.
-/

namespace TemplateFormat

/-- How the inner edge of an action is marked. -/
inductive Delimiter where
  /-- No mark. -/
  | plain
  /-- A hyphen: white space outside the action is dropped. -/
  | trim
  /-- A per cent sign. -/
  | percent
  /-- An angle bracket, as in a shortcode. -/
  | angle
  /-- A comment. -/
  | comment
deriving DecidableEq, Repr, Inhabited

namespace Delimiter

/-- The delimiters that are written with characters of their own. -/
def marks : List Delimiter := [trim, angle, percent, comment]

/-- The mark after the opening braces. -/
def opening : Delimiter → Text
  | plain => []
  | trim => ['-']
  | percent => ['%']
  | angle => ['<']
  | comment => ['/', '*']

/-- The mark before the closing braces. -/
def closing : Delimiter → Text
  | plain => []
  | trim => ['-']
  | percent => ['%']
  | angle => ['>']
  | comment => ['*', '/']

/-- The delimiter whose opening mark is `mark`; any other text is no mark. -/
def ofOpening (mark : Text) : Delimiter := (marks.find? fun d => d.opening == mark).getD plain

/-- The delimiter whose closing mark is `mark`; any other text is no mark. -/
def ofClosing (mark : Text) : Delimiter := (marks.find? fun d => d.closing == mark).getD plain

/-- The opening mark at the start of `t`, and what follows it. -/
def takeOpening (t : Text) : Delimiter × Text :=
  (marks.findSome? fun d => (Text.dropStart? d.opening t).map (d, ·)).getD (plain, t)

/-- The closing mark at the end of `t`, and what stands before it. -/
def takeClosing (t : Text) : Delimiter × Text :=
  (marks.findSome? fun d => (Text.dropEnding? d.closing t).map (d, ·)).getD (plain, t)

end Delimiter

/-- The opening braces. -/
def openBraces : Text := ['{', '{']

/-- The closing braces. -/
def closeBraces : Text := ['}', '}']

/-- A template action. -/
structure Action where
  /-- The mark after the opening braces. -/
  opening : Delimiter
  /-- The mark before the closing braces. -/
  closing : Delimiter
  /-- What the action says, without white space at its ends. -/
  statement : Text
  /-- The control keyword that the statement begins with. -/
  keyword : Option Keyword
deriving DecidableEq, Repr, Inhabited

/-- Reads the text between the braces. The opening mark is taken first, so a single hyphen is an
opening mark. -/
def Action.ofInner (inner : Text) : Action :=
  let o := Delimiter.takeOpening inner
  let c := Delimiter.takeClosing (Text.trimStart o.2)
  let statement := Text.trimEnd c.2
  ⟨o.1, c.1, statement, Keyword.leading? statement⟩

end TemplateFormat
