import TemplateFormat.Text.Basic

/-!
# Paths

A path is a text with slashes between its parts. Empty parts and single dots name no entry of their own.
-/

namespace TemplateFormat

namespace Path

/-- The parts of a path that name an entry. -/
def parts (path : Text) : List Text :=
  (Text.splitOn '/' path).filter fun part => !part.isEmpty && part != ['.']

/-- The name of the file that a path leads to; a path that goes up at its end has none. -/
def fileName? (path : Text) : Option Text := (parts path).getLast?.filter (· != ['.', '.'])

/-- A path below a directory. -/
def join (dir path : Text) : Text :=
  if dir.isEmpty || Text.endsWith ['/'] dir then dir ++ path else dir ++ '/' :: path

/-- Parts with slashes between them. -/
def ofParts (parts : List Text) : Text := ['/'].intercalate parts

/-- The initial segments of a list of parts, the longest first. -/
def initials : List Text → List (List Text)
  | [] => [[]]
  | p :: ps => (initials ps).map (p :: ·) ++ [[]]

/-- An absolute directory and those above it, the nearest first. -/
def ancestors (dir : Text) : List Text :=
  (initials (parts dir)).map fun ps => '/' :: ofParts ps

/-- The order of paths part by part, each part by its characters. -/
def le : List Text → List Text → Bool
  | [], _ => true
  | _ :: _, [] => false
  | p :: ps, q :: qs => if p = q then le ps qs else decide (p < q)

end Path

end TemplateFormat
