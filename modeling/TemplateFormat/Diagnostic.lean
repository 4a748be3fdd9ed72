import TemplateFormat.Error

/-!
# Diagnostics

An error with a place is reported with the line and column of its start, both from 1; columns count
characters. A line ends after a line feed, a carriage return, both of them in that order, a vertical
tab, a form feed, or one of U+0085, U+2028 and U+2029. The end of the text belongs to the last line.
-/

namespace TemplateFormat

namespace Diagnostic

/-- Steps back from a byte offset, byte by byte, to the boundary of a character. -/
def stepBack (source : Text) : Nat → Nat
  | 0 => 0
  | n + 1 => if Text.isBoundary (n + 1) source then n + 1 else stepBack source n

/-- The number of characters before a byte offset. An offset past the end counts as the end, one
inside a character as the start of the character. -/
def charOffset (source : Text) (offset : Nat) : Nat :=
  (Text.takeBytes (stepBack source (min offset (Text.bytes source))) source).length

/-- The characters of a span: the first, and the one after the last. -/
def charRange (source : Text) (start stop : Nat) : Nat × Nat :=
  (charOffset source start, charOffset source stop)

/-- The character ends a line. -/
def isLineEnd (c : Char) : Bool :=
  (0x0a ≤ c.toNat && c.toNat ≤ 0x0d) || c.toNat == 0x85 || c.toNat == 0x2028 || c.toNat == 0x2029

/-- The lines of a text with what ends them. -/
def lines : Text → List Text
  | [] => []
  | '\r' :: '\n' :: t => ['\r', '\n'] :: lines t
  | c :: t =>
    if isLineEnd c then [c] :: lines t
    else
      match lines t with
      | [] => [[c]]
      | l :: ls => (c :: l) :: ls

/-- The line and column of the character at `offset`, both from 1; the lines before are `n`. -/
def locate (n offset : Nat) : List Text → Nat × Nat
  | l :: next :: rest =>
    if offset < l.length then (n + 1, offset + 1)
    else locate (n + 1) (offset - l.length) (next :: rest)
  | _ => (n + 1, offset + 1)

/-- The line and column where a span of the source starts. -/
def position (source : Text) (span : Span) : Nat × Nat :=
  locate 0 (charRange source span.index span.stop).1 (lines source)

end Diagnostic

/-- What a user sees of an error. -/
inductive Diagnostic where
  /-- An error at a place of a file, with a note at that place. -/
  | report (message path : String) (line column : Nat) (label : String)
  /-- An error of a whole file. -/
  | brief (path message : String)
deriving DecidableEq, Repr, Inhabited

namespace Diagnostic

/-- The diagnostic of an error in the file at `path`. -/
def ofError (path : String) (source : Text) (e : FormatError) : Diagnostic :=
  match e.span with
  | some span =>
    let (line, column) := position source span
    report e.message path line column e.label
  | none => brief path e.message

/-- The first line of the diagnostic. -/
def headline : Diagnostic → String
  | report message _ _ _ _ => "Error: " ++ message
  | brief path message => "Error: " ++ path ++ ": " ++ message

/-- The place of a report. -/
def place (path : String) (line column : Nat) : String :=
  path ++ ":" ++ String.ofList (Nat.toDigits 10 line) ++ ":" ++
    String.ofList (Nat.toDigits 10 column)

end Diagnostic

end TemplateFormat
