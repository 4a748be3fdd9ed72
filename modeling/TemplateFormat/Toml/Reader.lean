import TemplateFormat.Toml.Item
import TemplateFormat.Text.Blank
import TemplateFormat.Word64

/-!
# Reading TOML

`read?` reads a document with the rules of TOML 1.0, as far as its items go: booleans, integers of 64
bits, strings in their four forms, empty arrays, tables in braces, dotted keys and headers. Any other
text gives nothing.

A reader takes a text and gives what it read with the rest. Readers that loop take the number of steps
they may make; the length of the text is always enough.
-/

namespace TemplateFormat

namespace Toml

/-- What follows a line feed, with or without a carriage return before it. -/
def newline? : Text → Option Text
  | '\n' :: t => some t
  | '\r' :: '\n' :: t => some t
  | _ => none

/-- A character that strings and comments may hold: no control character but the tab. -/
def isPlain (c : Char) : Bool := c == '\t' || (0x20 ≤ c.toNat && c.toNat != 0x7f)

/-- The text after spaces and tabs. -/
def skipSpaces (t : Text) : Text := t.dropWhile isSpace

/-- The end of a line, after spaces, tabs and a comment: the text of the next lines, if there are any. -/
def lineEnd? (t : Text) : Option (Option Text) :=
  let rest :=
    match skipSpaces t with
    | '#' :: comment => comment.dropWhile isPlain
    | rest => rest
  match rest with
  | [] => some none
  | rest => (newline? rest).map some

/-! ## Strings -/

/-- The value of a hexadecimal digit. -/
def hexValue? (c : Char) : Option Nat :=
  if c.isDigit then some (c.toNat - '0'.toNat)
  else if 'a' ≤ c && c ≤ 'f' then some (c.toNat - 'a'.toNat + 10)
  else if 'A' ≤ c && c ≤ 'F' then some (c.toNat - 'A'.toNat + 10)
  else none

/-- The number of `count` hexadecimal digits, after the digits with the value `n`. -/
def hexNumber? : Nat → Nat → Text → Option (Nat × Text)
  | 0, n, t => some (n, t)
  | count + 1, n, c :: t => do hexNumber? count (16 * n + (← hexValue? c)) t
  | _ + 1, _, [] => none

/-- The character with a code point of `count` hexadecimal digits. -/
def codePoint? (count : Nat) (t : Text) : Option (Char × Text) := do
  let (n, rest) ← hexNumber? count 0 t
  if n.isValidChar then return (Char.ofNat n, rest) else none

/-- The character of an escape sequence, after its backslash. -/
def escape? : Text → Option (Char × Text)
  | 'b' :: t => some ('\x08', t)
  | 't' :: t => some ('\t', t)
  | 'n' :: t => some ('\n', t)
  | 'f' :: t => some ('\x0c', t)
  | 'r' :: t => some ('\r', t)
  | '"' :: t => some ('"', t)
  | '\\' :: t => some ('\\', t)
  | 'u' :: t => codePoint? 4 t
  | 'U' :: t => codePoint? 8 t
  | _ => none

/-- A string in quotation marks, after the first one. -/
def basicString? : Nat → Text → Option (Text × Text)
  | 0, _ => none
  | steps + 1, t =>
    match t with
    | [] => none
    | '"' :: rest => some ([], rest)
    | '\\' :: rest => do
      let (c, rest) ← escape? rest
      let (s, rest) ← basicString? steps rest
      return (c :: s, rest)
    | c :: rest =>
      if isPlain c then do
        let (s, rest) ← basicString? steps rest
        return (c :: s, rest)
      else none

/-- A string in apostrophes, after the first one. -/
def literalString? (t : Text) : Option (Text × Text) := do
  let body := t.takeWhile (· != '\x27')
  let rest ← Text.dropStart? ['\x27'] (t.drop body.length)
  if body.all isPlain then return (body, rest) else none

/-- The text after white space and line ends. -/
def skipLines : Text → Text
  | ' ' :: t => skipLines t
  | '\t' :: t => skipLines t
  | '\n' :: t => skipLines t
  | '\r' :: '\n' :: t => skipLines t
  | t => t

/-- What follows the end of a line that a backslash continues. -/
def continuation? (t : Text) : Option Text := (newline? (skipSpaces t)).map skipLines

/-- A string of several lines, after its opening marks; `mark` is its quotation mark, and it holds escape
sequences if that is a double one. Of the marks at its end, up to two belong to the string. -/
def longString? (mark : Char) : Nat → Text → Option (Text × Text)
  | 0, _ => none
  | steps + 1, t =>
    let continued (s rest : Text) : Option (Text × Text) := do
      let (s', rest) ← longString? mark steps rest
      return (s ++ s', rest)
    let marks := (t.takeWhile (· == mark)).length
    if 3 ≤ marks then
      let marks := min marks 5
      some (List.replicate (marks - 3) mark, t.drop marks)
    else if 0 < marks then continued (List.replicate marks mark) (t.drop marks)
    else
      match t with
      | [] => none
      | '\r' :: '\n' :: rest => continued ['\n'] rest
      | c :: rest =>
        if c = '\n' then continued ['\n'] rest
        else if c = '\\' && mark = '"' then
          match continuation? rest with
          | some rest => continued [] rest
          | none => do
            let (c, rest) ← escape? rest
            continued [c] rest
        else if isPlain c then continued [c] rest
        else none

/-- A string of several lines; a line end right after the opening marks is not part of it. -/
def readLong? (mark : Char) (t : Text) : Option (Text × Text) :=
  let body := (newline? t).getD t
  longString? mark (body.length + 1) body

/-- A string in any of the four forms. -/
def string? : Text → Option (Text × Text)
  | '"' :: '"' :: '"' :: t => readLong? '"' t
  | '\x27' :: '\x27' :: '\x27' :: t => readLong? '\x27' t
  | '"' :: t => basicString? (t.length + 1) t
  | '\x27' :: t => literalString? t
  | _ => none

/-! ## Integers -/

/-- Digits, with single low lines between them, after a digit. -/
def moreDigits (isDigit : Char → Bool) : Text → Text × Text
  | [] => ([], [])
  | [c] => if isDigit c then ([c], []) else ([], [c])
  | c :: d :: t =>
    if c = '_' && isDigit d then
      let r := moreDigits isDigit t
      (d :: r.1, r.2)
    else if isDigit c then
      let r := moreDigits isDigit (d :: t)
      (c :: r.1, r.2)
    else ([], c :: d :: t)

/-- Digits, with single low lines between them. -/
def digits? (isDigit : Char → Bool) : Text → Option (Text × Text)
  | c :: t =>
    if isDigit c then
      let r := moreDigits isDigit t
      some (c :: r.1, r.2)
    else none
  | [] => none

/-- The number that digits write in a base. -/
def numberOf (base : Nat) (digits : Text) : Nat :=
  digits.foldl (fun n c => base * n + (hexValue? c).getD 0) 0

/-- A number in a base other than ten. -/
def based? (base : Nat) (t : Text) : Option (Nat × Text) := do
  let (ds, rest) ← digits? (fun c => (hexValue? c).any (· < base)) t
  return (numberOf base ds, rest)

/-- A decimal number; a zero at the start stands alone. -/
def decimal? : Text → Option (Nat × Text)
  | '0' :: t => some (0, t)
  | t => do
    let (ds, rest) ← digits? Char.isDigit t
    return (numberOf 10 ds, rest)

/-- The integer, if it has 64 bits. -/
def inRange? (n : Int) : Option Int := if Word64.isSigned n then some n else none

/-- An integer. -/
def integer? (t : Text) : Option (Int × Text) := do
  let (n, rest) ←
    match t with
    | '0' :: 'x' :: t => (based? 16 t).map fun r => ((r.1 : Int), r.2)
    | '0' :: 'o' :: t => (based? 8 t).map fun r => ((r.1 : Int), r.2)
    | '0' :: 'b' :: t => (based? 2 t).map fun r => ((r.1 : Int), r.2)
    | '-' :: t => (decimal? t).map fun r => (-(r.1 : Int), r.2)
    | '+' :: t => (decimal? t).map fun r => ((r.1 : Int), r.2)
    | t => (decimal? t).map fun r => ((r.1 : Int), r.2)
  return (← inRange? n, rest)

/-! ## Keys and values -/

/-- A character of a key without quotation marks. -/
def isKeyChar (c : Char) : Bool := c.isAlphanum || c == '_' || c == '-'

/-- A key without dots. -/
def simpleKey? : Text → Option (Text × Text)
  | '"' :: t => basicString? (t.length + 1) t
  | '\x27' :: t => literalString? t
  | t =>
    let key := t.takeWhile isKeyChar
    if key.isEmpty then none else some (key, t.drop key.length)

/-- A dotted key, with spaces and tabs around its parts. -/
def key? : Nat → Text → Option (List Text × Text)
  | 0, _ => none
  | steps + 1, t => do
    let (part, rest) ← simpleKey? (skipSpaces t)
    match skipSpaces rest with
    | '.' :: rest => do
      let (parts, rest) ← key? steps rest
      return (part :: parts, rest)
    | rest => return ([part], rest)

/-- What follows the closing bracket of an array, with spaces, line ends and comments before it. -/
def arrayEnd? : Nat → Text → Option Text
  | 0, _ => none
  | steps + 1, t =>
    match skipSpaces t, lineEnd? t with
    | ']' :: rest, _ => some rest
    | _, some (some rest) => arrayEnd? steps rest
    | _, _ => none

mutual

/-- A value. -/
def value? : Nat → Text → Option (Item × Text)
  | 0, _ => none
  | steps + 1, t =>
    match t with
    | 't' :: 'r' :: 'u' :: 'e' :: rest => some (.bool true, rest)
    | 'f' :: 'a' :: 'l' :: 's' :: 'e' :: rest => some (.bool false, rest)
    | '[' :: rest => (arrayEnd? (rest.length + 1) rest).map fun rest => (.emptyArray, rest)
    | '{' :: rest =>
      match skipSpaces rest with
      | '}' :: rest => some (.inline [], rest)
      | rest => do
        let (es, rest) ← pairs? steps [] rest
        return (.inline es, rest)
    | c :: rest =>
      if c = '"' || c = '\x27' then (string? (c :: rest)).map fun r => (.string r.1, r.2)
      else (integer? (c :: rest)).map fun r => (.integer r.1, r.2)
    | [] => none

/-- The keys and values of a table in braces up to the closing one, after the entries `es`. -/
def pairs? : Nat → Entries → Text → Option (Entries × Text)
  | 0, _, _ => none
  | steps + 1, es, t => do
    let (path, rest) ← key? (t.length + 1) t
    let rest ← Text.dropStart? ['='] rest
    let (value, rest) ← value? steps (skipSpaces rest)
    let es ← es.assign value none path
    match skipSpaces rest with
    | ',' :: rest => pairs? steps es rest
    | '}' :: rest => return (es, rest)
    | _ => none

end

/-! ## Documents -/

/-- A document being read: its table, and the path of the header that was met last. -/
structure Document where
  entries : Entries := []
  header : List Text := []

/-- One line, without its end. -/
def line? (d : Document) (t : Text) : Option (Document × Text) :=
  match skipSpaces t with
  | [] => some (d, [])
  | '[' :: rest => do
    let (path, rest) ← key? (rest.length + 1) rest
    let rest ← Text.dropStart? [']'] rest
    return (⟨← d.entries.define path, path⟩, rest)
  | c :: rest =>
    if c = '#' || c = '\n' || c = '\r' then some (d, c :: rest)
    else do
      let (path, rest) ← key? (t.length + 1) (c :: rest)
      let rest ← Text.dropStart? ['='] rest
      let (value, rest) ← value? (t.length + 1) (skipSpaces rest)
      return (⟨← d.entries.assignUnder path value d.header, d.header⟩, rest)

/-- The lines of a document. -/
def lines? : Nat → Document → Text → Option Document
  | 0, _, _ => none
  | steps + 1, d, t => do
    let (d, rest) ← line? d t
    match ← lineEnd? rest with
    | some rest => lines? steps d rest
    | none => return d

/-- The entries of a document. A byte order mark at its start is passed over. -/
def read? (t : Text) : Option Entries :=
  let body :=
    match t with
    | c :: rest => if c.toNat = 0xfeff then rest else t
    | [] => []
  (lines? (body.length + 1) {} body).map Document.entries

end Toml

end TemplateFormat
