import TemplateFormat.Text.Basic

/-!
# TOML tables

A document is a table of items. Besides what a table holds, how it was introduced counts: a table with a
header of its own is complete after its lines, one that only the path of a header names may still get
a header, and one that dotted keys made may get more dotted keys. `assign` and `define` keep these
rules; they give nothing where a key is used twice or a table is extended in the wrong way.

Floats, dates and arrays with elements are no items: no setting has such a value.
-/

namespace TemplateFormat

namespace Toml

/-- How a table was introduced. -/
inductive Origin where
  /-- By a header of its own. -/
  | header
  /-- By the path of a header. -/
  | implied
  /-- By a dotted key. -/
  | dotted
deriving DecidableEq, Repr, Inhabited

/-- A value or a table. -/
inductive Item where
  | bool (b : Bool)
  | integer (n : Int)
  | string (t : Text)
  | emptyArray
  /-- A table written in braces; nothing is added to it later. -/
  | inline (entries : List (Text × Item))
  | table (origin : Origin) (entries : List (Text × Item))
deriving Repr, Inhabited

/-- The keys of a table and their items, in order. -/
abbrev Entries := List (Text × Item)

namespace Entries

/-- The item of a key. -/
def get? (key : Text) (es : Entries) : Option Item := List.lookup key es

/-- The entries with a new item for a key that is there. -/
def put (key : Text) (item : Item) (es : Entries) : Entries :=
  es.map fun e => if e.1 = key then (key, item) else e

/-- The entries with a new key at the end. -/
def add (key : Text) (item : Item) (es : Entries) : Entries := es ++ [(key, item)]

/-- Adds a value under a dotted key. `origin` is that of the table reached so far, unless that is the
table the key is written in. -/
def assign (value : Item) (origin : Option Origin) : List Text → Entries → Option Entries
  | [], _ => none
  | [key], es =>
    if origin = some .implied || (es.get? key).isSome then none else some (es.add key value)
  | key :: next :: rest, es =>
    match es.get? key with
    | none => do return es.add key (.table .dotted (← assign value (some .dotted) (next :: rest) []))
    | some (.table .header _) => none
    | some (.table o inner) => do
      return es.put key (.table o (← assign value (some o) (next :: rest) inner))
    | some _ => none

/-- Introduces the table of a header. -/
def define : List Text → Entries → Option Entries
  | [], _ => none
  | [key], es =>
    match es.get? key with
    | none => some (es.add key (.table .header []))
    | some (.table .implied inner) => some (es.put key (.table .header inner))
    | some _ => none
  | key :: next :: rest, es =>
    match es.get? key with
    | none => do return es.add key (.table .implied (← define (next :: rest) []))
    | some (.table o inner) => do return es.put key (.table o (← define (next :: rest) inner))
    | some _ => none

/-- Adds a value under a dotted key in the table of a header. -/
def assignUnder (path : List Text) (value : Item) : List Text → Entries → Option Entries
  | [], es => assign value none path es
  | key :: rest, es =>
    match es.get? key with
    | some (.table o inner) => do return es.put key (.table o (← assignUnder path value rest inner))
    | _ => none

end Entries

end Toml

end TemplateFormat
