import TemplateFormat.Settings.Basic
import TemplateFormat.Toml.Reader
import TemplateFormat.Error

/-!
# Settings files

A settings file is a TOML document with a key for each setting. A setting without a key has its default;
any other key, or a value that does not fit, is an error.
-/

namespace TemplateFormat

namespace EmbedErrors

/-- The choice as it is written. -/
def name : EmbedErrors → String
  | strict => "strict"
  | passthrough => "passthrough"

/-- The choice written `t`. -/
def ofText? (t : Text) : Option EmbedErrors :=
  [strict, passthrough].find? fun e => e.name.toList == t

/-- The item is an empty array or table. -/
def holdsNothing : Toml.Item → Bool
  | .emptyArray | .inline [] | .table _ [] => true
  | _ => false

/-- The choice of an item: its name, or a table whose one key is its name and holds nothing. -/
def ofItem? : Toml.Item → Option EmbedErrors
  | .string t => ofText? t
  | .inline [(key, item)] | .table _ [(key, item)] => if holdsNothing item then ofText? key else none
  | _ => none

end EmbedErrors

namespace Settings

/-- The name of the file that is looked for. -/
def fileName : String := ".gotmpl-fmt.toml"

/-- The number of an item, if it is not negative. -/
def natOf? : Toml.Item → Option Nat
  | .integer n => if 0 ≤ n then some n.toNat else none
  | _ => none

/-- The truth value of an item. -/
def boolOf? : Toml.Item → Option Bool
  | .bool b => some b
  | _ => none

/-- The settings with one of them changed. -/
def set? (s : Settings) (key : Text) (item : Toml.Item) : Option Settings :=
  if key = "bracket-spacing".toList then (boolOf? item).map fun b => { s with bracketSpacing := b }
  else if key = "print-width".toList then (natOf? item).map fun n => { s with printWidth := n }
  else if key = "tab-width".toList then (natOf? item).map fun n => { s with tabWidth := n }
  else if key = "use-tabs".toList then (boolOf? item).map fun b => { s with useTabs := b }
  else if key = "embed-errors".toList then
    (EmbedErrors.ofItem? item).map fun e => { s with embedErrors := e }
  else none

/-- The settings with all entries of a file. -/
def ofEntries? : Settings → Toml.Entries → Option Settings
  | s, [] => some s
  | s, (key, item) :: es => (s.set? key item).bind fun s => ofEntries? s es

/-- Reads the text of a settings file. -/
def parse (t : Text) : Except FormatError Settings :=
  match Toml.read? t with
  | none => .error (.config "this is no TOML document with settings")
  | some es =>
    match ofEntries? {} es with
    | none => .error (.config "this is no setting")
    | some s => .ok s

end Settings

end TemplateFormat
