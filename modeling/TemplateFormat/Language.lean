import TemplateFormat.Path

/-!
# Languages

The languages the formatter serves, with the file names and identifiers by which they are known.
-/

namespace TemplateFormat

/-- A language. -/
structure Language where
  name : String
  /-- The names of its parsers. -/
  parsers : List String
  /-- The endings of its file names. -/
  extensions : List String
  /-- The identifiers that editors have for it. -/
  ids : List String
deriving DecidableEq, Repr

namespace Language

/-- The name of the parser for templates. -/
def parserName : String := "go-template"

/-- The languages that are served. -/
def all : List Language :=
  [{ name := "GoTemplate"
     parsers := [parserName]
     extensions := [".go.html", ".gohtml", ".gotmpl", ".go.tmpl", ".tmpl", ".tpl", ".html.tmpl",
       ".html.tpl"]
     ids := ["gotemplate", "gohtml", "GoTemplate", "GoHTML"] }]

/-- The file name has the extension and something before it, in either case. -/
def matchesName (name : Text) (ending : String) : Bool :=
  match Text.dropEnding? ending.toList (Text.lowerAscii name) with
  | some stem => !stem.isEmpty
  | none => false

end Language

/-- The file name of the path ends with an extension of a language. -/
def Path.isSupported (path : Text) : Bool :=
  match fileName? path with
  | some name => Language.all.any fun l => l.extensions.any (Language.matchesName name)
  | none => false

end TemplateFormat
