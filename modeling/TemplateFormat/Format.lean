import TemplateFormat.Print.Node
import TemplateFormat.Tree.Parse

/-!
# Formatting templates

`format` reads a template into a tree, prints it with the HTML formatter, and lays the document out.
`formatWith` does so with any markup formatter. As a last check, no placeholder may be left in the
output.
-/

namespace TemplateFormat

/-- Formats a template with a markup formatter. -/
def formatWith {σ : Type} (formatter : MarkupFormatter σ) (settings : Settings) (source : Text) :
    PrintM σ Text :=
  match parse source with
  | .error e => throw e
  | .ok tree => do
    let doc ← (Printer.ofTree tree settings formatter).tree tree
    let output := doc.render settings.toPage
    if Text.contains tree.stem output then
      throw (.embedFailure "placeholder left in output" none)
    return output

/-- Formats a template. -/
def format (settings : Settings) (source : Text) : Except FormatError Text :=
  ((formatWith Markup.html settings source).run.run { markup := () }).1

end TemplateFormat
