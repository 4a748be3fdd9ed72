import TemplateFormat.Doc.Basic
import TemplateFormat.Error
import TemplateFormat.Markup.Html

/-!
# Printing sessions

Printing may fail, calls a markup formatter that may keep a state `σ`, and notes each node it prints. A
markup formatter gets markup without template syntax, with a placeholder for each node, and returns a
document that ends with a hard line break.
-/

namespace TemplateFormat

/-- Formats markup; the flag says that it is the body of a block. -/
abbrev MarkupFormatter (σ : Type) := Bool → Text → ExceptT FormatError (StateM σ) Doc

/-- The formatter for HTML. -/
def Markup.html {σ : Type} : MarkupFormatter σ := fun embedded markup =>
  pure (Markup.Html.format embedded markup)

/-- The note that a node was printed. -/
structure Visit where
  /-- The node's number. -/
  id : Nat
  /-- What was printed. -/
  doc : Doc
  /-- The error for which the node was kept as written. -/
  failure : Option FormatError

/-- The state of a printing session. -/
structure Session (σ : Type) where
  /-- The state of the markup formatter. -/
  markup : σ
  /-- The nodes printed so far, the latest first. -/
  visits : List Visit := []

/-- Printing, with a markup formatter that has the state `σ`. -/
abbrev PrintM (σ : Type) := ExceptT FormatError (StateM (Session σ))

namespace PrintM

variable {σ : Type}

/-- Calls a markup formatter. -/
def formatMarkup (formatter : MarkupFormatter σ) (embedded : Bool) (markup : Text) :
    PrintM σ Doc :=
  ExceptT.mk fun session =>
    let answer := (formatter embedded markup).run.run session.markup
    (answer.1, ⟨answer.2, session.visits⟩)

/-- Notes that a node was printed. -/
def record (id : Nat) (doc : Doc) (failure : Option FormatError) : PrintM σ Doc := do
  modify fun session => { session with visits := ⟨id, doc, failure⟩ :: session.visits }
  return doc

/-- Prints a container; if that fails and `keep` is set, its source text `kept` is printed instead. -/
@[macro_inline] def orKeep (keep : Bool) (id : Nat) (kept : Doc) (body : PrintM σ Doc) : PrintM σ Doc :=
  let printed : PrintM σ Doc := do record id (← body) none
  if keep then tryCatch printed fun e => record id kept (some e) else printed

end PrintM

end TemplateFormat
