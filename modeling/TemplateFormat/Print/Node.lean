import TemplateFormat.Print.Embed

/-!
# Printing nodes

`Printer.node` prints a node and everything in it; `Printer.tree` prints a template. Where the settings
say so, a container that fails is kept as written. Each node that is printed is noted.
-/

namespace TemplateFormat

namespace Printer

variable {σ : Type}

/-- Failures are contained. -/
def keeps (p : Printer σ) : Bool := p.settings.embedErrors == .passthrough

/-- Prints an opening or closing action. -/
def leaf (p : Printer σ) (l : Leaf) : PrintM σ Doc := PrintM.record l.id (p.edge l) none

mutual

/-- Prints a node. -/
def node (p : Printer σ) : Node → PrintM σ Doc
  | .action info text act =>
    PrintM.record info.id
      (if info.ignored then p.keptAt info.span text else p.lone info.span act) none
  | .raw info text => PrintM.record info.id (p.keptAt info.span text) none
  | .block info frame children =>
    PrintM.orKeep p.keeps info.id (p.verbatimAt info.span (Node.block info frame children).text)
      (p.block info frame children (p.leaf frame.start) (frame.stop.map p.leaf)
        (slots p children))
  | .chain info branches =>
    if info.ignored then
      PrintM.record info.id (p.keptAt info.span (Node.chain info branches).text) none
    else do
      let docs ← nodes p branches
      PrintM.record info.id (p.chain info.span branches docs) none

/-- The placeholders of siblings, and how each of them is printed. -/
def slots (p : Printer σ) : List Node → List (Slot (PrintM σ))
  | [] => []
  | n :: ns => ⟨n.placeholder p.stem, node p n⟩ :: slots p ns

/-- Prints siblings in order. -/
def nodes (p : Printer σ) : List Node → PrintM σ (List Doc)
  | [] => pure []
  | n :: ns => do
    let d ← node p n
    return d :: (← nodes p ns)

end

/-- Prints a template. -/
def tree (p : Printer σ) (t : Tree) : PrintM σ Doc :=
  PrintM.orKeep p.keeps 0 (.join [p.verbatimAt t.span t.source, .hardline])
    (p.root t (p.slots t.children))

end Printer

end TemplateFormat
