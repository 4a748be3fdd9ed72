import TemplateFormat.Print.Embed
import TemplateFormat.Tree.Listing

/-!
# Printing listed entries

An entry of a listing is printed on its own, given how the entries in it are printed (`child`, by
number). Roots and blocks are embedded in markup; all other entries are printed without it.
-/

namespace TemplateFormat

namespace Entry

variable {σ : Type}

/-- Embeds a root or a block in its markup; other entries are not embedded. -/
def embed (p : Printer σ) (child : Nat → PrintM σ Doc) : Entry → PrintM σ (Option Doc)
  | root t => some <$> p.root t (slotsOf t.children)
  | node (.block info frame children) =>
    some <$> p.block info frame children (child frame.start.id)
      (frame.stop.map fun leaf => child leaf.id) (slotsOf children)
  | _ => pure none
where
  /-- The placeholders of the children. -/
  slotsOf (children : List Node) : List (Slot (PrintM σ)) :=
    children.map fun n => ⟨n.placeholder p.stem, child n.info.id⟩

/-- Prints an action. -/
def printAction (p : Printer σ) : Entry → PrintM σ Doc
  | node (.action info _ act) => pure (p.lone info.span act)
  | edge _ leaf => pure (p.edge leaf)
  | other => throw (.embedFailure "expected a template action" (some other.span))

/-- Prints a chain. -/
def printChain (p : Printer σ) (child : Nat → PrintM σ Doc) : Entry → PrintM σ Doc
  | node (.chain info branches) => do
    return p.chain info.span branches (← branches.mapM fun n => child n.info.id)
  | other => throw (.embedFailure "expected an else chain" (some other.span))

/-- Prints an entry that is not embedded. -/
def print (p : Printer σ) (child : Nat → PrintM σ Doc) (e : Entry) : PrintM σ Doc :=
  match e with
  | root _ | node (.block _ _ _) =>
    throw (.embedFailure "roots and blocks are printed by embedding" (some e.span))
  | node (.raw _ _) => pure kept
  | node (.action info _ _) => if info.ignored then pure kept else printAction p e
  | node (.chain info _) => if info.ignored then pure kept else printChain p child e
  | edge _ _ => printAction p e
where
  /-- The entry as written. -/
  kept : Doc := p.keptAt e.span e.text

end Entry

end TemplateFormat
