import TemplateFormat.Proofs.Print.Settled
import TemplateFormat.Proofs.Print.EchoTree
import TemplateFormat.Proofs.Tree.Container

/-!
# Templates that keep their structure

A legible node is regular in a source, if its actions are steady, its containers stand in the
source, and no markup in them opens a preformatted element.

Results:
* `Node.Legible.regular`: when a legible node is regular.
-/

namespace TemplateFormat

open Placeholder (stem)

/-- What is embedded in the container is markup without preformatted text. -/
def Entry.Plain (source : Text) (e : Entry) : Prop :=
  ∀ c ∈ e.container?, c.Stands source ∧ Markup.Html.Unformatted (c.aliased (stem source))

theorem Action.Legible.regular {spacing : Bool} {t : Text} {act : Action} (h : act.Legible t)
    (hsound : (Glyph.token t (.action act)).Sound spacing) : act.Regular spacing t :=
  ⟨h.reads, hsound.2.1, h.unopened⟩

namespace Node

variable {source : Text} {spacing : Bool}

/-- A legible container whose nodes stand in the source. -/
theorem Quiet.regular {c : Container} {after : Text} (hquiet : Quiet c.tail after c.children)
    (hentire : ∀ n ∈ c.children, n.Entire) (hc : c.Stands source)
    (hplain : Markup.Html.Unformatted (c.aliased (stem source))) :
    c.Regular source (stem source) after :=
  ⟨hc.isKeys, hc.fresh, hplain, hquiet, hentire⟩

mutual

/-- **A legible node is regular**, if its actions are steady and its containers are plain. -/
theorem Legible.regular (parent : Nat) : ∀ {n : Node}, n.Legible →
    (∀ g ∈ n.glyphs, g.Sound spacing) →
    (∀ l ∈ listed parent n, l.entry.Plain source) → n.Regular source (stem source) spacing
  | .action info t act, hn, hsound, _ => by
    rw [glyphs, List.forall_mem_singleton] at hsound
    exact Action.Legible.regular hn hsound
  | .raw _ _, hn, _, _ => hn
  | .block info frame children, hn, hsound, hplain => by
    obtain ⟨hstart, hstop, hquiet, hentire, hchildren⟩ := hn
    rw [glyphs, List.forall_mem_cons, List.forall_mem_append, List.forall_mem_append] at hsound
    obtain ⟨hsoundStart, hsoundChildren, -, hsoundStop⟩ := hsound
    rw [listed, List.forall_mem_cons, List.forall_mem_cons, List.forall_mem_append] at hplain
    obtain ⟨hcontent, -, hplain, -⟩ := hplain
    obtain ⟨hstands, hunformatted⟩ := hcontent _ rfl
    refine ⟨Action.Legible.regular hstart hsoundStart, fun l hl => ?_,
      Quiet.regular (c := .ofBlock info frame children) hquiet hentire hstands hunformatted,
      LegibleAll.regular info.id hchildren hsoundChildren hplain⟩
    refine Action.Legible.regular (hstop l hl) (hsoundStop l.glyph ?_)
    rw [Option.mem_def.mp hl]
    exact List.mem_cons_self
  | .chain info branches, hn, hsound, hplain => by
    obtain ⟨hchain, hleads, hbranches⟩ := hn
    rw [glyphs] at hsound
    rw [listed, List.forall_mem_cons] at hplain
    exact ⟨hchain, hleads, LegibleAll.regular info.id hbranches hsound hplain.2⟩

/-- Legible nodes are regular. -/
theorem LegibleAll.regular (parent : Nat) : ∀ {ns : List Node}, LegibleAll ns →
    (∀ g ∈ glyphsAll ns, g.Sound spacing) → (∀ l ∈ listedAll parent ns, l.entry.Plain source) →
      RegularAll source (stem source) spacing ns
  | [], _, _, _ => trivial
  | n :: ns, hn, hsound, hplain => by
    rw [glyphsAll, List.forall_mem_append, List.forall_mem_append] at hsound
    rw [listedAll, List.forall_mem_append] at hplain
    exact ⟨Legible.regular parent hn.1 hsound.2.1 hplain.1,
      LegibleAll.regular parent hn.2 hsound.2.2 hplain.2⟩

end

end Node

end TemplateFormat
