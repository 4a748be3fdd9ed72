import TemplateFormat.Proofs.Print.Legible
import TemplateFormat.Proofs.Tree.Glyphs

/-!
# Glyphs that are read back

Glyphs are `Settled` if no action begins in their literals, and each token in them is an action that
reads as itself. The text of settled glyphs is cut into the tokens that they name and nothing else.
What a tree of legible nodes is written with is settled, and what a template is read as is settled
if the template keeps its structure.

Results:
* `Glyph.glyphs_scan`: a scan of the text of settled glyphs gives the glyphs back.
* `Node.settled_glyphs`: the glyphs of a legible node are settled.
* `Node.legible_of_settled`: a node with settled glyphs is legible.
-/

namespace TemplateFormat

open Scan

namespace Glyph

/-- No action begins in the literals, `lead` being the start of the first, and each token is an
action that reads as itself. -/
def Settled : Text → List Glyph → Prop
  | lead, [] => Inert lead []
  | lead, .char c :: gs => Settled (lead ++ [c]) gs
  | lead, .token t kind :: gs =>
    Inert lead ['{'] ∧ (∃ act, kind = .action act ∧ act.Legible t) ∧ Settled [] gs

theorem inert_nil_brace : Inert [] ['{'] := by decide

theorem settled_literal {t lead : Text} {gs : List Glyph} :
    Settled lead (literal t ++ gs) ↔ Settled (lead ++ t) gs := by
  induction t generalizing lead with
  | nil => rw [literal, List.map_nil, List.nil_append, List.append_nil]
  | cons c t ih =>
    rw [show literal (c :: t) ++ gs = .char c :: (literal t ++ gs) from rfl, Settled, ih,
      List.append_assoc, List.singleton_append]

theorem settled_tail {t : Text} : Settled [] (literal t) ↔ Inert t [] := by
  rw [← List.append_nil (literal t), settled_literal, List.nil_append, Settled]

/-- There is no token in an inert text. -/
theorem scanFrom_of_inert {t : Text} (h : Inert t []) (offset : Nat) {look : Lookahead}
    (hlook : look.resolve t = Lookahead.unknown.resolve t) : scanFrom offset look t = ⟨[], t⟩ := by
  have hbraces : ¬ openBraces <:+: t := fun hi =>
    h.braces (by rw [List.append_nil]; exact Text.infix_solid isSolid_openBraces hi)
  have hstep : step? t (look.resolve t) = none := by
    rw [hlook, Lookahead.resolve_of_none (Region.find?_eq_none h.tags.of_solid)]
    exact step?_eq_none (by rw [nextAction?, Text.cut?_eq_none hbraces])
  exact scanFrom_of_none hstep

/-- **A scan gives settled glyphs back**, by induction on the glyphs. -/
theorem glyphs_scanFrom {gs : List Glyph} : ∀ {lead : Text}, Settled lead gs →
    ∀ (offset : Nat) {look : Lookahead},
      look.resolve (lead ++ gs.flatMap text) = Lookahead.unknown.resolve (lead ++ gs.flatMap text) →
        (scanFrom offset look (lead ++ gs.flatMap text)).tokens.flatMap Token.glyphs ++
          literal (scanFrom offset look (lead ++ gs.flatMap text)).tail = literal lead ++ gs := by
  induction gs with
  | nil =>
    intro lead h offset look hlook
    rw [List.flatMap_nil, List.append_nil] at hlook ⊢
    rw [scanFrom_of_inert h offset hlook, List.flatMap_nil, List.nil_append, List.append_nil]
  | cons g gs ih =>
    intro lead h offset look hlook
    cases g with
    | char c =>
      have htext : lead ++ (char c :: gs).flatMap text = (lead ++ [c]) ++ gs.flatMap text := by
        rw [List.flatMap_cons, List.append_assoc]
        rfl
      have hliteral : literal lead ++ char c :: gs = literal (lead ++ [c]) ++ gs := by
        rw [literal, literal, List.map_append, List.append_assoc]
        rfl
      rw [htext] at hlook ⊢
      rw [hliteral]
      exact ih h offset hlook
    | token t kind =>
      obtain ⟨hinert, ⟨act, rfl, hact⟩, hgs⟩ := h
      obtain ⟨s, hs⟩ := hact.reads.head
      have hhead : t.take 1 = ['{'] := by rw [hs]; rfl
      obtain ⟨hstep, hnext⟩ := step?_of_reads
        (show Token.Kind.Reads t (.action act) from hact.reads) (by rw [hhead]; exact hinert)
        (fun _ => hact.unopened) (gs.flatMap text)
      have htext : lead ++ (token t (.action act) :: gs).flatMap text = lead ++
          (t ++ gs.flatMap text) := by
        rw [List.flatMap_cons, text]
      rw [htext] at hlook ⊢
      rw [← hlook] at hstep hnext
      have hcons (span : Span) (next : Scan) :
          ((⟨lead, t, span, .action act⟩ : Token) :: next.tokens).flatMap Token.glyphs ++
              literal next.tail = literal lead ++ token t (.action act) ::
            (next.tokens.flatMap Token.glyphs ++ literal next.tail) := by
        rw [List.flatMap_cons, Token.glyphs, List.append_assoc, List.append_assoc]
        rfl
      rw [scanFrom_of_some hstep]
      refine (hcons _ _).trans ?_
      congr 2
      exact ih hgs _ hnext

/-- **A scan of the text of settled glyphs gives the glyphs back.** -/
theorem glyphs_scan {gs : List Glyph} (h : Settled [] gs) :
    (scan (gs.flatMap text)).tokens.flatMap Token.glyphs ++ literal (scan (gs.flatMap text)).tail =
      gs := glyphs_scanFrom (show Settled [] gs from h) 0 rfl

/-- The tokens of settled glyphs are actions. -/
theorem Settled.exists_action {gs : List Glyph} : ∀ {lead : Text}, Settled lead gs →
    ∀ t kind, token t kind ∈ gs → ∃ act, kind = .action act ∧ act.Legible t := by
  induction gs with
  | nil => exact fun _ _ _ hmem => absurd hmem List.not_mem_nil
  | cons g gs ih =>
    intro lead h t kind hmem
    cases g with
    | char c =>
      rcases List.mem_cons.mp hmem with hmem | hmem
      · exact absurd hmem (by simp)
      · exact ih h t kind hmem
    | token u k =>
      obtain ⟨-, hu, hgs⟩ := h
      rcases List.mem_cons.mp hmem with hmem | hmem
      · obtain ⟨rfl, rfl⟩ := token.inj hmem
        exact hu
      · exact ih hgs t kind hmem

end Glyph

namespace Node

open Glyph

/-! ## Glyphs of legible nodes -/

theorem Entire.closed {n : Node} (h : n.Entire) : n.Closed := by
  cases n with
  | block info frame children => exact h.1
  | _ => trivial

theorem glyphs_cons (n : Node) (ns : List Node) (gs : List Glyph) :
    glyphsAll (n :: ns) ++ gs = literal n.info.lead ++ (n.glyphs ++ (glyphsAll ns ++ gs)) := by
  rw [glyphsAll, List.append_assoc, List.append_assoc]

theorem glyphs_block_append (info : Info) (frame : Frame) (children : List Node) (gs : List Glyph) :
    (block info frame children).glyphs ++ gs =
      .token frame.start.text (.action frame.start.action) :: (glyphsAll children ++
        (literal frame.tail ++ ((frame.stop.map Leaf.glyph).toList ++ gs))) := by
  rw [glyphs, List.cons_append, List.append_assoc, List.append_assoc]
  rfl

mutual

/-- **The glyphs of a legible node are settled.** Where a branch has no closing action, the next one
begins behind its tail. -/
theorem settled_glyphs : ∀ {n : Node} {lead : Text} {gs : List Glyph}, n.Legible →
    Inert lead ['{'] →
    Settled [] gs → (¬ n.Closed → ∀ t, Inert t ['{'] → Settled t gs) → Settled lead (n.glyphs ++ gs)
  | .action info t act, lead, gs, hn, hlead, hgs, _ => by
    rw [glyphs]
    exact ⟨hlead, ⟨act, rfl, hn⟩, hgs⟩
  | .raw _ _, _, _, hn, _, _, _ => hn.elim
  | .block info frame children, lead, gs, hn, hlead, hgs, hopen => by
    obtain ⟨hstart, hstop, hquiet, hentire, hchildren⟩ := hn
    rw [glyphs_block_append]
    refine ⟨hlead, ⟨_, rfl, hstart⟩, settled_children hchildren hquiet.leads hentire ?_⟩
    rw [settled_literal, List.nil_append]
    cases hs : frame.stop with
    | none => exact hopen (by rw [Closed, hs]; exact Bool.false_ne_true) _ hquiet.tail
    | some l => exact ⟨hquiet.tail, ⟨_, rfl, hstop l hs⟩, hgs⟩
  | .chain info branches, lead, gs, hn, hlead, hgs, _ => by
    obtain ⟨⟨first, mid, last, rfl, hfirst, hmid, hlast⟩, hleads, hbranches⟩ := hn
    rw [glyphs]
    refine settled_branches hbranches hleads (fun n hn => ?_) (List.cons_ne_nil _ _) hlead hgs
    rw [← List.cons_append, List.getLast?_concat] at hn
    obtain rfl := Option.some.inj hn
    cases last with
    | block i f cs => exact hlast.2.2
    | _ => exact hlast.elim

/-- The glyphs of children. -/
theorem settled_children : ∀ {ns : List Node} {gs : List Glyph}, LegibleAll ns →
    (∀ n ∈ ns, Inert n.info.lead ['{']) → (∀ n ∈ ns, n.Entire) → Settled [] gs →
      Settled [] (glyphsAll ns ++ gs)
  | [], gs, _, _, _, hgs => hgs
  | n :: ns, gs, h, hleads, hentire, hgs => by
    obtain ⟨hlead, hleads⟩ := List.forall_mem_cons.mp hleads
    obtain ⟨hn, hentire⟩ := List.forall_mem_cons.mp hentire
    rw [glyphs_cons, settled_literal, List.nil_append]
    exact settled_glyphs h.1 hlead (settled_children h.2 hleads hentire hgs) fun hopen =>
      absurd hn.closed hopen

/-- The glyphs of branches. -/
theorem settled_branches : ∀ {ns : List Node} {lead : Text} {gs : List Glyph}, LegibleAll ns →
    (∀ n ∈ ns, n.info.lead = []) → (∀ n ∈ ns.getLast?, n.Closed) → ns ≠ [] → Inert lead ['{'] →
      Settled [] gs → Settled lead (glyphsAll ns ++ gs)
  | [], _, _, _, _, _, hne, _, _ => absurd rfl hne
  | [n], lead, gs, h, hleads, hlast, _, hlead, hgs => by
    rw [glyphs_cons, hleads n List.mem_cons_self, settled_literal, List.append_nil]
    exact settled_glyphs h.1 hlead hgs fun hopen => absurd (hlast n rfl) hopen
  | n :: m :: ns, lead, gs, h, hleads, hlast, _, hlead, hgs => by
    obtain ⟨hn, hleads⟩ := List.forall_mem_cons.mp hleads
    have hrest (t : Text) (ht : Inert t ['{']) : Settled t (glyphsAll (m :: ns) ++ gs) :=
      settled_branches h.2 hleads (by rwa [List.getLast?_cons_cons] at hlast) (List.cons_ne_nil _ _)
        ht hgs
    rw [glyphs_cons, hn, settled_literal, List.append_nil]
    exact settled_glyphs h.1 hlead (hrest [] inert_nil_brace) fun _ => hrest

end

/-! ## Nodes with settled glyphs -/

theorem Whole.entire {n : Node} (hw : n.Whole) (hf : n.Formed) (hl : n.Legible) : n.Entire := by
  cases n with
  | action info t act => trivial
  | raw info t => exact hl
  | block info frame children => exact hw.2
  | chain info branches => exact hf.1

mutual

/-- **A node with settled glyphs is legible.** -/
theorem legible_of_settled : ∀ {n : Node} {offset : Nat} {lead : Text} {gs : List Glyph}, n.Formed →
    n.Placed offset → Settled lead (n.glyphs ++ gs) →
      (¬ n.Closed → ∃ t kind gs', gs = .token t kind :: gs') →
        Inert lead ['{'] ∧ n.Legible ∧ ∃ t, Settled t gs ∧ (n.Closed → t = [])
  | .action info t act, _, lead, gs, _, _, h, _ => by
    rw [glyphs] at h
    obtain ⟨hlead, ⟨act', hact, hl⟩, hgs⟩ := h
    obtain rfl := Token.Kind.action.inj hact
    exact ⟨hlead, hl, [], hgs, fun _ => rfl⟩
  | .raw info t, _, lead, gs, _, _, h, _ => by
    rw [glyphs] at h
    obtain ⟨-, ⟨act, hact, -⟩, -⟩ := h
    exact absurd hact (by simp)
  | .block info frame children, _, lead, gs, hf, hp, h, hopen => by
    rw [glyphs_block_append] at h
    obtain ⟨hlead, ⟨act, hact, hstart⟩, hrest⟩ := h
    obtain rfl := Token.Kind.action.inj hact
    obtain ⟨hchildren, hleads, htail⟩ := legible_of_settled_children hf.2.2 hf.2.1 hp.2.2.1 hrest
    rw [settled_literal, List.nil_append] at htail
    have hentire : ∀ n ∈ children, n.Entire := fun n hn =>
      (hf.2.1 n hn).entire (formedAll_iff.mp hf.2.2 n hn) (legibleAll_iff.mp hchildren n hn)
    cases hs : frame.stop with
    | none =>
      rw [hs] at htail
      obtain ⟨t, kind, gs', rfl⟩ := hopen (by rw [Closed, hs]; exact Bool.false_ne_true)
      refine ⟨hlead, ⟨hstart, ?_, ⟨hleads, htail.1⟩, hentire, hchildren⟩, frame.tail, htail,
        fun hc => ?_⟩
      · rw [hs]
        exact fun l hl => absurd hl (by simp)
      · rw [Closed, hs] at hc
        exact absurd hc Bool.false_ne_true
    | some l =>
      rw [hs] at htail
      obtain ⟨hinert, ⟨act, hact, hstop⟩, hgs⟩ := htail
      obtain rfl := Token.Kind.action.inj hact
      refine ⟨hlead, ⟨hstart, ?_, ⟨hleads, hinert⟩, hentire, hchildren⟩, [], hgs, fun _ => rfl⟩
      rw [hs]
      rintro _ ⟨⟩
      exact hstop
  | .chain info branches, _, lead, gs, hf, hp, h, _ => by
    rw [glyphs] at h
    have hleads : ∀ n ∈ branches, n.info.lead = [] := fun n hn => (hp.2.2.joined n hn).lead_eq
    have hlast : ∀ n ∈ branches.getLast?, n.Closed := by
      obtain ⟨init, last, hcut, hclosed⟩ := hp.2.2.closed
      rw [hcut, List.getLast?_concat]
      rintro _ ⟨⟩
      exact hclosed
    have hne : branches ≠ [] := by
      obtain ⟨init, last, hcut, -⟩ := hp.2.2.closed
      rw [hcut]
      exact List.append_ne_nil_of_right_ne_nil _ (List.cons_ne_nil _ _)
    obtain ⟨hlead, hbranches, hgs⟩ :=
      legible_of_settled_branches hf.2 hp.2.1 hp.2.2.joined hlast hne h
    exact ⟨hlead, ⟨hf.1, hleads, hbranches⟩, [], hgs, fun _ => rfl⟩

/-- Children with settled glyphs. -/
theorem legible_of_settled_children : ∀ {ns : List Node} {offset : Nat} {gs : List Glyph},
    FormedAll ns → (∀ n ∈ ns, n.Whole) → PlacedAll offset ns → Settled [] (glyphsAll ns ++ gs) →
      LegibleAll ns ∧ (∀ n ∈ ns, Inert n.info.lead ['{']) ∧ Settled [] gs
  | [], _, _, _, _, _, h => ⟨trivial, by simp, h⟩
  | n :: ns, _, gs, hf, hw, hp, h => by
    obtain ⟨hn, hw⟩ := List.forall_mem_cons.mp hw
    have hclosed : n.Closed := by
      cases n with
      | block info frame children => exact hn.2.1
      | _ => trivial
    rw [glyphs_cons, settled_literal, List.nil_append] at h
    obtain ⟨hlead, hl, t, ht, hnil⟩ := legible_of_settled hf.1 hp.1 h (fun hopen =>
      absurd hclosed hopen)
    rw [hnil hclosed] at ht
    obtain ⟨hall, hleads, hgs⟩ := legible_of_settled_children hf.2 hw hp.2 ht
    exact ⟨⟨hl, hall⟩, List.forall_mem_cons.mpr ⟨hlead, hleads⟩, hgs⟩

/-- Branches with settled glyphs. -/
theorem legible_of_settled_branches : ∀ {ns : List Node} {offset : Nat} {lead : Text}
    {gs : List Glyph}, FormedAll ns → PlacedAll offset ns → (∀ n ∈ ns, n.Joined) →
      (∀ n ∈ ns.getLast?, n.Closed) → ns ≠ [] → Settled lead (glyphsAll ns ++ gs) →
        Inert lead ['{'] ∧ LegibleAll ns ∧ Settled [] gs
  | [], _, _, _, _, _, _, _, hne, _ => absurd rfl hne
  | [n], _, lead, gs, hf, hp, hj, hlast, _, h => by
    have hclosed := hlast n rfl
    rw [glyphs_cons, (hj n List.mem_cons_self).lead_eq, settled_literal, List.append_nil] at h
    obtain ⟨hlead, hl, t, ht, hnil⟩ := legible_of_settled hf.1 hp.1 h (fun hopen =>
      absurd hclosed hopen)
    rw [hnil hclosed] at ht
    exact ⟨hlead, ⟨hl, trivial⟩, ht⟩
  | n :: m :: ns, _, lead, gs, hf, hp, hj, hlast, _, h => by
    obtain ⟨hn, hj⟩ := List.forall_mem_cons.mp hj
    have hnext : ∃ t kind gs', glyphsAll (m :: ns) ++ gs = .token t kind :: gs' := by
      obtain ⟨info, frame, children, rfl, hlead⟩ := (hj m List.mem_cons_self).eq_block
      rw [glyphs_cons, glyphs_block_append, show (block info frame children).info.lead =
        [] from hlead]
      exact ⟨_, _, _, rfl⟩
    rw [glyphs_cons, hn.lead_eq, settled_literal, List.append_nil] at h
    obtain ⟨hlead, hl, t, ht, -⟩ := legible_of_settled hf.1 hp.1 h fun _ => hnext
    obtain ⟨-, hall, hgs⟩ := legible_of_settled_branches hf.2 hp.2 hj
      (by rwa [List.getLast?_cons_cons] at hlast) (List.cons_ne_nil _ _) ht
    exact ⟨hlead, ⟨hl, hall⟩, hgs⟩

end

end Node

end TemplateFormat
