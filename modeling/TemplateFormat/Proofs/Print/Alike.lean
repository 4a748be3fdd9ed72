import TemplateFormat.Proofs.Print.EchoTree
import TemplateFormat.Proofs.Print.Settled
import TemplateFormat.Proofs.Tree.Order
import TemplateFormat.Proofs.Tree.Shape

/-!
# Trees that differ in places only

A node is `unplaced` without the places in it, and without pragma flags. What is printed for legible
nodes does not depend on these. Legible nodes with the same shape, the same glyphs and the same
numbers in order are the same without places: the glyphs are cut at the tokens, and the shapes tell
which of the tokens open and close blocks.

Results:
* `Node.unplacedAll_eq`: when siblings are the same without places.
* `Node.sheet_unplaced`, `Node.templateDoc_unplaced`: what is printed does not depend on places.
-/

namespace TemplateFormat

/-- Without its place and its flag. -/
def Info.unplaced (i : Info) : Info := { i with span := default, ignored := false }

theorem Info.unplaced_congr {i j : Info} (hid : i.id = j.id) (hlead : i.lead = j.lead) :
    i.unplaced = j.unplaced := by
  rw [unplaced, unplaced, hid, hlead]

/-- Without its place. -/
def Leaf.unplaced (l : Leaf) : Leaf := { l with span := default }

/-- Without the places of its actions. -/
def Frame.unplaced (f : Frame) : Frame :=
  { f with start := f.start.unplaced, stop := f.stop.map Leaf.unplaced }

namespace Node

mutual

/-- Without the places in it. -/
def unplaced : Node → Node
  | .action info t act => .action info.unplaced t act
  | .raw info t => .raw info.unplaced t
  | .block info frame children => .block info.unplaced frame.unplaced (unplacedAll children)
  | .chain info branches => .chain info.unplaced (unplacedAll branches)

/-- Siblings without the places in them. -/
def unplacedAll : List Node → List Node
  | [] => []
  | n :: ns => unplaced n :: unplacedAll ns

end

/-! ## What is printed -/

variable {spacing : Bool} {stem : Text}

theorem info_unplaced (n : Node) : n.unplaced.info = n.info.unplaced := by
  cases n <;> simp only [unplaced, info]

theorem text_stop_unplaced (stop : Option Leaf) :
    ((stop.map Leaf.unplaced).map Leaf.text).getD [] = (stop.map Leaf.text).getD [] := by
  cases stop <;> rfl

mutual

theorem text_unplaced : ∀ n : Node, n.unplaced.text = n.text
  | .action _ _ _ => by rw [unplaced, text, text]
  | .raw _ _ => by rw [unplaced, text, text]
  | .block info frame children => by
    rw [unplaced, text, text, spellAll_unplaced children]
    exact congrArg _ (text_stop_unplaced frame.stop)
  | .chain info branches => by rw [unplaced, text, text, spellAll_unplaced branches]

theorem spellAll_unplaced : ∀ ns : List Node, spellAll (unplacedAll ns) = spellAll ns
  | [] => rfl
  | n :: ns => by
    rw [unplacedAll, spellAll, spellAll, info_unplaced, text_unplaced n, spellAll_unplaced ns]
    rfl

end

theorem placeholder_unplaced (n : Node) : n.unplaced.placeholder stem = n.placeholder stem := by
  rw [placeholder, placeholder, info_unplaced]
  rfl

theorem aliasAll_unplaced (ns : List Node) : aliasAll stem (unplacedAll ns) = aliasAll stem ns := by
  induction ns with
  | nil => rfl
  | cons n ns ih =>
    rw [unplacedAll, aliasAll, aliasAll, info_unplaced, placeholder_unplaced, ih]
    rfl

theorem keys_unplaced (ns : List Node) :
    (unplacedAll ns).map (placeholder stem) = ns.map (placeholder stem) := by
  induction ns with
  | nil => rfl
  | cons n ns ih => rw [unplacedAll, List.map_cons, List.map_cons, placeholder_unplaced, ih]

/-- What is embedded in a container is decided by its text with placeholders and by these. -/
theorem containerDoc_congr {c c' : Container} (haliased : c.aliased stem = c'.aliased stem)
    (hkeys : c.keys stem = c'.keys stem) (embedded : Bool) (docs : List Doc) :
    containerDoc stem embedded c docs = containerDoc stem embedded c' docs := by
  rw [containerDoc, containerDoc, haliased, hkeys]

theorem bodyParts_congr {c c' : Container} (haliased : c.aliased stem = c'.aliased stem)
    (hkeys : c.keys stem = c'.keys stem) (docs : List Doc) :
    Printer.bodyParts stem c docs = Printer.bodyParts stem c' docs := by
  rw [Printer.bodyParts, Printer.bodyParts, haliased, containerDoc_congr haliased hkeys]

theorem inPlaceAll_unplaced {tail after : Text} : ∀ {before : Text} (ns : List Node)
    (ds : List Doc),
    inPlaceAll before tail after (unplacedAll ns) ds = inPlaceAll before tail after ns ds
  | _, [], _ => by rw [unplacedAll]
  | _, _ :: _, [] => by rw [unplacedAll, inPlaceAll, inPlaceAll] <;> simp
  | before, n :: ns, d :: ds => by
    have hbehind : behind tail after (unplacedAll ns) = behind tail after ns := by
      cases ns with
      | nil => rfl
      | cons m ns =>
        rw [unplacedAll, behind, behind, info_unplaced]
        rfl
    have hplace (before after : Text) : n.unplaced.inPlace before after d =
        n.inPlace before after d := by
      cases n <;> simp only [unplaced, inPlace, Frame.unplaced]
    rw [unplacedAll, inPlaceAll, inPlaceAll, inPlaceAll_unplaced ns ds, hbehind, hplace,
      info_unplaced]
    rfl

theorem chainBreaks_unplaced (branches : List Node) :
    Printer.chainBreaks (unplacedAll branches) = Printer.chainBreaks branches := by
  have hlast : (unplacedAll branches).getLast? = branches.getLast?.map unplaced := by
    induction branches with
    | nil => rfl
    | cons n ns ih =>
      cases ns with
      | nil => rfl
      | cons m ns =>
        rw [unplacedAll, unplacedAll, List.getLast?_cons_cons, List.getLast?_cons_cons, ← ih,
          unplacedAll]
  rw [Printer.chainBreaks, Printer.chainBreaks, hlast]
  cases branches.getLast? with
  | none => rfl
  | some n =>
    cases n with
    | block info frame children =>
      rw [Option.map_some, unplaced]
      exact congrArg endsWithNewLine (congrArg (· ++ frame.tail) (spellAll_unplaced children))
    | _ => rw [Option.map_some, unplaced]

mutual

/-- **What is printed for a node does not depend on places.** -/
theorem sheet_unplaced : ∀ n : Node, n.unplaced.sheet spacing stem = n.sheet spacing stem
  | .action _ _ _ => by rw [unplaced, sheet, sheet]
  | .raw _ _ => by rw [unplaced, sheet, sheet]
  | .block info frame children => by
    have hstop : frame.unplaced.stopSheet spacing = frame.stopSheet spacing := by
      rw [Frame.stopSheet, Frame.stopSheet, Frame.unplaced, Option.map_map]
      rfl
    have hcontent : frame.unplaced.content (unplacedAll children) = frame.content children :=
      congrArg (· ++ frame.tail) (spellAll_unplaced children)
    have hparts (docs : List Doc) :
        Printer.bodyParts stem (.ofBlock info.unplaced frame.unplaced (unplacedAll children)) docs =
          Printer.bodyParts stem (.ofBlock info frame children) docs := by
      refine bodyParts_congr ?_ ?_ docs
      · exact congrArg (· ++ frame.tail) (aliasAll_unplaced children)
      · exact keys_unplaced children
    rw [unplaced, sheet, sheet, sheetAll_unplaced children, inPlaceAll_unplaced, hparts, hstop,
      hcontent]
    rfl
  | .chain info branches => by
    rw [unplaced, sheet, sheet, sheetAll_unplaced branches, chainBreaks_unplaced]

theorem sheetAll_unplaced : ∀ ns : List Node,
    sheetAll spacing stem (unplacedAll ns) = sheetAll spacing stem ns
  | [] => rfl
  | n :: ns => by
    rw [unplacedAll, sheetAll, sheetAll, sheet_unplaced n, sheetAll_unplaced ns]

end

/-- **What is printed for a template does not depend on places.** -/
theorem templateDoc_unplaced (ns : List Node) (tail : Text) (span : Span) :
    templateDoc spacing stem ⟨unplacedAll ns, tail, default⟩ =
      templateDoc spacing stem ⟨ns, tail, span⟩ := by
  have hdoc (docs : List Doc) : containerDoc stem false ⟨unplacedAll ns, tail, default⟩ docs =
      containerDoc stem false ⟨ns, tail, span⟩ docs := by
    refine containerDoc_congr ?_ ?_ false docs
    · exact congrArg (· ++ tail) (aliasAll_unplaced ns)
    · exact keys_unplaced ns
  rw [templateDoc, templateDoc, hdoc, sheetAll_unplaced, inPlaceAll_unplaced]

/-! ## Nodes with the same glyphs -/

open Glyph

/-- No literal goes on here. -/
def Stops : List Glyph → Prop
  | .char _ :: _ => False
  | _ => True

/-- Glyphs are cut behind a literal. -/
theorem literal_append_inj {t t' : Text} {gs hs : List Glyph} (hg : Stops gs) (hh : Stops hs)
    (h : literal t ++ gs = literal t' ++ hs) : t = t' ∧ gs = hs := by
  induction t generalizing t' with
  | nil =>
    cases t' with
    | nil => exact ⟨rfl, h⟩
    | cons c t' =>
      rw [show gs = .char c :: (literal t' ++ hs) from h] at hg
      exact hg.elim
  | cons c t ih =>
    cases t' with
    | nil =>
      rw [show hs = .char c :: (literal t ++ gs) from h.symm] at hh
      exact hh.elim
    | cons c' t' =>
      obtain ⟨hc, h⟩ := List.cons.inj h
      obtain ⟨rfl, hgs⟩ := ih h
      exact ⟨by rw [char.inj hc], hgs⟩

/-- A legible node starts with a token. -/
theorem Legible.stops {n : Node} (h : n.Legible) (gs : List Glyph) : Stops (n.glyphs ++ gs) := by
  cases n with
  | action info t act =>
    rw [glyphs]
    trivial
  | raw info t => exact h.elim
  | block info frame children =>
    rw [glyphs_block_append]
    trivial
  | chain info branches =>
    obtain ⟨⟨first, mid, last, rfl, hfirst, -⟩, hleads, -⟩ := h
    cases first with
    | block i f cs =>
      have hlead : (block i f cs).info.lead = [] := hleads _ List.mem_cons_self
      rw [glyphs, glyphs_cons, hlead, glyphs_block_append]
      trivial
    | _ => exact hfirst.elim

/-- If the nodes are blocks, both have a closing action or none, and both are branches or not. -/
def SameEnds : Node → Node → Prop
  | .block _ f _, .block _ g _ => f.stop.isSome = g.stop.isSome ∧ f.branch = g.branch
  | _, _ => True

theorem sameEnds_of_entire {n m : Node} (hn : n.Entire) (hm : m.Entire) : SameEnds n m := by
  cases n <;> cases m <;> try trivial
  exact ⟨hn.1.trans hm.1.symm, hn.2.trans hm.2.symm⟩

theorem sameEnds_of_isBranch {n m : Node} {first last : Bool} (hn : n.IsBranch first last)
    (hm : m.IsBranch first last) : SameEnds n m := by
  cases n <;> cases m <;> try trivial
  exact ⟨hn.2.2.trans hm.2.2.symm, hn.1.trans hm.1.symm⟩

/-- The branches of a chain from one of them on, which is the first one or not. -/
def IsRest (first : Bool) : List Node → Prop
  | [] => False
  | [n] => n.IsBranch first true
  | n :: m :: ns => n.IsBranch first false ∧ IsRest false (m :: ns)

theorem isRest_of_isChain {ns : List Node} (h : IsChain ns) : IsRest true ns := by
  obtain ⟨first, mid, last, rfl, hfirst, hmid, hlast⟩ := h
  have hrest : IsRest false (mid ++ [last]) := by
    induction mid with
    | nil => exact hlast
    | cons n mid ih =>
      obtain ⟨hn, hmid⟩ := List.forall_mem_cons.mp hmid
      have hrest := ih hmid
      rw [List.cons_append]
      generalize mid ++ [last] = ns at hrest
      cases ns with
      | nil => exact hrest.elim
      | cons m ms => exact ⟨hn, hrest⟩
  generalize mid ++ [last] = ns at hrest
  cases ns with
  | nil => exact hrest.elim
  | cons m ms => exact ⟨hfirst, hrest⟩

theorem IsBranch.closed {n : Node} {first : Bool} (h : n.IsBranch first true) : n.Closed := by
  cases n with
  | block info frame children => exact h.2.2
  | _ => trivial

mutual

/-- **Nodes with the same shape, glyphs and numbers are the same without places.** What follows them
is then the same, too. -/
theorem unplaced_eq : ∀ {n m : Node} {gs hs : List Glyph} {is js : List Nat}, n.Legible →
    m.Legible →
    n.shape = m.shape → SameEnds n m → n.info.lead = m.info.lead → n.glyphs ++ gs = m.glyphs ++ hs →
      n.order ++ is = m.order ++ js → (¬ n.Closed → Stops gs ∧ Stops hs) →
        n.unplaced = m.unplaced ∧ gs = hs ∧ is = js
  | .action info t act, m, gs, hs, is, js, _, _, hshape, _, hlead, hglyphs, horder, _ => by
    cases m with
    | action info' t' act' =>
      rw [glyphs, glyphs] at hglyphs
      rw [order, order] at horder
      obtain ⟨htoken, hgs⟩ := List.cons.inj hglyphs
      obtain ⟨rfl, hact⟩ := token.inj htoken
      obtain rfl := Token.Kind.action.inj hact
      obtain ⟨hid, his⟩ := List.cons.inj horder
      exact ⟨by rw [unplaced, unplaced, Info.unplaced_congr hid hlead], hgs, his⟩
    | _ => exact absurd hshape (by simp [shape])
  | .raw _ _, _, _, _, _, _, hn, _, _, _, _, _, _, _ => hn.elim
  | .block info frame children, m, gs, hs, is, js, hn, hm, hshape, hends, hlead, hglyphs, horder,
      hopen => by
    cases m with
    | block info' frame' children' =>
      obtain ⟨hkeyword, hshapes⟩ : frame.keyword = frame'.keyword ∧
          shapeAll children = shapeAll children' := by simpa [shape] using hshape
      rw [glyphs_block_append, glyphs_block_append] at hglyphs
      obtain ⟨htoken, hglyphs⟩ := List.cons.inj hglyphs
      obtain ⟨htext, hact⟩ := token.inj htoken
      rw [order, order, List.cons_append, List.cons_append, List.cons_append, List.cons_append,
        List.append_assoc, List.append_assoc] at horder
      obtain ⟨hid, horder⟩ := List.cons.inj horder
      obtain ⟨hstart, horder⟩ := List.cons.inj horder
      obtain ⟨hchildren, hglyphs, horder⟩ := unplacedAll_eq hn.2.2.2.2 hm.2.2.2.2 hshapes
        hn.2.2.2.1 hm.2.2.2.1 hglyphs horder
      have hstartEq : frame.start.unplaced = frame'.start.unplaced := by
        rw [Leaf.unplaced, Leaf.unplaced, hstart, htext, Token.Kind.action.inj hact]
      have hblock (htail : frame.tail = frame'.tail)
          (hstop : frame.stop.map Leaf.unplaced = frame'.stop.map Leaf.unplaced) :
          (block info frame children).unplaced = (block info' frame' children').unplaced := by
        have hframe : frame.unplaced = frame'.unplaced := by
          rw [Frame.unplaced, Frame.unplaced, hkeyword, hstartEq, htail, hstop, hends.2]
        rw [unplaced, unplaced, Info.unplaced_congr hid hlead, hframe, hchildren]
      cases hs : frame.stop with
      | none =>
        obtain ⟨hg, hh⟩ := hopen (by rw [Closed, hs]; exact Bool.false_ne_true)
        have hs' : frame'.stop = none := Option.isNone_iff_eq_none.mp (by simpa [hs] using hends.1)
        rw [hs, hs'] at hglyphs horder
        obtain ⟨htail, hgs⟩ := literal_append_inj hg hh hglyphs
        exact ⟨hblock htail (by rw [hs, hs']), hgs, horder⟩
      | some l =>
        obtain ⟨l', hs'⟩ := Option.isSome_iff_exists.mp (hends.1.symm.trans (by rw [hs]; rfl))
        rw [hs, hs'] at hglyphs horder
        obtain ⟨htail, hstop⟩ := literal_append_inj (by trivial) (by trivial) hglyphs
        obtain ⟨htoken, hgs⟩ := List.cons.inj hstop
        obtain ⟨htext, hact⟩ := token.inj htoken
        obtain ⟨hid', his⟩ := List.cons.inj horder
        refine ⟨hblock htail ?_, hgs, his⟩
        rw [hs, hs', Option.map_some, Option.map_some, Leaf.unplaced, Leaf.unplaced, htext,
          Token.Kind.action.inj hact, hid']
    | _ => exact absurd hshape (by simp [shape])
  | .chain info branches, m, gs, hs, is, js, hn, hm, hshape, _, hlead, hglyphs, horder, _ => by
    cases m with
    | chain info' branches' =>
      have hshapes : shapeAll branches = shapeAll branches' := by simpa [shape] using hshape
      rw [glyphs, glyphs] at hglyphs
      rw [order, order, List.append_assoc, List.append_assoc] at horder
      obtain ⟨hbranches, hgs, horder⟩ := unplacedBranches_eq hn.2.2 hm.2.2 hshapes
        (isRest_of_isChain hn.1) (isRest_of_isChain hm.1) hn.2.1 hm.2.1 hglyphs horder
      obtain ⟨hid, his⟩ := List.cons.inj horder
      exact ⟨by rw [unplaced, unplaced, Info.unplaced_congr hid hlead, hbranches], hgs, his⟩
    | _ => exact absurd hshape (by simp [shape])

/-- Children with the same shapes, glyphs and numbers. -/
theorem unplacedAll_eq : ∀ {ns ms : List Node} {gs hs : List Glyph} {is js : List Nat},
    LegibleAll ns →
    LegibleAll ms → shapeAll ns = shapeAll ms → (∀ n ∈ ns, n.Entire) → (∀ m ∈ ms, m.Entire) →
      glyphsAll ns ++ gs = glyphsAll ms ++ hs → orderAll ns ++ is = orderAll ms ++ js →
        unplacedAll ns = unplacedAll ms ∧ gs = hs ∧ is = js
  | [], ms, gs, hs, is, js, _, _, hshapes, _, _, hglyphs, horder => by
    cases ms with
    | nil => exact ⟨rfl, hglyphs, horder⟩
    | cons m ms => exact absurd hshapes (by simp [shapeAll])
  | n :: ns, ms, gs, hs, is, js, hn, hm, hshapes, hentire, hentire', hglyphs, horder => by
    cases ms with
    | nil => exact absurd hshapes (by simp [shapeAll])
    | cons m ms =>
      rw [shapeAll, shapeAll] at hshapes
      obtain ⟨hshape, hshapes⟩ := List.cons.inj hshapes
      obtain ⟨hnEntire, hentire⟩ := List.forall_mem_cons.mp hentire
      obtain ⟨hmEntire, hentire'⟩ := List.forall_mem_cons.mp hentire'
      rw [glyphs_cons, glyphs_cons] at hglyphs
      rw [orderAll_cons n, orderAll_cons m] at horder
      obtain ⟨hlead, hglyphs⟩ := literal_append_inj (hn.1.stops _) (hm.1.stops _) hglyphs
      obtain ⟨hnode, hglyphs, horder⟩ := unplaced_eq hn.1 hm.1 hshape
        (sameEnds_of_entire hnEntire hmEntire) hlead hglyphs horder
        (fun hopen => absurd hnEntire.closed hopen)
      obtain ⟨hnodes, hgs, his⟩ := unplacedAll_eq hn.2 hm.2 hshapes hentire hentire' hglyphs horder
      exact ⟨by rw [unplacedAll, unplacedAll, hnode, hnodes], hgs, his⟩

/-- Branches with the same shapes, glyphs and numbers. -/
theorem unplacedBranches_eq : ∀ {ns ms : List Node} {first : Bool} {gs hs : List Glyph}
    {is js : List Nat}, LegibleAll ns → LegibleAll ms → shapeAll ns = shapeAll ms →
    IsRest first ns →
      IsRest first ms → (∀ n ∈ ns, n.info.lead = []) → (∀ m ∈ ms, m.info.lead = []) →
        glyphsAll ns ++ gs = glyphsAll ms ++ hs → orderAll ns ++ is = orderAll ms ++ js →
          unplacedAll ns = unplacedAll ms ∧ gs = hs ∧ is = js
  | [], _, _, _, _, _, _, _, _, _, hr, _, _, _, _, _ => hr.elim
  | [n], ms, _, gs, hs, is, js, hn, hm, hshapes, hr, hr', hleads, hleads', hglyphs, horder => by
    match ms, hm, hshapes, hr', hleads', hglyphs, horder with
    | [], _, _, hr', _, _, _ => exact hr'.elim
    | [m], hm, hshapes, hr', hleads', hglyphs, horder =>
      have hlead := (hleads n List.mem_cons_self).trans (hleads' m List.mem_cons_self).symm
      rw [glyphs_cons n, glyphs_cons m, hlead] at hglyphs
      rw [orderAll_cons n, orderAll_cons m] at horder
      obtain ⟨hnode, hgs, his⟩ := unplaced_eq hn.1 hm.1 (List.cons.inj hshapes).1
        (sameEnds_of_isBranch hr hr') hlead (List.append_cancel_left hglyphs) horder
        (fun hopen => absurd hr.closed hopen)
      exact ⟨congrArg (fun n => [n]) hnode, hgs, his⟩
    | _ :: _ :: _, _, hshapes, _, _, _, _ => exact absurd hshapes (by simp [shapeAll])
  | n :: n' :: ns, ms, _, gs, hs, is, js, hn, hm, hshapes, hr, hr', hleads, hleads', hglyphs,
      horder => by
    match ms, hm, hshapes, hr', hleads', hglyphs, horder with
    | [], _, _, hr', _, _, _ => exact hr'.elim
    | [_], _, hshapes, _, _, _, _ => exact absurd hshapes (by simp [shapeAll])
    | m :: m' :: ms, hm, hshapes, hr', hleads', hglyphs, horder =>
      obtain ⟨hlead, hleads⟩ := List.forall_mem_cons.mp hleads
      obtain ⟨hlead', hleads'⟩ := List.forall_mem_cons.mp hleads'
      have hsame := hlead.trans hlead'.symm
      rw [glyphs_cons n, glyphs_cons m, hsame] at hglyphs
      rw [orderAll_cons n, orderAll_cons m] at horder
      have hstops {k : Node} {ks : List Node} {fs : List Glyph} (hk : k.Legible)
          (hlead : k.info.lead = []) : Stops (glyphsAll (k :: ks) ++ fs) := by
        rw [glyphs_cons, hlead]
        exact hk.stops _
      obtain ⟨hnode, hglyphs, horder⟩ := unplaced_eq hn.1 hm.1 (List.cons.inj hshapes).1
        (sameEnds_of_isBranch hr.1 hr'.1) hsame (List.append_cancel_left hglyphs) horder
        (fun _ => ⟨hstops hn.2.1 (hleads n' List.mem_cons_self),
          hstops hm.2.1 (hleads' m' List.mem_cons_self)⟩)
      obtain ⟨hnodes, hgs, his⟩ := unplacedBranches_eq hn.2 hm.2 (List.cons.inj hshapes).2 hr.2
        hr'.2
        hleads hleads' hglyphs horder
      exact ⟨congrArg₂ List.cons hnode hnodes, hgs, his⟩

end

end Node

end TemplateFormat
