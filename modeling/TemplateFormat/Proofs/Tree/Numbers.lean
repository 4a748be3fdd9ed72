import TemplateFormat.Proofs.Tree.Step
import TemplateFormat.Tree.Listing
import Mathlib.Data.List.Lattice
import Mathlib.Data.List.Nodup
import Mathlib.Data.List.Pairwise
import Mathlib.Data.List.Sort

/-!
# The tree of a template, by number

A listing is the tree written as a table: the entry with number `i` is line `i`, and an entry
names what belongs to it by number (`Entry.refs`): a root its children, a block its opening action,
its children and its closing action, a chain its branches. The builder gives numbers to things
that are not finished, so while it reads, the numbers given out are spread over the open levels,
their finished branches and siblings (`Builder.ids`), and the tokens read are in those places too
(`Builder.marks`). A step adds the next numbers and the mark of its token to them.

Results:
* `ids_steps`: after every run the numbers below the next one are given out, each once.
* `marks_steps`: after every run what the builder holds is the tokens it has read, in order.
* `Tree.Numbered.visits_root`: following the references from the root visits the actions and raw
  regions of the tree in order, and nothing else.
* `parse_arena`: the listing of a template is a tree by its references and parents, and the
  traversal of it gives the tokens back.
-/

namespace TemplateFormat

/-- What the token is, and where it stands. -/
def Token.mark (t : Token) : Mark :=
  match t.kind with
  | .action act => .action t.span act
  | .raw => .raw t.span

namespace Entry

/-- The numbers that the entry refers to, in source order. -/
def refs : Entry → List Nat
  | root t => t.children.map fun n => n.info.id
  | node (.block _ frame children) =>
    frame.start.id :: (children.map (fun n => n.info.id) ++ (frame.stop.map Leaf.id).toList)
  | node (.chain _ branches) => branches.map fun n => n.info.id
  | _ => []

theorem refs_block (info : Info) (frame : Frame) (children : List Node) :
    (node (.block info frame children)).refs = frame.start.id ::
      (children.map (fun n => n.info.id) ++ (frame.stop.map Leaf.id).toList) := rfl

theorem refs_chain (info : Info) (branches : List Node) :
    (node (.chain info branches)).refs = branches.map fun n => n.info.id := rfl

theorem refs_edge (role : Role) (leaf : Leaf) : (edge role leaf).refs = [] := rfl

/-- The token that the entry is, if it is one. -/
def mark? : Entry → Option Mark
  | node (.action info _ act) => some (.action info.span act)
  | node (.raw info _) => some (.raw info.span)
  | edge _ leaf => some leaf.mark
  | _ => none

end Entry

/-! ## The numbers in a node -/

namespace Node

mutual

/-- The numbers of a node and of everything in it. -/
def ids : Node → List Nat
  | .action info _ _ => [info.id]
  | .raw info _ => [info.id]
  | .block info frame children =>
    info.id :: frame.start.id :: (idsAll children ++ (frame.stop.map Leaf.id).toList)
  | .chain info branches => info.id :: idsAll branches

/-- The numbers of siblings and of everything in them. -/
def idsAll : List Node → List Nat
  | [] => []
  | n :: ns => ids n ++ idsAll ns

end

theorem idsAll_eq_flatMap (ns : List Node) : idsAll ns = ns.flatMap ids := by
  induction ns with
  | nil => rw [idsAll, List.flatMap_nil]
  | cons n ns ih => rw [idsAll, ih, List.flatMap_cons]

theorem idsAll_reverse (ns : List Node) : (idsAll ns.reverse).Perm (idsAll ns) := by
  rw [idsAll_eq_flatMap, idsAll_eq_flatMap]
  exact (List.reverse_perm ns).flatMap_right ids

theorem marksAll_append (ms ns : List Node) : marksAll (ms ++ ns) = marksAll ms ++ marksAll ns := by
  induction ms with
  | nil => rw [marksAll, List.nil_append, List.nil_append]
  | cons m ms ih => rw [List.cons_append, marksAll, marksAll, ih, List.append_assoc]

theorem marksAll_singleton (n : Node) : marksAll [n] = n.marks := by
  rw [marksAll, marksAll, List.append_nil]

@[simp] theorem ids_setIgnored (ignored : Bool) (n : Node) :
    (n.setIgnored ignored).ids = n.ids := by
  cases n <;> simp only [setIgnored, ids]

@[simp] theorem marks_setIgnored (ignored : Bool) (n : Node) :
    (n.setIgnored ignored).marks = n.marks := by
  cases n <;> simp only [setIgnored, marks]

end Node

/-! ## What the builder holds -/

namespace Builder

open Node

/-- The numbers in an open level, the children of its block apart. -/
def levelIds (level : Level) : List Nat :=
  idsAll level.outer ++ (idsAll level.branches ++ [level.id, level.start.id])

/-- The numbers given out so far. -/
def ids (b : Builder) : List Nat := b.levels.flatMap levelIds ++ idsAll b.children

/-- The tokens from the content of the enclosing container up to the content of the block. -/
def levelMarks (level : Level) : List Mark :=
  marksAll level.outer.reverse ++ (marksAll level.branches.reverse ++ [level.start.mark])

/-- The tokens up to the content of the innermost open block. -/
def openMarks : List Level → List Mark
  | [] => []
  | level :: outer => openMarks outer ++ levelMarks level

/-- The tokens read so far. -/
def marks (b : Builder) : List Mark := openMarks b.levels ++ marksAll b.children.reverse

theorem idsAll_attach (ns : List Node) (n : Node) : idsAll (attach ns n) = n.ids ++ idsAll ns := by
  rw [attach, idsAll, ids_setIgnored]

theorem marksAll_attach (ns : List Node) (n : Node) :
    marksAll (attach ns n).reverse = marksAll ns.reverse ++ n.marks := by
  rw [attach, List.reverse_cons, marksAll_append, marksAll_singleton, marks_setIgnored]

theorem ids_closeBlock (level : Level) (lead : Text) (children : List Node) (tail : Text)
    (spanStop : Nat) (stop : Option Leaf) (branch : Bool) :
    (closeBlock level lead children tail spanStop stop branch).ids =
      level.id :: level.start.id :: (idsAll children.reverse ++ (stop.map Leaf.id).toList) := by
  simp only [closeBlock, Node.ids]

theorem marks_closeBlock (level : Level) (lead : Text) (children : List Node) (tail : Text)
    (spanStop : Nat) (stop : Option Leaf) (branch : Bool) :
    (closeBlock level lead children tail spanStop stop branch).marks =
      level.start.mark :: marksAll children.reverse ++ (stop.map Leaf.mark).toList := by
  simp only [closeBlock, Node.marks]

variable {b b' : Builder} {t : Token}

/-- **A step gives out the next numbers**, each once. -/
theorem ids_step (h : b.step t = .ok b') :
    ∃ k, b'.next = b.next + k ∧ b'.ids.Perm (b.ids ++ List.range' b.next k) := by
  have hadv := step_advance b t
  rw [h] at hadv
  -- a number is counted as often in the new lists as in the old ones and the new numbers
  have hrev (ns : List Node) (i : Nat) : (idsAll ns.reverse).count i = (idsAll ns).count i :=
    (idsAll_reverse ns).count_eq i
  cases hadv with
  | raw hkind =>
    refine ⟨1, rfl, List.perm_iff_count.mpr fun i => ?_⟩
    simp only [ids, addChild, idsAll_attach, Node.ids, List.count_append, List.range'_one]
    omega
  | plain act hkind hk =>
    refine ⟨1, rfl, List.perm_iff_count.mpr fun i => ?_⟩
    simp only [ids, addChild, idsAll_attach, Node.ids, List.count_append, List.range'_one]
    omega
  | divide act level outer hkind hk hl =>
    refine ⟨2, rfl, List.perm_iff_count.mpr fun i => ?_⟩
    simp only [ids, hl, divideLevel, List.flatMap_cons, levelIds, idsAll, ids_closeBlock, hrev,
      List.count_append, List.count_cons, List.range'_succ, List.range'_zero, Option.map_none,
      Option.toList_none, List.count_nil]
    omega
  | close act k level outer hkind hk hc hl =>
    unfold closeLevel
    split
    · rename_i hbranches
      refine ⟨1, rfl, List.perm_iff_count.mpr fun i => ?_⟩
      simp only [ids, hl, List.flatMap_cons, levelIds, hbranches, idsAll, idsAll_attach,
        ids_closeBlock, hrev, List.count_append, List.count_cons, List.range'_succ,
        List.range'_zero, Option.map_some, Option.toList_some, List.count_nil]
      omega
    · refine ⟨2, rfl, List.perm_iff_count.mpr fun i => ?_⟩
      simp only [ids, hl, List.flatMap_cons, levelIds, idsAll, idsAll_attach, Node.ids,
        ids_closeBlock, hrev, List.count_append, List.count_cons, List.range'_succ,
        List.range'_zero, Option.map_some, Option.toList_some, List.count_nil]
      omega
  | start act k hkind hk ho hd =>
    refine ⟨2, rfl, List.perm_iff_count.mpr fun i => ?_⟩
    simp only [ids, openLevel, List.flatMap_cons, levelIds, idsAll, List.count_append,
      List.count_cons, List.range'_succ, List.range'_zero, List.count_nil]
    omega

/-- **A step adds the mark of its token.** -/
theorem marks_step (h : b.step t = .ok b') : b'.marks = b.marks ++ [t.mark] := by
  have hadv := step_advance b t
  rw [h] at hadv
  unfold Token.mark
  cases hadv with
  | raw hkind =>
    rw [hkind]
    simp only [marks, addChild, marksAll_attach, Node.marks, List.append_assoc]
  | plain act hkind hk =>
    rw [hkind]
    simp only [marks, addChild, marksAll_attach, Node.marks, List.append_assoc]
  | divide act level outer hkind hk hl =>
    rw [hkind]
    simp [marks, hl, divideLevel, openMarks, levelMarks, marksAll_append, marks_closeBlock,
      marksAll, Leaf.mark]
  | close act k level outer hkind hk hc hl =>
    rw [hkind]
    unfold closeLevel
    split
    · rename_i hbranches
      simp [marks, hl, openMarks, levelMarks, hbranches, marksAll_attach, marks_closeBlock,
        marksAll, Leaf.mark]
    · simp [marks, hl, openMarks, levelMarks, marksAll_attach, Node.marks, marksAll_append,
        marksAll_singleton, marks_closeBlock, Leaf.mark]
  | start act k hkind hk ho hd =>
    rw [hkind]
    simp [marks, openLevel, openMarks, levelMarks, marksAll, Leaf.mark]

/-- **After every run the numbers below the next one are given out**, each once; 0 is the root's. -/
theorem ids_steps {ts : List Token} (h : empty.steps ts = .ok b) :
    (0 :: b.ids).Perm (List.range b.next) := by
  refine steps_invariant (P := fun _ b => (0 :: b.ids).Perm (List.range b.next)) (.refl _) ?_ h
  intro _ c t c' hc hs
  obtain ⟨k, hnext, hids⟩ := ids_step hs
  calc 0 :: c'.ids
    _ |>.Perm (0 :: (c.ids ++ List.range' c.next k)) := hids.cons 0
    _ |>.Perm (List.range c.next ++ List.range' c.next k) := hc.append_right _
    _ = List.range c'.next := by
      rw [hnext, List.range_eq_range', List.range_eq_range', ← List.range'_append_1, Nat.zero_add]

/-- **After every run the builder holds the tokens it has read**, in order. -/
theorem marks_steps {ts : List Token} (h : empty.steps ts = .ok b) :
    b.marks = ts.map Token.mark := by
  refine steps_invariant (P := fun ts b => b.marks = ts.map Token.mark) rfl ?_ h
  intro ts c t c' hc hs
  rw [marks_step hs, hc, List.map_append]
  rfl

end Builder

/-! ## The listing of a node -/

namespace Node

mutual

theorem ids_listed (parent : Nat) : ∀ n : Node,
    (listed parent n).map (fun l => l.entry.id) = n.ids
  | .action info t act => by rw [listed, ids]; rfl
  | .raw info t => by rw [listed, ids]; rfl
  | .block info frame children => by
    rw [listed, ids, List.map_cons, List.map_cons, List.map_append, ids_listedAll info.id children]
    cases frame.stop <;> rfl
  | .chain info branches => by
    rw [listed, ids, List.map_cons, ids_listedAll info.id branches]
    rfl

theorem ids_listedAll (parent : Nat) : ∀ ns : List Node,
    (listedAll parent ns).map (fun l => l.entry.id) = idsAll ns
  | [] => by rw [listedAll, idsAll, List.map_nil]
  | n :: ns => by
    rw [listedAll, idsAll, List.map_append, ids_listed parent n, ids_listedAll parent ns]

end

mutual

/-- **Everything in a node is referred to once**, the node itself apart. -/
theorem refs_listed (parent : Nat) : ∀ n : Node,
    (n.info.id :: (listed parent n).flatMap fun l => l.entry.refs).Perm n.ids
  | .action info t act => by
    rw [listed, ids]
    exact .refl _
  | .raw info t => by
    rw [listed, ids]
    exact .refl _
  | .block info frame children => by
    have hall := (refs_listedAll info.id children).count_eq
    have hstop : ((frame.stop.map fun leaf => (⟨some info.id, .edge .closes leaf⟩ :
        Listed)).toList.flatMap fun l => l.entry.refs) = [] := by
      cases frame.stop <;> rfl
    refine List.perm_iff_count.mpr fun i => ?_
    have hi := hall i
    show List.count i (info.id :: _) = _
    simp only [listed, ids, Entry.refs_block, Entry.refs_edge, List.flatMap_cons,
      List.flatMap_append, hstop, List.count_append, List.count_cons, List.count_nil] at hi ⊢
    omega
  | .chain info branches => by
    have hall := (refs_listedAll info.id branches).count_eq
    refine List.perm_iff_count.mpr fun i => ?_
    have hi := hall i
    show List.count i (info.id :: _) = _
    simp only [listed, ids, Entry.refs_chain, List.flatMap_cons, List.count_append,
      List.count_cons] at hi ⊢
    omega

/-- Everything in siblings is referred to once, the siblings apart. -/
theorem refs_listedAll (parent : Nat) : ∀ ns : List Node,
    (ns.map (fun n => n.info.id) ++ (listedAll parent ns).flatMap fun l => l.entry.refs).Perm
      (idsAll ns)
  | [] => by simp [listedAll, idsAll]
  | n :: ns => by
    have hn := (refs_listed parent n).count_eq
    have hns := (refs_listedAll parent ns).count_eq
    refine List.perm_iff_count.mpr fun i => ?_
    have hi := hn i
    have hi' := hns i
    simp only [listedAll, idsAll, List.map_cons, List.cons_append, List.flatMap_append,
      List.count_append, List.count_cons] at hi hi' ⊢
    omega

end

/-- What is listed names, as its parent, an entry that refers to it. -/
def Parented (ls : List Listed) (m : Listed) : Prop :=
  ∃ l ∈ ls, m.parent = some l.entry.id ∧ m.entry.id ∈ l.entry.refs

theorem Parented.mono {ls ls' : List Listed} {m : Listed} (h : Parented ls m) (hs : ls ⊆ ls') :
    Parented ls' m := by
  obtain ⟨l, hl, hm⟩ := h
  exact ⟨l, hs hl, hm⟩

mutual

/-- **The parents in a node**: the node has the given one, and everything in it one of the node. -/
theorem parent_listed (parent : Nat) : ∀ (n : Node) (m : Listed), m ∈ listed parent n →
    m = ⟨some parent, .node n⟩ ∨ Parented (listed parent n) m
  | .action info t act, m, hm => by
    rw [listed, List.mem_singleton] at hm
    exact .inl hm
  | .raw info t, m, hm => by
    rw [listed, List.mem_singleton] at hm
    exact .inl hm
  | .block info frame children, m, hm => by
    have hself : (⟨some parent, .node (.block info frame children)⟩ : Listed) ∈
        listed parent (.block info frame children) := by
      rw [listed]
      exact List.mem_cons_self
    rw [listed, List.mem_cons, List.mem_cons, List.mem_append] at hm
    rcases hm with rfl | rfl | hm | hm
    · exact .inl rfl
    · exact .inr ⟨_, hself, rfl, List.mem_cons_self⟩
    · rcases parent_listedAll info.id children m hm with ⟨n, hn, rfl⟩ | hm
      · refine .inr ⟨_, hself, rfl, ?_⟩
        exact List.mem_cons_of_mem _ (List.mem_append_left _
          (List.mem_map_of_mem (f := fun n => n.info.id) hn))
      · refine .inr (hm.mono fun l hl => ?_)
        rw [listed]
        exact List.mem_cons_of_mem _ (List.mem_cons_of_mem _ (List.mem_append_left _ hl))
    · obtain ⟨leaf, hleaf, rfl⟩ := Option.map_eq_some_iff.mp (Option.mem_toList.mp hm)
      exact .inr ⟨_, hself, rfl, by simp [Entry.refs_block, Entry.id, hleaf]⟩
  | .chain info branches, m, hm => by
    have hself : (⟨some parent, .node (.chain info branches)⟩ : Listed) ∈
        listed parent (.chain info branches) := by
      rw [listed]
      exact List.mem_cons_self
    rw [listed, List.mem_cons] at hm
    rcases hm with rfl | hm
    · exact .inl rfl
    · rcases parent_listedAll info.id branches m hm with ⟨n, hn, rfl⟩ | hm
      · exact .inr ⟨_, hself, rfl, List.mem_map_of_mem (f := fun n => n.info.id) hn⟩
      · refine .inr (hm.mono fun l hl => ?_)
        rw [listed]
        exact List.mem_cons_of_mem _ hl

/-- The parents in siblings. -/
theorem parent_listedAll (parent : Nat) : ∀ (ns : List Node) (m : Listed),
    m ∈ listedAll parent ns →
      (∃ n ∈ ns, m = ⟨some parent, .node n⟩) ∨ Parented (listedAll parent ns) m
  | [], m, hm => by simp [listedAll] at hm
  | n :: ns, m, hm => by
    rw [listedAll, List.mem_append] at hm
    rw [listedAll]
    rcases hm with hm | hm
    · rcases parent_listed parent n m hm with rfl | hm
      · exact .inl ⟨n, List.mem_cons_self, rfl⟩
      · exact .inr (hm.mono (List.subset_append_left _ _))
    · rcases parent_listedAll parent ns m hm with ⟨k, hk, rfl⟩ | hm
      · exact .inl ⟨k, List.mem_cons_of_mem n hk, rfl⟩
      · exact .inr (hm.mono (List.subset_append_right _ _))

end

end Node

/-! ## The listing of a tree -/

namespace Tree

/-- The numbers of the tree are 0 for the root and the next ones, each given out once. -/
def Numbered (t : Tree) : Prop :=
  ∃ n, (0 :: Node.idsAll t.children).Perm (List.range n)

/-- The entries in the order of the tree. -/
def unsorted (t : Tree) : List Listed := ⟨none, .root t⟩ :: Node.listedAll 0 t.children

variable {t : Tree}

theorem listing_perm (t : Tree) : t.listing.Perm t.unsorted := List.mergeSort_perm _ _

theorem ids_unsorted (t : Tree) :
    t.unsorted.map (fun l => l.entry.id) = 0 :: Node.idsAll t.children := by
  rw [unsorted, List.map_cons, Node.ids_listedAll]
  rfl

/-- **Line `i` of the listing has the number `i`.** -/
theorem Numbered.ids_listing (h : t.Numbered) :
    t.listing.map (fun l => l.entry.id) = List.range t.listing.length := by
  obtain ⟨n, hn⟩ := h
  have hperm : (t.listing.map fun l => l.entry.id).Perm (List.range n) :=
    ((listing_perm t).map _).trans (ids_unsorted t ▸ hn)
  have hlen : t.listing.length = n := by
    rw [← List.length_map, hperm.length_eq, List.length_range]
  have hsorted : (t.listing.map fun l => l.entry.id).Pairwise (· ≤ ·) := by
    rw [List.pairwise_map]
    have hle := @List.pairwise_mergeSort _ (fun a b : Listed => a.entry.id ≤ b.entry.id)
      (by intro a b c; simpa using Nat.le_trans) (by intro a b; simpa using Nat.le_total _ _)
      t.unsorted
    exact hle.imp of_decide_eq_true
  rw [hlen]
  exact hperm.eq_of_pairwise' hsorted List.pairwise_le_range

theorem Numbered.getElem?_listing (h : t.Numbered) {l : Listed} (hl : l ∈ t.listing) :
    t.listing[l.entry.id]? = some l := by
  obtain ⟨i, hi, rfl⟩ := List.mem_iff_getElem.mp hl
  have hid : (t.listing.map fun l => l.entry.id)[i]? = some i := by
    rw [h.ids_listing, List.getElem?_range hi]
  rw [List.getElem?_map, List.getElem?_eq_getElem hi, Option.map_some, Option.some.injEq] at hid
  rw [hid, List.getElem?_eq_getElem hi]

/-- **Each number but 0 is referred to once**, and nothing else is referred to. -/
theorem Numbered.count_refs (h : t.Numbered) (i : Nat) :
    (t.listing.flatMap fun l => l.entry.refs).count i =
      if 0 < i ∧ i < t.listing.length then 1 else 0 := by
  have hrefs : (0 :: t.listing.flatMap fun l => l.entry.refs).Perm
      (List.range t.listing.length) := by
    rw [← h.ids_listing]
    refine List.Perm.trans ?_ ((listing_perm t).map _).symm
    rw [ids_unsorted]
    refine List.Perm.cons 0 (((listing_perm t).flatMap_right _).trans ?_)
    exact Node.refs_listedAll 0 t.children
  have hcount := hrefs.count_eq i
  rw [List.count_cons, List.count_range] at hcount
  have hlen : 0 < t.listing.length := by
    rw [(listing_perm t).length_eq]
    exact Nat.succ_pos _
  by_cases hi : i = 0
  · subst hi
    rw [if_pos hlen] at hcount
    simpa using hcount
  · have hpos : 0 < i := Nat.pos_of_ne_zero hi
    simpa [Ne.symm hi, hpos] using hcount

/-- **What refers to an entry is its parent.** -/
theorem Numbered.parent_eq (h : t.Numbered) {l m : Listed} (hl : l ∈ t.listing)
    (hm : m ∈ t.listing) (href : m.entry.id ∈ l.entry.refs) : m.parent = some l.entry.id := by
  have hnodup : (t.listing.flatMap fun l => l.entry.refs).Nodup := by
    rw [List.nodup_iff_count_le_one]
    intro i
    rw [h.count_refs i]
    split <;> decide
  -- the parent refers to the entry, and no other entry does
  have hparent : Node.Parented t.listing m := by
    have hm' := (listing_perm t).mem_iff.mp hm
    rw [unsorted, List.mem_cons] at hm'
    rcases hm' with rfl | hm'
    · have hmem : 0 ∈ t.listing.flatMap fun l => l.entry.refs := List.mem_flatMap.mpr ⟨l, hl, href⟩
      have hzero := h.count_refs 0
      rw [if_neg (by simp)] at hzero
      exact absurd hmem (List.count_eq_zero.mp hzero)
    · rcases Node.parent_listedAll 0 t.children m hm' with ⟨n, hn, rfl⟩ | hm'
      · refine ⟨⟨none, .root t⟩, (listing_perm t).mem_iff.mpr List.mem_cons_self, rfl, ?_⟩
        exact List.mem_map_of_mem (f := fun n => n.info.id) hn
      · refine hm'.mono fun k hk => (listing_perm t).mem_iff.mpr ?_
        exact List.mem_cons_of_mem _ hk
  obtain ⟨l', hl', hp, href'⟩ := hparent
  have hsame : l' = l := by
    by_contra hne
    have : Std.Symm (Function.onFun List.Disjoint fun l : Listed => l.entry.refs) :=
      ⟨fun _ _ hd => List.Disjoint.symm hd⟩
    have hdisj := (List.nodup_flatMap.mp hnodup).2.forall hl' hl hne
    exact hdisj href' href
  rw [hp, hsame]

/-! ## Following the references -/

mutual

/-- The tokens that are visited from the entry with a number: the entry itself if it is a token,
and otherwise what is visited from the numbers it refers to, one after the other. -/
inductive Visits (t : Tree) : Nat → List Mark → Prop
  | leaf {i : Nat} {l : Listed} {m : Mark} (hl : t.listing[i]? = some l)
      (hm : l.entry.mark? = some m) : Visits t i [m]
  | inner {i : Nat} {l : Listed} {ms : List Mark} (hl : t.listing[i]? = some l)
      (hm : l.entry.mark? = none) (hall : VisitsAll t l.entry.refs ms) : Visits t i ms

/-- The tokens that are visited from the entries with the numbers, one after the other. -/
inductive VisitsAll (t : Tree) : List Nat → List Mark → Prop
  | nil : VisitsAll t [] []
  | cons {i : Nat} {is : List Nat} {ms ns : List Mark} (hi : Visits t i ms)
      (his : VisitsAll t is ns) : VisitsAll t (i :: is) (ms ++ ns)

end

mutual

/-- The references lead to one sequence of tokens only. -/
theorem Visits.unique : ∀ {i : Nat} {ms ns : List Mark}, t.Visits i ms → t.Visits i ns → ms = ns
  | _, _, _, .leaf hl hm, .leaf hl' hm' => by
    obtain rfl := Option.some.inj (hl.symm.trans hl')
    rw [Option.some.inj (hm.symm.trans hm')]
  | _, _, _, .leaf hl hm, .inner hl' hm' _ => by
    obtain rfl := Option.some.inj (hl.symm.trans hl')
    exact absurd (hm.symm.trans hm') (by simp)
  | _, _, _, .inner hl hm _, .leaf hl' hm' => by
    obtain rfl := Option.some.inj (hl.symm.trans hl')
    exact absurd (hm.symm.trans hm') (by simp)
  | _, _, _, .inner hl hm hall, .inner hl' hm' hall' => by
    obtain rfl := Option.some.inj (hl.symm.trans hl')
    exact VisitsAll.unique hall hall'

theorem VisitsAll.unique : ∀ {is : List Nat} {ms ns : List Mark},
    t.VisitsAll is ms → t.VisitsAll is ns → ms = ns
  | _, _, _, .nil, .nil => rfl
  | _, _, _, .cons hi his, .cons hi' his' => by
    rw [Visits.unique hi hi', VisitsAll.unique his his']

end

theorem VisitsAll.append {is js : List Nat} {ms ns : List Mark} (hi : t.VisitsAll is ms)
    (hj : t.VisitsAll js ns) : t.VisitsAll (is ++ js) (ms ++ ns) := by
  induction is generalizing ms with
  | nil =>
    cases hi
    exact hj
  | cons i is ih =>
    cases hi with
    | cons hv hrest =>
      rw [List.cons_append, List.append_assoc]
      exact .cons hv (ih hrest)

theorem visitsAll_singleton {i : Nat} {ms : List Mark} (h : t.Visits i ms) :
    t.VisitsAll [i] ms := by
  have := VisitsAll.cons h .nil
  rwa [List.append_nil] at this

/-- An entry that is a token is visited at its number. -/
theorem Numbered.visits_leaf (h : t.Numbered) {l : Listed} {m : Mark} (hl : l ∈ t.listing)
    (hm : l.entry.mark? = some m) : t.Visits l.entry.id [m] :=
  .leaf (h.getElem?_listing hl) hm

mutual

/-- **From a node the references lead to its tokens**, in order. -/
theorem Numbered.visits_node (h : t.Numbered) (parent : Nat) : ∀ (n : Node),
    (∀ l ∈ Node.listed parent n, l ∈ t.listing) → t.Visits n.info.id n.marks
  | .action info text act, hs => by
    rw [Node.marks]
    exact h.visits_leaf (hs ⟨some parent, .node (.action info text act)⟩ (by simp [Node.listed])) rfl
  | .raw info text, hs => by
    rw [Node.marks]
    exact h.visits_leaf (hs ⟨some parent, .node (.raw info text)⟩ (by simp [Node.listed])) rfl
  | .block info frame children, hs => by
    rw [Node.listed] at hs
    have hchildren := h.visits_nodes info.id children fun l hl =>
      hs l (List.mem_cons_of_mem _ (List.mem_cons_of_mem _ (List.mem_append_left _ hl)))
    have hstart : t.Visits frame.start.id [frame.start.mark] :=
      h.visits_leaf (hs ⟨some info.id, .edge .opens frame.start⟩ (by simp)) rfl
    have hstop : t.VisitsAll (frame.stop.map Leaf.id).toList (frame.stop.map Leaf.mark).toList := by
      cases hf : frame.stop with
      | none => exact .nil
      | some leaf =>
        refine visitsAll_singleton (h.visits_leaf (l := ⟨some info.id, .edge .closes leaf⟩) ?_ rfl)
        exact hs _ (by simp [hf])
    rw [Node.marks, List.cons_append]
    refine .inner (h.getElem?_listing (hs _ List.mem_cons_self)) rfl ?_
    rw [Entry.refs_block]
    exact .cons hstart (hchildren.append hstop)
  | .chain info branches, hs => by
    rw [Node.listed] at hs
    rw [Node.marks]
    refine .inner (h.getElem?_listing (hs _ List.mem_cons_self)) rfl ?_
    exact h.visits_nodes info.id branches fun l hl => hs l (List.mem_cons_of_mem _ hl)

/-- From siblings the references lead to their tokens, in order. -/
theorem Numbered.visits_nodes (h : t.Numbered) (parent : Nat) : ∀ (ns : List Node),
    (∀ l ∈ Node.listedAll parent ns, l ∈ t.listing) →
      t.VisitsAll (ns.map fun n => n.info.id) (Node.marksAll ns)
  | [], _ => by
    rw [Node.marksAll]
    exact .nil
  | n :: ns, hs => by
    rw [Node.listedAll] at hs
    rw [Node.marksAll]
    exact .cons (h.visits_node parent n fun l hl => hs l (List.mem_append_left _ hl))
      (h.visits_nodes parent ns fun l hl => hs l (List.mem_append_right _ hl))

end

/-- **From the root the references lead to the tokens of the tree**, and to nothing else. -/
theorem Numbered.visits_root (h : t.Numbered) (ms : List Mark) :
    t.Visits 0 ms ↔ ms = Node.marksAll t.children := by
  have hroot : (⟨none, .root t⟩ : Listed) ∈ t.listing :=
    (listing_perm t).mem_iff.mpr List.mem_cons_self
  have hvisits : t.Visits 0 (Node.marksAll t.children) := by
    refine .inner (h.getElem?_listing hroot) rfl (h.visits_nodes 0 t.children ?_)
    exact fun l hl => (listing_perm t).mem_iff.mpr (List.mem_cons_of_mem _ hl)
  constructor
  · intro hms
    exact hms.unique hvisits
  · rintro rfl
    exact hvisits

end Tree

/-! ## The tree of a template -/

variable {source : Text} {tree : Tree}

theorem parse_numbered (h : parse source = .ok tree) : tree.Numbered := by
  obtain ⟨b, hsteps, hlevels, rfl⟩ := parse_eq_ok h
  have hids := Builder.ids_steps hsteps
  rw [Builder.ids, hlevels, List.flatMap_nil, List.nil_append] at hids
  exact ⟨b.next, ((Node.idsAll_reverse b.children).cons 0).trans hids⟩

theorem parse_marks (h : parse source = .ok tree) :
    Node.marksAll tree.children = (scan source).tokens.map Token.mark := by
  obtain ⟨b, hsteps, hlevels, rfl⟩ := parse_eq_ok h
  have hmarks := Builder.marks_steps hsteps
  rwa [Builder.marks, hlevels, Builder.openMarks, List.nil_append] at hmarks

/-- **The listing of a template is a tree that holds every token exactly once.** Line `i` has the
number `i`, and the first line is the root, which has no parent. Every other number is referred to
exactly once, by the entry that its own line names as its parent. Following the references from
the root visits actions and raw regions that are the tokens of the scan, in order: their places,
and of actions the statements, keywords and delimiters. -/
theorem parse_arena (h : parse source = .ok tree) :
    (tree.listing.map fun l => l.entry.id) = List.range tree.listing.length ∧
      tree.listing[0]? = some ⟨none, .root tree⟩ ∧
      (∀ i, (tree.listing.flatMap fun l => l.entry.refs).count i =
        if 0 < i ∧ i < tree.listing.length then 1 else 0) ∧
      (∀ l ∈ tree.listing, ∀ m ∈ tree.listing, m.entry.id ∈ l.entry.refs →
        m.parent = some l.entry.id) ∧
      ∀ marks, tree.Visits 0 marks ↔ marks = (scan source).tokens.map Token.mark := by
  have hnum := parse_numbered h
  refine ⟨hnum.ids_listing, ?_, hnum.count_refs, fun l hl m hm => hnum.parent_eq hl hm, ?_⟩
  · exact hnum.getElem?_listing (l := ⟨none, .root tree⟩)
      ((Tree.listing_perm tree).mem_iff.mpr List.mem_cons_self)
  · intro marks
    rw [hnum.visits_root, parse_marks h]

/-- A chain gets its number after its branches and all that is in them. -/
theorem parse_arena_chain : ∃ tree,
    parse "<p>{{if a}}{{b}}{{else}}x{{end}}</p>".toList = .ok tree ∧
      Node.idsAll tree.children = [7, 1, 2, 3, 4, 5, 6] ∧
      (tree.listing.map fun l => l.entry.id) = List.range tree.listing.length ∧
      (tree.listing.flatMap fun l => l.entry.refs).count 0 = 0 ∧
      tree.Visits 0 ((scan "<p>{{if a}}{{b}}{{else}}x{{end}}</p>".toList).tokens.map
        Token.mark) := by
  have hok : ((parse "<p>{{if a}}{{b}}{{else}}x{{end}}</p>".toList).map
      fun t => Node.idsAll t.children).toOption = some [7, 1, 2, 3, 4, 5, 6] := by decide +kernel
  cases h : parse "<p>{{if a}}{{b}}{{else}}x{{end}}</p>".toList with
  | error e =>
    rw [h] at hok
    exact absurd hok (by simp [Except.map, Except.toOption])
  | ok tree =>
    rw [h] at hok
    obtain ⟨hids, -, hcount, -, hvisits⟩ := parse_arena h
    exact ⟨tree, rfl, Option.some.inj hok, hids, hcount 0, (hvisits _).mpr rfl⟩

end TemplateFormat
