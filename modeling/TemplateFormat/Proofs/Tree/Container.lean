import TemplateFormat.Proofs.Span
import TemplateFormat.Proofs.Placeholder
import TemplateFormat.Proofs.Tree.Placed
import TemplateFormat.Tree.Listing

/-!
# Containers in the source

A `Container` is what a root and a block have in common: children, the literal after the last of
them, and the place of the content in the source. A node or a container `Stands` in a source if
the source has its text at the offset from which it is placed. What stands in a container stands
in the source, so by induction on the tree every container of a template does.

Results:
* `Node.Stands.slice`: the slice of the source at the span of a node is the text of the node.
* `Container.Stands.slice`: the slice at the content of a container is its children and literals.
* `parse_stands`: every container that is listed for a template stands in it.
-/

namespace TemplateFormat

/-- The content of a root or a block. -/
structure Container where
  /-- The nodes in it. -/
  children : List Node
  /-- The literal text after the last of them. -/
  tail : Text
  /-- Where the content stands in the source. -/
  span : Span

namespace Container

/-- The source text of the content. -/
def text (c : Container) : Text := Node.spellAll c.children ++ c.tail

/-- The content with its children replaced by placeholders. -/
def aliased (stem : Text) (c : Container) : Text := Node.aliasAll stem c.children ++ c.tail

/-- The placeholders of the children. -/
def keys (stem : Text) (c : Container) : List Text := c.children.map (Node.placeholder stem)

/-- The content of a template. -/
def ofTree (t : Tree) : Container := ⟨t.children, t.tail, t.span⟩

/-- The content of a block. -/
def ofBlock (info : Info) (frame : Frame) (children : List Node) : Container :=
  ⟨children, frame.tail, Span.ofBounds (frame.bounds info).1 (frame.bounds info).2⟩

theorem aliased_ofTree (t : Tree) : (ofTree t).aliased t.stem = t.aliased := rfl

theorem aliased_ofBlock (stem : Text) (info : Info) (frame : Frame) (children : List Node) :
    (ofBlock info frame children).aliased stem = frame.aliased stem children := rfl

/-- A container with children is not blank: their placeholders are not. -/
theorem children_eq_nil {stem : Text} {c : Container} (h : Text.isBlank (c.aliased stem) = true) :
    c.children = [] := by
  obtain ⟨children, tail, span⟩ := c
  cases children with
  | nil => rfl
  | cons n ns =>
    have hmem : '_' ∈ (⟨n :: ns, tail, span⟩ : Container).aliased stem := by
      simp [aliased, Node.aliasAll, Node.placeholder, Placeholder.token]
    exact absurd (Text.isBlank_iff.mp h '_' hmem) (by decide)

end Container

/-- The content of a root or a block; no other entry has one. -/
def Entry.container? : Entry → Option Container
  | root t => some (.ofTree t)
  | node (.block info frame children) => some (.ofBlock info frame children)
  | _ => none

/-! ## Standing in a source -/

/-- The source has the text of the node where the node is placed. -/
def Node.Stands (source : Text) (n : Node) : Prop :=
  ∃ pre post, source = pre ++ (n.text ++ post) ∧ n.Placed (Text.bytes pre)

/-- The source has the text of the content where its children are placed. -/
def Container.Stands (source : Text) (c : Container) : Prop :=
  ∃ pre post, source = pre ++ (c.text ++ post) ∧ c.span = ⟨Text.bytes pre, Text.bytes c.text⟩ ∧
    Node.PlacedAll (Text.bytes pre) c.children ∧ Node.Siblings c.children

namespace Node

theorem Placed.span_eq {offset : Nat} {n : Node} (h : n.Placed offset) :
    n.info.span = ⟨offset, Text.bytes n.text⟩ := by
  cases n with
  | action info t act =>
    rw [text]
    exact h.1
  | raw info t =>
    rw [text]
    exact h.1
  | block info frame children => exact h.1
  | chain info branches =>
    rw [text]
    exact h.1

variable {source : Text} {n : Node}

/-- **The slice at the span of a node is its text.** -/
theorem Stands.slice (h : n.Stands source) : n.info.span.slice source = n.text := by
  obtain ⟨pre, post, rfl, hp⟩ := h
  rw [hp.span_eq, Span.slice_append]

theorem Stands.isInfix (h : n.Stands source) : n.text <:+: source := by
  obtain ⟨pre, post, rfl, -⟩ := h
  rw [← List.append_assoc]
  exact List.infix_append pre n.text post

/-- Siblings that are placed stand in the source, and so do the literals before them. -/
theorem stands_of_placedAll : ∀ {ns : List Node} (pre post : Text),
    source = pre ++ (spellAll ns ++ post) → PlacedAll (Text.bytes pre) ns →
      ∀ n ∈ ns, n.Stands source ∧ n.info.lead <:+: source
  | m :: ns, pre, post, he, hp, n, hn => by
    rw [spellAll, List.append_assoc, List.append_assoc] at he
    rcases List.mem_cons.mp hn with rfl | hn
    · refine ⟨⟨pre ++ n.info.lead, spellAll ns ++ post, by rw [he, List.append_assoc], ?_⟩, ?_⟩
      · rw [Text.bytes_append]
        exact hp.1
      · rw [he, ← List.append_assoc]
        exact List.infix_append ..
    · refine stands_of_placedAll (pre ++ m.info.lead ++ m.text) post ?_ ?_ n hn
      · rw [he]
        simp only [List.append_assoc]
      · rw [Text.bytes_append, Text.bytes_append]
        exact hp.2

/-- Siblings that are placed follow each other. -/
theorem pairwise_of_placedAll : ∀ {ns : List Node} {offset : Nat}, PlacedAll offset ns →
    (∀ n ∈ ns, offset ≤ n.info.span.index) ∧
      ns.Pairwise fun a b => a.info.span.stop ≤ b.info.span.index
  | [], _, _ => ⟨by simp, .nil⟩
  | m :: ns, offset, h => by
    obtain ⟨hge, hpair⟩ := pairwise_of_placedAll h.2
    have hm := h.1.span_eq
    refine ⟨fun n hn => ?_, List.pairwise_cons.mpr ⟨fun n hn => ?_, hpair⟩⟩
    · rcases List.mem_cons.mp hn with rfl | hn
      · rw [hm]
        exact Nat.le_add_right ..
      · have := hge n hn
        omega
    · rw [hm]
      exact hge n hn

end Node

namespace Container

variable {source : Text} {c : Container}

/-- **The slice at the content of a container is its text.** -/
theorem Stands.slice (h : c.Stands source) : c.span.slice source = c.text := by
  obtain ⟨pre, post, rfl, hspan, -, -⟩ := h
  rw [hspan, Span.slice_append]

theorem Stands.children (h : c.Stands source) :
    ∀ n ∈ c.children, n.Stands source ∧ n.info.lead <:+: source := by
  obtain ⟨pre, post, he, -, hp, -⟩ := h
  rw [text, List.append_assoc] at he
  exact Node.stands_of_placedAll pre _ he hp

theorem Stands.tail (h : c.Stands source) : c.tail <:+: source := by
  obtain ⟨pre, post, he, -, -, -⟩ := h
  rw [he, text, ← List.append_assoc, ← List.append_assoc]
  exact List.infix_append ..

theorem Stands.siblings (h : c.Stands source) : Node.Siblings c.children := by
  obtain ⟨pre, post, -, -, -, hs⟩ := h
  exact hs

/-- The children follow each other in the source. -/
theorem Stands.inOrder (h : c.Stands source) :
    c.children.Pairwise fun a b => a.info.span.stop ≤ b.info.span.index := by
  obtain ⟨pre, post, -, -, hp, -⟩ := h
  exact (Node.pairwise_of_placedAll hp).2

/-- The content of a block that stands in the source stands in it, behind the opening action. -/
theorem stands_ofBlock {info : Info} {frame : Frame} {children : List Node}
    (h : (Node.block info frame children).Stands source) :
    (ofBlock info frame children).Stands source := by
  obtain ⟨pre, post, he, hspan, hstart, hplaced, hsiblings, hstop⟩ := h
  refine ⟨pre ++ frame.start.text, (frame.stop.map Leaf.text).getD [] ++ post, ?_, ?_, ?_,
    hsiblings⟩
  · rw [he, Node.text]
    simp only [text, ofBlock, List.append_assoc]
  · have hbytes := congrArg Span.stop hspan
    rw [Span.stop, Node.text] at hbytes
    simp only [ofBlock, text, Span.ofBounds, Frame.bounds, Span.mk.injEq, hstart.1, Span.stop,
      Text.bytes_append]
    refine ⟨trivial, ?_⟩
    cases hs : frame.stop with
    | none =>
      rw [hs] at hbytes
      simp only [Option.map_none, Option.getD_none, Text.bytes_append, Text.bytes_nil,
        Span.stop] at hbytes ⊢
      omega
    | some l =>
      have hl := (hstop l hs).1
      simp only [Option.map_some, Option.getD_some, hl, Frame.content, Text.bytes_append]
      omega
  · rw [Text.bytes_append]
    exact hplaced

theorem stands_ofTree {tree : Tree} (h : tree.Placed source) : (ofTree tree).Stands source := by
  refine ⟨[], [], ?_, ?_, h.children, h.siblings⟩
  · exact (h.spelled.symm.trans (List.append_nil _).symm)
  · show (⟨0, Text.bytes tree.source⟩ : Span) =
      ⟨0, Text.bytes (Node.spellAll tree.children ++ tree.tail)⟩
    rw [h.spelled, h.source_eq]

end Container

/-! ## Everything listed -/

/-- The entry is below the root, and if it is a node it has the property. -/
def Entry.Below (P : Node → Prop) : Entry → Prop
  | root _ => False
  | node n => P n
  | edge _ _ => True

/-- Below the root the containers are blocks. -/
theorem Entry.Below.container {P : Node → Prop} {e : Entry} (h : e.Below P) {c : Container}
    (hc : e.container? = some c) :
    ∃ info frame children, P (.block info frame children) ∧ c = .ofBlock info frame children := by
  cases e with
  | root t => exact h.elim
  | edge role leaf => exact absurd hc (by simp [container?])
  | node n =>
    cases n with
    | action info t act => exact absurd hc (by simp [container?])
    | raw info t => exact absurd hc (by simp [container?])
    | chain info branches => exact absurd hc (by simp [container?])
    | block info frame children => exact ⟨info, frame, children, h, (Option.some.inj hc).symm⟩

namespace Node

variable {P : Node → Prop}

mutual

/-- **What a node passes on to its children and branches** holds of every node listed in it. -/
theorem listed_induction
    (hblock : ∀ info frame children, P (.block info frame children) → ∀ n ∈ children, P n)
    (hchain : ∀ info branches, P (.chain info branches) → ∀ n ∈ branches, P n) :
    ∀ {n : Node} {parent : Nat}, P n → ∀ l ∈ listed parent n, l.entry.Below P
  | .action info t act, parent, h, l, hl => by
    rw [listed, List.mem_singleton] at hl
    subst hl
    exact h
  | .raw info t, parent, h, l, hl => by
    rw [listed, List.mem_singleton] at hl
    subst hl
    exact h
  | .block info frame children, parent, h, l, hl => by
    rw [listed, List.mem_cons, List.mem_cons, List.mem_append] at hl
    rcases hl with rfl | rfl | hl | hl
    · exact h
    · exact trivial
    · exact listedAll_induction hblock hchain (hblock info frame children h) l hl
    · obtain ⟨leaf, -, rfl⟩ := Option.map_eq_some_iff.mp (Option.mem_toList.mp hl)
      exact trivial
  | .chain info branches, parent, h, l, hl => by
    rw [listed, List.mem_cons] at hl
    rcases hl with rfl | hl
    · exact h
    · exact listedAll_induction hblock hchain (hchain info branches h) l hl

/-- The same for siblings. -/
theorem listedAll_induction
    (hblock : ∀ info frame children, P (.block info frame children) → ∀ n ∈ children, P n)
    (hchain : ∀ info branches, P (.chain info branches) → ∀ n ∈ branches, P n) :
    ∀ {ns : List Node} {parent : Nat}, (∀ n ∈ ns, P n) →
      ∀ l ∈ listedAll parent ns, l.entry.Below P
  | [], parent, _, l, hl => by simp [listedAll] at hl
  | n :: ns, parent, h, l, hl => by
    rw [listedAll, List.mem_append] at hl
    rcases hl with hl | hl
    · exact listed_induction hblock hchain (h n List.mem_cons_self) l hl
    · exact listedAll_induction hblock hchain (fun k hk => h k (List.mem_cons_of_mem n hk)) l hl

end

/-- The branches of a chain that stands in the source stand in it. -/
theorem Stands.branches {source : Text} {info : Info} {branches : List Node}
    (h : (chain info branches).Stands source) : ∀ n ∈ branches, n.Stands source := by
  obtain ⟨pre, post, he, -, hplaced, -⟩ := h
  rw [text] at he
  exact fun n hn => (stands_of_placedAll pre post he hplaced n hn).1

end Node

/-- **What holds of the top nodes of a tree and is passed on** holds of every node listed for it. -/
theorem Tree.listing_induction {t : Tree} {P : Node → Prop}
    (hblock : ∀ info frame children, P (.block info frame children) → ∀ n ∈ children, P n)
    (hchain : ∀ info branches, P (.chain info branches) → ∀ n ∈ branches, P n)
    (htop : ∀ n ∈ t.children, P n) {l : Listed} (hl : l ∈ t.listing) :
    l.entry = .root t ∨ l.entry.Below P := by
  rw [listing, List.mem_mergeSort, List.mem_cons] at hl
  rcases hl with rfl | hl
  · exact .inl rfl
  · exact .inr (Node.listedAll_induction hblock hchain htop l hl)

/-- **Every container that is listed for a template stands in it.** -/
theorem parse_stands {source : Text} {tree : Tree} (h : parse source = .ok tree) {l : Listed}
    (hl : l ∈ tree.listing) {c : Container} (hc : l.entry.container? = some c) :
    c.Stands source := by
  have hroot := Container.stands_ofTree (parse_placed h)
  have hlisted := Tree.listing_induction (P := Node.Stands source)
    (fun info frame children hs n hn => ((Container.stands_ofBlock hs).children n hn).1)
    (fun info branches hs => hs.branches) (fun n hn => (hroot.children n hn).1) hl
  rcases hlisted with he | he
  · rw [he] at hc
    exact Option.some.inj hc ▸ hroot
  · obtain ⟨info, frame, children, hs, rfl⟩ := he.container hc
    exact Container.stands_ofBlock hs

end TemplateFormat
