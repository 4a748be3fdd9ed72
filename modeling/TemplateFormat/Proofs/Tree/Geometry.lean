import TemplateFormat.Proofs.Text.Bytes
import TemplateFormat.Proofs.Tree.Edges
import TemplateFormat.Proofs.Tree.Elses

/-!
# The spans of a tree

Where the nodes of a template stand (`Node.Placed`) and how its blocks are opened and closed
(`Node.Formed`) together give the geometry of the tree: siblings follow each other inside the
content of their container, a block goes from its opening to its closing action, and the branches
of a chain follow each other without a gap.

The `else` actions of a chain are counted in the tokens of the source and not in the tree: among
the tokens that stand in the span of the chain, they are those at its level (`elsesAt`).

Results:
* `Container.Stands.ordered`: the children of a container.
* `Node.Stands.spans`: the place of a block.
* `Node.Stands.joins`: the branches of a chain.
* `filter_chain`: the tokens in the span of a chain are the tokens of the chain.
* `parse_geometry`: all this for every entry that is listed for a template.
-/

namespace TemplateFormat

/-! ## Children -/

/-- The children stand in strictly increasing order, disjoint, and inside the content. -/
structure Container.Ordered (c : Container) : Prop where
  ascending : c.children.Pairwise fun a b =>
    a.info.span.index < b.info.span.index ∧ a.info.span.stop ≤ b.info.span.index
  inside : ∀ n ∈ c.children, c.span.contains n.info.span = true

namespace Node

theorem placedAll_append {offset : Nat} : ∀ {ms ns : List Node}, PlacedAll offset (ms ++ ns) →
    PlacedAll (offset + Text.bytes (spellAll ms)) ns
  | [], ns, h => by
    rw [spellAll]
    exact h
  | m :: ms, ns, h => by
    have hrest := placedAll_append h.2
    rw [spellAll, Text.bytes_append, Text.bytes_append, ← Nat.add_assoc, ← Nat.add_assoc]
    exact hrest

/-- Siblings that are placed end before the text of all of them does. -/
theorem stop_le_of_placedAll {offset : Nat} : ∀ {ns : List Node}, PlacedAll offset ns →
    ∀ n ∈ ns, n.info.span.stop ≤ offset + Text.bytes (spellAll ns)
  | m :: ns, h, n, hn => by
    rw [spellAll, Text.bytes_append, Text.bytes_append]
    rcases List.mem_cons.mp hn with rfl | hn
    · rw [h.1.span_eq]
      show offset + Text.bytes n.info.lead + Text.bytes n.text ≤ _
      omega
    · have := stop_le_of_placedAll h.2 n hn
      omega

theorem length_span_pos {offset : Nat} {n : Node} (h : n.Placed offset) (hc : n.Closed) :
    0 < n.info.span.length := by
  rw [h.span_eq]
  refine Text.bytes_pos fun hnil => (framed h hc).ne_nil ?_
  rw [hnil]
  rfl

end Node

/-- **The children of a container that stands in the source are in order.** -/
theorem Container.Stands.ordered {source : Text} {c : Container} (h : c.Stands source) :
    c.Ordered := by
  have hinOrder := h.inOrder
  obtain ⟨pre, post, -, hspan, hplaced, hsiblings⟩ := h
  constructor
  · refine hinOrder.imp_of_mem fun {a b} ha _ hab => ⟨?_, hab⟩
    obtain ⟨o, ho⟩ := Node.exists_placed_of_mem hplaced a ha
    have hpos := Node.length_span_pos ho (hsiblings.closed a ha)
    rw [Span.stop] at hab
    omega
  · intro n hn
    have hindex := (Node.pairwise_of_placedAll hplaced).1 n hn
    have hstop := Node.stop_le_of_placedAll hplaced n hn
    rw [hspan, Span.contains, Bool.and_eq_true, decide_eq_true_eq, decide_eq_true_eq]
    refine ⟨hindex, ?_⟩
    show _ ≤ Text.bytes pre + Text.bytes (text c)
    rw [text, Text.bytes_append]
    omega

/-! ## Blocks -/

/-- A block starts with its opening action, and its content behind it. The content ends where the
closing action starts, and the block where that ends. -/
structure Frame.Spans (info : Info) (frame : Frame) : Prop where
  index : info.span.index = frame.start.span.index
  content : (frame.bounds info).1 = frame.start.span.stop
  ascending : (frame.bounds info).1 ≤ (frame.bounds info).2
  stop : ∀ l, frame.stop = some l →
    (frame.bounds info).2 = l.span.index ∧ info.span.stop = l.span.stop

/-- **A block that stands in the source goes from its opening to its closing action.** -/
theorem Node.Stands.spans {source : Text} {info : Info} {frame : Frame} {children : List Node}
    (h : (Node.block info frame children).Stands source) : frame.Spans info := by
  obtain ⟨pre, post, -, hspan, hstart, -, -, hstop⟩ := h
  have hbytes := congrArg Span.stop hspan
  rw [Span.stop, Span.stop, Node.text] at hbytes
  simp only [Text.bytes_append] at hbytes
  constructor
  · rw [hspan, hstart.1]
  · rfl
  · rw [Frame.bounds, hstart.1]
    cases hs : frame.stop with
    | none =>
      rw [hs, Option.map_none, Option.getD_none, Text.bytes_nil] at hbytes
      simp only [Option.map_none, Option.getD_none, Span.stop]
      omega
    | some l =>
      simp only [Option.map_some, Option.getD_some, (hstop l hs).1, Span.stop]
      omega
  · intro l hs
    rw [Frame.bounds, hs]
    refine ⟨rfl, ?_⟩
    rw [hs] at hbytes
    simp only [Option.map_some, Option.getD_some] at hbytes
    rw [Span.stop, Span.stop, (hstop l hs).1]
    simp only [Frame.content, Text.bytes_append]
    omega

/-! ## Chains -/

/-- The branches of a chain are blocks, two or more, that follow each other without a gap from the
start to the end of the chain. All but the first begin with `else`, and only the last has a closing
action: the others end, and their content ends, where the next one's `else` starts. -/
structure Chain.Joins (info : Info) (branches : List Node) : Prop where
  two_le : 2 ≤ branches.length
  first : ∀ b, branches.head? = some b → b.info.span.index = info.span.index
  last : ∀ b, branches.getLast? = some b → b.info.span.stop = info.span.stop
  branch : ∀ i b, branches[i]? = some b → ∃ info frame children,
    b = .block info frame children ∧ frame.branch = true ∧ (frame.keyword = .elseKw ↔ 0 < i) ∧
      (frame.stop = none ↔ i + 1 < branches.length)
  next : ∀ i info frame children info' frame' children',
    branches[i]? = some (.block info frame children) →
      branches[i + 1]? = some (.block info' frame' children') →
        info.span.stop = info'.span.index ∧ info.span.stop = frame'.start.span.index ∧
          (frame.bounds info).2 = frame'.start.span.index

namespace Node

/-- A branch by its position. -/
theorem IsChain.branch {branches : List Node} (h : IsChain branches) {i : Nat} {b : Node}
    (hb : branches[i]? = some b) :
    b.IsBranch (decide (i = 0)) (decide (i + 1 = branches.length)) := by
  obtain ⟨first, mid, last, rfl, hfirst, hmid, hlast⟩ := h
  cases i with
  | zero =>
    obtain rfl : first = b := by simpa using hb
    simpa using hfirst
  | succ j =>
    rw [List.getElem?_cons_succ] at hb
    rcases Nat.lt_trichotomy j mid.length with hj | rfl | hj
    · rw [List.getElem?_append_left hj] at hb
      have := hmid b (List.mem_of_getElem? hb)
      simpa [hj.ne] using this
    · obtain rfl : last = b := by simpa using hb
      simpa using hlast
    · rw [List.getElem?_eq_none (by simpa using Nat.succ_le_of_lt hj)] at hb
      exact absurd hb (by simp)

theorem IsBranch.eq_block {first last : Bool} {n : Node} (h : n.IsBranch first last) :
    ∃ info frame children, n = .block info frame children ∧ frame.branch = true ∧
      (frame.keyword = .elseKw ↔ first = false) ∧ (frame.stop = none ↔ last = false) := by
  cases n with
  | action info t act => exact absurd h (by simp [IsBranch])
  | raw info t => exact absurd h (by simp [IsBranch])
  | chain info branches => exact absurd h (by simp [IsBranch])
  | block info frame children =>
    obtain ⟨hbranch, hkeyword, rfl⟩ := h
    refine ⟨info, frame, children, rfl, hbranch, ?_, by cases frame.stop <;> simp⟩
    cases first with
    | false => simpa using hkeyword
    | true =>
      rw [if_pos rfl] at hkeyword
      constructor
      · intro he
        rw [he] at hkeyword
        exact absurd hkeyword (by decide)
      · intro hf
        exact absurd hf (by simp)

/-- Siblings without a literal between them follow each other without a gap. -/
theorem stop_eq_index_of_placedAll {a b : Node} : ∀ {ns : List Node} {offset i : Nat},
    PlacedAll offset ns → ns[i]? = some a → ns[i + 1]? = some b → b.info.lead = [] →
      a.info.span.stop = b.info.span.index
  | m :: n :: ns, offset, 0, hp, ha, hb, hlead => by
    obtain rfl : m = a := by simpa using ha
    obtain rfl : n = b := by simpa using hb
    rw [hp.1.span_eq, hp.2.1.span_eq, hlead]
    rfl
  | m :: ns, offset, i + 1, hp, ha, hb, hlead =>
    stop_eq_index_of_placedAll (i := i) hp.2 (by simpa using ha) (by simpa using hb) hlead
  | [m], offset, 0, hp, ha, hb, hlead => absurd hb (by simp)
  | [], offset, i, hp, ha, hb, hlead => absurd ha (by simp)

theorem IsChain.two_le {branches : List Node} (h : IsChain branches) : 2 ≤ branches.length := by
  obtain ⟨first, mid, last, rfl, -, -, -⟩ := h
  simp

/-- **The branches of a chain that stands in the source join.** -/
theorem Stands.joins {source : Text} {info : Info} {branches : List Node}
    (h : (Node.chain info branches).Stands source) (hf : (Node.chain info branches).Formed) :
    Chain.Joins info branches := by
  obtain ⟨hchain, -⟩ := hf
  obtain ⟨pre, post, -, hspan, hplaced, hbranches⟩ := h
  have hlead : ∀ b ∈ branches, b.info.lead = [] := fun b hb => (hbranches.joined b hb).lead_eq
  refine ⟨hchain.two_le, fun b hb => ?_, fun b hb => ?_, fun i b hb => ?_, ?_⟩
  · obtain ⟨rest, rfl⟩ := List.head?_eq_some_iff.mp hb
    rw [hspan, hplaced.1.span_eq, hlead b List.mem_cons_self]
    rfl
  · obtain ⟨init, rfl⟩ := List.getLast?_eq_some_iff.mp hb
    have hlast := (placedAll_append hplaced).1.span_eq
    rw [hspan, hlast, spellAll_append, spellAll_singleton, hlead b (by simp)]
    simp only [Span.stop, Text.bytes_append, Text.bytes_nil, List.nil_append]
    omega
  · obtain ⟨binfo, frame, children, hblock, hbranch, hkeyword, hstop⟩ := (hchain.branch hb).eq_block
    have hlt := (List.getElem?_eq_some_iff.mp hb).1
    refine ⟨binfo, frame, children, hblock, hbranch, hkeyword.trans ?_, hstop.trans ?_⟩
    · rw [decide_eq_false_iff_not]
      omega
    · rw [decide_eq_false_iff_not]
      omega
  · intro i info frame children info' frame' children' ha hb
    have hjoin : info.span.stop = info'.span.index := stop_eq_index_of_placedAll hplaced ha hb
      (hlead _ (List.mem_of_getElem? hb))
    obtain ⟨o, ho⟩ := exists_placed_of_mem hplaced _ (List.mem_of_getElem? hb)
    have hstart : info'.span.index = frame'.start.span.index := by rw [ho.1, ho.2.1.1]
    obtain ⟨_, _, _, hblock, -, -, hstop⟩ := (hchain.branch ha).eq_block
    obtain ⟨rfl, rfl, rfl⟩ := Node.block.inj hblock
    have hnone : frame.stop = none := by
      rw [hstop, decide_eq_false_iff_not]
      have := (List.getElem?_eq_some_iff.mp hb).1
      omega
    refine ⟨hjoin, hjoin.trans hstart, ?_⟩
    rw [Frame.bounds, hnone]
    exact hjoin.trans hstart

end Node

/-! ## The tokens in a span -/

theorem Token.Kind.Fits.ne_nil {text : Text} {kind : Token.Kind} (h : kind.Fits text) :
    text ≠ [] := by
  rintro rfl
  cases kind with
  | action act => exact (framed_isAction h).ne_nil rfl
  | raw => exact (framed_isRaw h).ne_nil rfl

/-- Tokens that are placed have a text each, and follow each other. -/
theorem Token.pairwise_of_placedAll : ∀ {ts : List Token} {offset : Nat}, PlacedAll offset ts →
    (∀ t ∈ ts, offset ≤ t.span.index ∧ t.span.index < t.span.stop) ∧
      ts.Pairwise fun a b => a.span.stop ≤ b.span.index
  | [], _, _ => ⟨by simp, .nil⟩
  | t :: ts, offset, ⟨hspan, hfits, hrest⟩ => by
    obtain ⟨hall, hpair⟩ := pairwise_of_placedAll hrest
    have hpos := Text.bytes_pos hfits.ne_nil
    have hindex : t.span.index = offset + Text.bytes t.lead := by rw [hspan]
    have hstop : t.span.stop = offset + Text.bytes t.lead + Text.bytes t.text := by
      rw [hspan]
      rfl
    refine ⟨List.forall_mem_cons.mpr ⟨by omega, fun u hu => ?_⟩,
      List.pairwise_cons.mpr ⟨fun u hu => ?_, hpair⟩⟩
    · have := hall u hu
      omega
    · rw [hstop]
      exact (hall u hu).1

/-- Between the start of one token and the end of another stand these two and what is between
them. -/
theorem filter_contains {pre mid post : List Token} {first last : Token} {span : Span}
    (hlt : ∀ t ∈ pre ++ (mid ++ post), t.span.index < t.span.stop)
    (hpair : (pre ++ (mid ++ post)).Pairwise fun a b => a.span.stop ≤ b.span.index)
    (hfirst : mid.head? = some first) (hindex : first.span.index = span.index)
    (hlast : mid.getLast? = some last) (hstop : last.span.stop = span.stop) :
    (pre ++ (mid ++ post)).filter (fun t => span.contains t.span) = mid := by
  have hfirstMem : first ∈ mid := List.mem_of_mem_head? hfirst
  have hlastMem : last ∈ mid := List.mem_of_mem_getLast? hlast
  simp only [List.forall_mem_append] at hlt
  rw [List.pairwise_append, List.pairwise_append] at hpair
  obtain ⟨-, ⟨hmid, -, hpost⟩, hpre⟩ := hpair
  rw [List.filter_append, List.filter_append]
  have hbefore : pre.filter (fun t => span.contains t.span) = [] := by
    refine List.filter_eq_nil_iff.mpr fun t ht hcontains => ?_
    have hle := hpre t ht first (List.mem_append_left _ hfirstMem)
    have := hlt.1 t ht
    simp only [Span.contains, Bool.and_eq_true, decide_eq_true_eq] at hcontains
    omega
  have hafter : post.filter (fun t => span.contains t.span) = [] := by
    refine List.filter_eq_nil_iff.mpr fun t ht hcontains => ?_
    have hle := hpost last hlastMem t ht
    have := hlt.2.2 t ht
    simp only [Span.contains, Bool.and_eq_true, decide_eq_true_eq] at hcontains
    omega
  have hinside : mid.filter (fun t => span.contains t.span) = mid := by
    refine List.filter_eq_self.mpr fun t ht => ?_
    simp only [Span.contains, Bool.and_eq_true, decide_eq_true_eq]
    constructor
    · obtain ⟨rest, rfl⟩ := List.head?_eq_some_iff.mp hfirst
      rcases List.mem_cons.mp ht with rfl | ht
      · exact hindex.ge
      · have hle := (List.pairwise_cons.mp hmid).1 t ht
        have := hlt.2.1 first hfirstMem
        omega
    · obtain ⟨init, rfl⟩ := List.getLast?_eq_some_iff.mp hlast
      rcases List.mem_append.mp ht with ht | ht
      · have hle := (List.pairwise_append.mp hmid).2.2 t ht last (List.mem_singleton_self last)
        have := hlt.2.1 last hlastMem
        omega
      · rw [List.mem_singleton.mp ht]
        exact hstop.le
  rw [hbefore, hafter, hinside, List.nil_append, List.append_nil]

namespace Node

/-- The first token of a chain starts where the chain does, and the last one ends where it does. -/
theorem Stands.ends {source : Text} {info : Info} {branches : List Node}
    (h : (Node.chain info branches).Stands source) (hf : (Node.chain info branches).Formed) :
    (∃ m, (Node.chain info branches).marks.head? = some m ∧ m.span.index = info.span.index) ∧
      ∃ m, (Node.chain info branches).marks.getLast? = some m ∧ m.span.stop = info.span.stop := by
  have hjoins := h.joins hf
  have hstands := h.branches
  obtain ⟨first, mid, last, rfl, hfirst, -, hlast⟩ := hf.1
  rw [marks]
  constructor
  · obtain ⟨finfo, frame, children, rfl, -, -, -⟩ := hfirst.eq_block
    refine ⟨frame.start.mark, by simp [marksAll, marks], ?_⟩
    rw [← hjoins.first _ List.head?_cons]
    exact (hstands _ List.mem_cons_self).spans.index.symm
  · obtain ⟨linfo, frame, children, rfl, -, -, hstop⟩ := hlast.eq_block
    obtain ⟨l, hl⟩ : ∃ l, frame.stop = some l := by
      rw [← Option.ne_none_iff_exists']
      exact fun hnone => absurd (hstop.mp hnone) (by simp)
    refine ⟨l.mark, ?_, ?_⟩
    · rw [← List.cons_append, marksAll_append, marksAll_singleton, marks, hl, Option.map_some,
        Option.toList_some, ← List.append_assoc, List.getLast?_concat]
    · rw [← hjoins.last (.block linfo frame children) (by simp [List.getLast?_cons])]
      have hlast := hstands (.block linfo frame children) (by simp)
      exact (hlast.spans.stop l hl).2.symm

theorem marks_infix_marksAll {n : Node} : ∀ {ns : List Node}, n ∈ ns → n.marks <:+: marksAll ns
  | m :: ns, hn => by
    rw [marksAll]
    rcases List.mem_cons.mp hn with rfl | hn
    · exact List.prefix_append .. |>.isInfix
    · exact (marks_infix_marksAll hn).trans (List.suffix_append ..).isInfix

end Node

/-! ## Everything listed -/

variable {source : Text} {tree : Tree}

/-- What is known of every node of a template: it stands in the source, it is formed, and its tokens
are next to each other. -/
structure Node.Known (source : Text) (tree : Tree) (n : Node) : Prop where
  stands : n.Stands source
  formed : n.Formed
  marks : n.marks <:+: Node.marksAll tree.children

theorem parse_known (h : parse source = .ok tree) {l : Listed} (hl : l ∈ tree.listing) :
    l.entry = .root tree ∨ l.entry.Below (Node.Known source tree) := by
  have hroot := Container.stands_ofTree (parse_placed h)
  have hformed := parse_formed h
  refine Tree.listing_induction ?_ ?_ (fun n hn => ?_) hl
  · rintro info frame children ⟨hs, ⟨-, -, hf⟩, hm⟩ n hn
    refine ⟨((Container.stands_ofBlock hs).children n hn).1, Node.formedAll_iff.mp hf n hn, ?_⟩
    rw [Node.marks, List.cons_append] at hm
    refine List.IsInfix.trans ?_ hm
    exact ((Node.marks_infix_marksAll hn).trans (List.prefix_append ..).isInfix).trans
      (List.suffix_cons ..).isInfix
  · rintro info branches ⟨hs, ⟨-, hf⟩, hm⟩ n hn
    rw [Node.marks] at hm
    exact ⟨hs.branches n hn, Node.formedAll_iff.mp hf n hn,
      (Node.marks_infix_marksAll hn).trans hm⟩
  · exact ⟨(hroot.children n hn).1, hformed.formed n hn, Node.marks_infix_marksAll hn⟩

theorem parse_known_node (h : parse source = .ok tree) {l : Listed} (hl : l ∈ tree.listing)
    {n : Node} (hn : l.entry = .node n) : n.Known source tree := by
  rcases parse_known h hl with he | he
  · exact absurd (he.symm.trans hn) (by simp)
  · rw [hn] at he
    exact he

/-- Only in a chain is there a block without one of its actions. -/
theorem parse_whole (h : parse source = .ok tree) {l : Listed} (hl : l ∈ tree.listing)
    {c : Container} (hc : l.entry.container? = some c) : ∀ n ∈ c.children, n.Whole := by
  rcases parse_known h hl with he | he
  · rw [he] at hc
    obtain rfl := Option.some.inj hc
    exact (parse_formed h).whole
  · obtain ⟨info, frame, children, hknown, rfl⟩ := he.container hc
    exact hknown.formed.2.1

/-- **The tokens in the span of a chain are its tokens.** -/
theorem filter_chain (h : parse source = .ok tree) {info : Info} {branches : List Node}
    (hk : (Node.chain info branches).Known source tree) :
    ((scan source).tokens.filter fun t => info.span.contains t.span).map Token.mark =
      (Node.chain info branches).marks := by
  obtain ⟨hall, hpair⟩ := Token.pairwise_of_placedAll (placed_scan source)
  obtain ⟨⟨m, hfirst, hindex⟩, m', hlast, hstop⟩ := hk.stands.ends hk.formed
  obtain ⟨pre, post, hmarks⟩ := hk.marks
  rw [parse_marks h, List.append_assoc] at hmarks
  obtain ⟨tpre, trest, htokens, -, hrest⟩ := List.map_eq_append_iff.mp hmarks.symm
  obtain ⟨tmid, tpost, rfl, hmid, -⟩ := List.map_eq_append_iff.mp hrest
  rw [← hmid, List.head?_map, Option.map_eq_some_iff] at hfirst
  rw [← hmid, List.getLast?_map, Option.map_eq_some_iff] at hlast
  obtain ⟨first, hfirst, rfl⟩ := hfirst
  obtain ⟨last, hlast, rfl⟩ := hlast
  rw [Token.span_mark] at hindex hstop
  rw [htokens] at hall hpair ⊢
  rw [filter_contains (fun t ht => (hall t ht).2) hpair hfirst hindex hlast hstop, hmid]

/-- **The geometry of a template.** The children of the root and of every block stand in strictly
increasing order, disjoint, and inside the content; a block among them has both its actions. A
block goes from its opening action to its closing action, with the content between the two. The
branches of a chain join, and there is one more of them than there are `else` actions at the level
of the chain among the tokens that stand in its span. -/
theorem parse_geometry (h : parse source = .ok tree) :
    (∀ l ∈ tree.listing, ∀ c ∈ l.entry.container?, c.Ordered ∧ ∀ n ∈ c.children, n.Whole) ∧
      (∀ l ∈ tree.listing, ∀ info frame children,
        l.entry = .node (.block info frame children) → frame.Spans info) ∧
      ∀ l ∈ tree.listing, ∀ info branches, l.entry = .node (.chain info branches) →
        Chain.Joins info branches ∧
          elsesAt 0 (((scan source).tokens.filter fun t => info.span.contains t.span).map
            Token.keyword?) + 1 = branches.length := by
  refine ⟨fun l hl c hc => ⟨(parse_stands h hl hc).ordered, parse_whole h hl hc⟩, ?_, ?_⟩
  · intro l hl info frame children he
    exact (parse_known_node h hl he).stands.spans
  · intro l hl info branches he
    have hk := parse_known_node h hl he
    have hcomp : Mark.keyword? ∘ Token.mark = Token.keyword? := funext Token.keyword?_mark
    have hkeywords := congrArg (List.map Mark.keyword?) (filter_chain h hk)
    rw [List.map_map, hcomp] at hkeywords
    rw [hkeywords]
    exact ⟨hk.stands.joins hk.formed, Node.elsesAt_chain hk.formed⟩

/-- A chain of three branches with a chain of two in its first branch: each counts its own `else`
actions only. -/
theorem parse_geometry_nested : ∃ tree,
    parse "{{if a}}{{if b}}x{{else}}y{{end}}{{else}}{{c}}{{else}}z{{end}}".toList = .ok tree ∧
      ((Node.listedAll 0 tree.children).filterMap fun l => match l.entry with
        | .node (.chain info branches) => some (info.span, branches.length)
        | _ => none) = [(⟨0, 62⟩, 3), (⟨8, 25⟩, 2)] ∧
      (∀ l ∈ tree.listing, ∀ c ∈ l.entry.container?, c.Ordered) ∧
      ∀ l ∈ tree.listing, ∀ info branches, l.entry = .node (.chain info branches) →
        Chain.Joins info branches := by
  have hok : ((parse "{{if a}}{{if b}}x{{else}}y{{end}}{{else}}{{c}}{{else}}z{{end}}".toList).map
      fun t => (Node.listedAll 0 t.children).filterMap fun l => match l.entry with
        | .node (.chain info branches) => some (info.span, branches.length)
        | _ => none).toOption = some [(⟨0, 62⟩, 3), (⟨8, 25⟩, 2)] := by decide +kernel
  cases h : parse "{{if a}}{{if b}}x{{else}}y{{end}}{{else}}{{c}}{{else}}z{{end}}".toList with
  | error e =>
    rw [h] at hok
    exact absurd hok (by simp [Except.map, Except.toOption])
  | ok tree =>
    rw [h] at hok
    obtain ⟨hcontainers, -, hchains⟩ := parse_geometry h
    exact ⟨tree, rfl, Option.some.inj hok, fun l hl c hc => (hcontainers l hl c hc).1,
      fun l hl info branches he => (hchains l hl info branches he).1⟩

end TemplateFormat
