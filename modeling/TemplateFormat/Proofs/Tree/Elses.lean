import TemplateFormat.Proofs.Tree.Balance
import TemplateFormat.Proofs.Tree.Formed
import TemplateFormat.Proofs.Tree.Numbers

/-!
# The `else` actions of a chain

The `else` actions that divide a chain are told from those nested in its branches by counting
alone: they are read where one block of the chain is open, the nested ones where two are open or
more. `elsesAt depth ks` counts the former in a list of keywords before which `depth` blocks are
open.

Results:
* `Node.counted_of_formed`: whatever stands in a block leaves the depth as it finds it and adds no
  `else` to the count.
* `Node.elsesAt_chain`: a chain has one branch more than it has `else` actions.
-/

namespace TemplateFormat

/-! ## Counting -/

/-- By how much a token with this keyword changes the depth. -/
def rise (k : Option Keyword) : Int := (k.map Keyword.shift).getD 0

/-- The number of `else` actions that are read where one block is open, if `depth` blocks are open
before the first of the keywords. -/
def elsesAt (depth : Int) : List (Option Keyword) → Nat
  | [] => 0
  | k :: ks => (if k = some .elseKw ∧ depth = 1 then 1 else 0) + elsesAt (depth + rise k) ks

theorem elsesAt_append (depth : Int) (ks ls : List (Option Keyword)) :
    elsesAt depth (ks ++ ls) = elsesAt depth ks + elsesAt (depth + (ks.map rise).sum) ls := by
  induction ks generalizing depth with
  | nil => simp [elsesAt]
  | cons k ks ih =>
    rw [List.cons_append, elsesAt, elsesAt, ih, List.map_cons, List.sum_cons]
    rw [Nat.add_assoc, Int.add_assoc]

/-- The keywords open and close the same number of blocks, and add nothing to the count inside a
block. -/
structure Quiet (ks : List (Option Keyword)) : Prop where
  rise : (ks.map rise).sum = 0
  elses : ∀ depth : Int, 0 < depth → elsesAt depth ks = 0

theorem quiet_nil : Quiet [] := ⟨rfl, fun _ _ => rfl⟩

/-- A token without a keyword is quiet. -/
theorem quiet_none : Quiet [none] := ⟨rfl, fun _ _ => rfl⟩

theorem Quiet.append {ks ls : List (Option Keyword)} (hk : Quiet ks) (hl : Quiet ls) :
    Quiet (ks ++ ls) := by
  refine ⟨?_, fun depth hd => ?_⟩
  · rw [List.map_append, List.sum_append, hk.rise, hl.rise, Int.add_zero]
  · rw [elsesAt_append, hk.rise, Int.add_zero, hk.elses depth hd, hl.elses depth hd]

/-! ## Nodes -/

/-- The keyword of an action; a raw region has none. -/
def Mark.keyword? : Mark → Option Keyword
  | .action _ act => act.keyword
  | .raw _ => none

/-- Where the token stands. -/
def Mark.span : Mark → Span
  | .action span _ => span
  | .raw span => span

theorem Token.keyword?_mark (t : Token) : t.mark.keyword? = t.keyword? := by
  unfold Token.mark Token.keyword?
  cases t.kind <;> rfl

theorem Token.span_mark (t : Token) : t.mark.span = t.span := by
  unfold Token.mark
  cases t.kind <;> rfl

namespace Node

/-- The keywords of the tokens of a node. -/
def keywords (n : Node) : List (Option Keyword) := n.marks.map Mark.keyword?

/-- The keywords of the tokens of siblings. -/
def keywordsAll (ns : List Node) : List (Option Keyword) := (marksAll ns).map Mark.keyword?

theorem keywordsAll_cons (n : Node) (ns : List Node) :
    keywordsAll (n :: ns) = n.keywords ++ keywordsAll ns := by
  rw [keywordsAll, marksAll, List.map_append]
  rfl

theorem keywords_block (info : Info) (frame : Frame) (children : List Node) :
    (block info frame children).keywords = frame.start.action.keyword ::
      (keywordsAll children ++ (frame.stop.map fun l => l.action.keyword).toList) := by
  rw [keywords, marks, List.cons_append, List.map_cons, List.map_append]
  cases frame.stop <;> rfl

/-- **The keywords of a block** whose children are quiet: its opening action decides what is
counted, and the block raises the depth unless both ends are its own. -/
theorem count_block (info : Info) {frame : Frame} {children : List Node} (hf : frame.Formed)
    (hq : Quiet (keywordsAll children)) (depth : Int) (hd : 0 < depth + frame.keyword.shift) :
    ((block info frame children).keywords.map rise).sum =
        frame.keyword.shift - (if frame.stop.isSome then 1 else 0) ∧
      elsesAt depth (block info frame children).keywords =
        if frame.keyword = .elseKw ∧ depth = 1 then 1 else 0 := by
  have hstart : rise (some frame.keyword) = frame.keyword.shift := rfl
  rw [keywords_block, hf.start, List.map_cons, List.map_append, List.sum_cons, List.sum_append,
    elsesAt, elsesAt_append, hq.rise, hstart, hq.elses _ hd]
  cases hs : frame.stop with
  | none => simp [elsesAt]
  | some l =>
    obtain ⟨k, hk, hcloser⟩ := hf.stop l hs
    have hne : k ≠ .elseKw := by
      rintro rfl
      exact absurd hcloser (by decide)
    have hclose : rise (some k) = -1 := Keyword.shift_of_isCloser hcloser
    simp [elsesAt, hk, hne, hclose, Int.sub_eq_add_neg]

/-- What stands in a block is quiet, and so is a node that is no block. -/
def Counted : Node → Prop
  | .block _ _ children => Quiet (keywordsAll children)
  | n => Quiet n.keywords

theorem quiet_of_whole {n : Node} (hf : n.Formed) (hw : n.Whole) (hc : n.Counted) :
    Quiet n.keywords := by
  cases n with
  | action info t act => exact hc
  | raw info t => exact hc
  | chain info branches => exact hc
  | block info frame children =>
    obtain ⟨hopener, hstop, -⟩ := hw
    have hshift := Keyword.shift_of_isOpener hopener
    have hcount := count_block info hf.1 hc
    refine ⟨?_, fun depth hd => ?_⟩
    · rw [(hcount 1 (by omega)).1, hshift, if_pos hstop]
      rfl
    · rw [(hcount depth (by omega)).2, if_neg]
      rintro ⟨he, -⟩
      rw [he] at hopener
      exact absurd hopener (by decide)

theorem quiet_of_wholeAll {ns : List Node} (h : ∀ n ∈ ns, Quiet n.keywords) :
    Quiet (keywordsAll ns) := by
  induction ns with
  | nil => exact quiet_nil
  | cons n ns ih =>
    rw [keywordsAll_cons]
    exact (h n List.mem_cons_self).append (ih fun m hm => h m (List.mem_cons_of_mem n hm))

/-! ## Chains -/

/-- **A branch**, with `depth` blocks open outside its chain: the first opens the chain's block, the
last closes it, and all but the first begin with an `else` inside it. -/
theorem count_branch {first last : Bool} {n : Node} (hb : n.IsBranch first last) (hf : n.Formed)
    (hc : n.Counted) {depth : Int} (hd : 0 ≤ depth) :
    (n.keywords.map rise).sum = (if first then 1 else 0) - (if last then 1 else 0) ∧
      elsesAt (depth + if first then 0 else 1) n.keywords =
        if first = false ∧ depth = 0 then 1 else 0 := by
  cases n with
  | action info t act => exact hb.elim
  | raw info t => exact hb.elim
  | chain info branches => exact hb.elim
  | block info frame children =>
    obtain ⟨-, hkeyword, rfl⟩ := hb
    have hcount := count_block info hf.1 hc
    cases first with
    | false =>
      have hkeyword : frame.keyword = .elseKw := by simpa using hkeyword
      have hdepth : depth + 1 = 1 ↔ depth = 0 := by omega
      rw [hkeyword] at hcount
      have hlt : 0 < depth + 1 + Keyword.elseKw.shift := by
        show 0 < depth + 1 + 0
        omega
      simpa [hdepth, Keyword.shift] using hcount (depth + 1) hlt
    | true =>
      have hopener : frame.keyword.isOpener = true := by simpa using hkeyword
      have hshift := Keyword.shift_of_isOpener hopener
      have hne : frame.keyword ≠ .elseKw := by
        intro he
        rw [he] at hopener
        exact absurd hopener (by decide)
      rw [hshift] at hcount
      simpa [hne] using hcount depth (by omega)

/-- The branches between the first and the last. -/
theorem count_middle {mid : List Node} (hb : ∀ n ∈ mid, n.IsBranch false false)
    (hf : ∀ n ∈ mid, n.Formed) (hc : ∀ n ∈ mid, n.Counted) {depth : Int} (hd : 0 ≤ depth) :
    ((keywordsAll mid).map rise).sum = 0 ∧
      elsesAt (depth + 1) (keywordsAll mid) = if depth = 0 then mid.length else 0 := by
  induction mid with
  | nil => exact ⟨rfl, by simp [keywordsAll, marksAll, elsesAt]⟩
  | cons n mid ih =>
    rw [List.forall_mem_cons] at hb hf hc
    obtain ⟨hsum, helses⟩ := count_branch hb.1 hf.1 hc.1 hd
    obtain ⟨hsum', helses'⟩ := ih hb.2 hf.2 hc.2
    simp only [Bool.false_eq_true, if_false, Int.sub_zero, true_and] at hsum helses
    rw [keywordsAll_cons, List.map_append, List.sum_append, hsum, hsum', elsesAt_append, hsum,
      helses, Int.add_zero (depth + 1), helses', List.length_cons]
    refine ⟨rfl, ?_⟩
    split <;> omega

/-- **The `else` actions of a chain** with `depth` blocks open outside it. -/
theorem count_chain {branches : List Node} (h : IsChain branches) (hf : ∀ n ∈ branches, n.Formed)
    (hc : ∀ n ∈ branches, n.Counted) (depth : Int) (hd : 0 ≤ depth) :
    ((keywordsAll branches).map rise).sum = 0 ∧
      elsesAt depth (keywordsAll branches) = if depth = 0 then branches.length - 1 else 0 := by
  obtain ⟨first, mid, last, rfl, hfirst, hmid, hlast⟩ := h
  rw [List.forall_mem_cons, List.forall_mem_append, List.forall_mem_singleton] at hf hc
  obtain ⟨hsum, helses⟩ := count_branch hfirst hf.1 hc.1 hd
  obtain ⟨hsum', helses'⟩ := count_middle hmid hf.2.1 hc.2.1 hd
  obtain ⟨hsum'', helses''⟩ := count_branch hlast hf.2.2 hc.2.2 hd
  have hlastAll : keywordsAll [last] = last.keywords := by
    rw [keywordsAll, marksAll_singleton]
    rfl
  have happend : keywordsAll (mid ++ [last]) = keywordsAll mid ++ last.keywords := by
    rw [keywordsAll, marksAll_append, List.map_append, ← hlastAll]
    rfl
  simp only [Bool.false_eq_true, Bool.true_eq_false, if_true, if_false, Int.sub_zero, Int.add_zero,
    true_and, false_and] at hsum helses hsum'' helses''
  rw [keywordsAll_cons, happend, List.map_append, List.map_append, List.sum_append, List.sum_append,
    hsum, hsum', hsum'', elsesAt_append, elsesAt_append, hsum, hsum', helses,
    Int.add_zero (depth + 1), helses', helses'', List.length_cons, List.length_append,
    List.length_singleton]
  refine ⟨by decide, ?_⟩
  by_cases h0 : depth = 0
  · simp only [if_pos h0]
    omega
  · simp only [if_neg h0]

/-! ## All nodes -/

mutual

/-- **Whatever stands in a formed node is quiet.** -/
theorem counted_of_formed : ∀ {n : Node}, n.Formed → n.Counted
  | .action info t act, h => by
    have hkeywords : (action info t act).keywords = [none] := by
      rw [keywords, marks, ← h]
      rfl
    show Quiet (action info t act).keywords
    rw [hkeywords]
    exact quiet_none
  | .raw info t, _ => by
    show Quiet (raw info t).keywords
    rw [keywords, marks]
    exact quiet_none
  | .block info frame children, ⟨_, hwhole, hchildren⟩ => by
    have hcounted := counted_of_formedAll hchildren
    rw [formedAll_iff] at hchildren
    exact quiet_of_wholeAll fun n hn => quiet_of_whole (hchildren n hn) (hwhole n hn) (hcounted n hn)
  | .chain info branches, ⟨hchain, hbranches⟩ => by
    have hcounted := counted_of_formedAll hbranches
    rw [formedAll_iff] at hbranches
    have hcount := count_chain hchain hbranches hcounted
    show Quiet (chain info branches).keywords
    rw [keywords, marks]
    refine ⟨(hcount 0 (Int.le_refl 0)).1, fun depth hd => ?_⟩
    exact (hcount depth (by omega)).2.trans (if_neg (by omega))

/-- The same for siblings. -/
theorem counted_of_formedAll : ∀ {ns : List Node}, FormedAll ns → ∀ n ∈ ns, n.Counted
  | [], _ => by simp
  | n :: ns, ⟨hn, hns⟩ =>
    List.forall_mem_cons.mpr ⟨counted_of_formed hn, counted_of_formedAll hns⟩

end

/-- **A chain has one branch more than it has `else` actions.** -/
theorem elsesAt_chain {info : Info} {branches : List Node} (h : (chain info branches).Formed) :
    elsesAt 0 (chain info branches).keywords + 1 = branches.length := by
  obtain ⟨hchain, hbranches⟩ := h
  have hcounted := counted_of_formedAll hbranches
  rw [formedAll_iff] at hbranches
  have hcount := (count_chain hchain hbranches hcounted 0 (Int.le_refl 0)).2
  obtain ⟨first, mid, last, rfl, -, -, -⟩ := hchain
  rw [keywords, marks]
  exact (congrArg (· + 1) hcount).trans (by simp)

end Node

end TemplateFormat
