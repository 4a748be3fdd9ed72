import TemplateFormat.Proofs.Tree.Step
import Mathlib.Algebra.BigOperators.Group.List.Basic
import Mathlib.Algebra.Order.Ring.Int
import Mathlib.Data.List.Infix

/-!
# Reading accepts exactly the balanced templates

The nesting of a template can be read off its tokens by counting: `depth ts` is the number of blocks
opened less the number of blocks closed in `ts`. A token is out of place (`Token.violation?`) if it
closes or divides a block at depth 0, or opens one at depth 256.

The verdict on a template compares prefixes of its tokens only, without a stack of open blocks:
* `firstViolation?` is the error of the first token that is out of place at the depth of the tokens
  before it;
* `HeadAt d ts k span` says that the block open at depth `d` after `ts` was last opened or
  divided by the action with keyword `k` at `span`: the depth is `d` after that action, it does
  not fall below `d` later, and every later action that opens or divides a block does so at a
  greater depth.

Results:
* `counted_steps`: the builder's open levels are counted by the depth, and each level has the
  keyword and place of the head at its depth.
* `HeadAt.unique`: at each depth there is one head at most.
* `parse_verdict`: the result of reading a template is the verdict on its tokens.
-/

namespace TemplateFormat

/-! ## Counting -/

/-- By how much the keyword changes the depth. -/
def Keyword.shift : Keyword → Int
  | ifKw | rangeKw | blockKw | withKw | defineKw | ignoreStartKw => 1
  | endKw | ignoreEndKw => -1
  | elseKw => 0

namespace Token

/-- The keyword of an action; a raw region has none. -/
def keyword? (t : Token) : Option Keyword :=
  match t.kind with
  | .action act => act.keyword
  | .raw => none

/-- By how much the token changes the depth. -/
def shift (t : Token) : Int := (t.keyword?.map Keyword.shift).getD 0

/-- The error of a token that is out of place where `depth` blocks are open. -/
def violation? (depth : Int) (t : Token) : Option FormatError :=
  match t.keyword? with
  | none => none
  | some .elseKw => if depth = 0 then some (.unexpectedElse t.span) else none
  | some k =>
    if k.shift = -1 then if depth = 0 then some (.unexpectedEnd k t.span) else none
    else if depth = 256 then some (.nestingTooDeep 256 t.span) else none

/-- The keyword and place of an action that opens or divides a block. -/
def head? (t : Token) : Option (Keyword × Span) :=
  (t.keyword?.filter fun k => k.shift != -1).map (·, t.span)

end Token

/-- The number of blocks opened less the number of blocks closed. -/
def depth (ts : List Token) : Int := (ts.map Token.shift).sum

/-- The error of the first token that is out of place at the depth of the tokens before it. -/
def firstViolation? (ts : List Token) : Option FormatError :=
  ts.inits.findSome? fun pre => pre.getLast?.bind (Token.violation? (depth pre.dropLast))

/-- The block that is open at depth `d` after `ts` was last opened or divided by an action with the
keyword `k` at `span`. -/
def HeadAt (d : Int) (ts : List Token) (k : Keyword) (span : Span) : Prop :=
  ∃ pre t post, ts = pre ++ t :: post ∧ t.head? = some (k, span) ∧ depth (pre ++ [t]) = d ∧
    ∀ mid, mid <+: post → d ≤ depth (pre ++ t :: mid) ∧
      ∀ u ∈ mid.getLast?, u.head?.isSome → d < depth (pre ++ t :: mid)

theorem inits_concat {α : Type} (l : List α) (a : α) :
    (l ++ [a]).inits = l.inits ++ [l ++ [a]] := by
  rw [List.inits_append]
  rfl

theorem depth_concat (ts : List Token) (t : Token) : depth (ts ++ [t]) = depth ts + t.shift := by
  simp [depth]

theorem firstViolation?_concat (ts : List Token) (t : Token) :
    firstViolation? (ts ++ [t]) = (firstViolation? ts).or (t.violation? (depth ts)) := by
  unfold firstViolation?
  rw [inits_concat, List.findSome?_append]
  simp

/-- The latest token heads the block at the depth it leaves. -/
theorem headAt_last {d : Int} {ts : List Token} {t : Token} {k : Keyword} {span : Span}
    (hd : depth (ts ++ [t]) = d) (hh : t.head? = some (k, span)) : HeadAt d (ts ++ [t]) k span := by
  refine ⟨ts, t, [], rfl, hh, hd, fun mid hmid => ?_⟩
  rw [List.prefix_nil.mp hmid]
  exact ⟨hd.ge, fun u hu => absurd hu (by simp)⟩

/-- One more token leaves the head at depth `d`, if the depth stays above and the token heads
nothing at that depth. -/
theorem HeadAt.concat {d : Int} {ts : List Token} {t : Token} {k : Keyword} {span : Span}
    (h : HeadAt d ts k span) (hle : d ≤ depth (ts ++ [t]))
    (hlt : t.head?.isSome → d < depth (ts ++ [t])) : HeadAt d (ts ++ [t]) k span := by
  obtain ⟨pre, u, post, rfl, hh, hd, hpost⟩ := h
  have hassoc : pre ++ u :: post ++ [t] = pre ++ u :: (post ++ [t]) := by simp
  rw [hassoc] at hle hlt ⊢
  refine ⟨pre, u, post ++ [t], rfl, hh, hd, fun mid hmid => ?_⟩
  rcases List.prefix_concat_iff.mp hmid with rfl | hmid
  · refine ⟨hle, fun v hv hsome => hlt ?_⟩
    rw [List.getLast?_append, List.getLast?_singleton, Option.some_or, Option.mem_some_iff] at hv
    rw [hv]
    exact hsome
  · exact hpost mid hmid

/-- After the head at depth `d`, no token is a head at depth `d`. -/
theorem headAt_no_later {d : Int} {pre mid post : List Token} {t u : Token}
    (h : ∀ m, m <+: mid ++ u :: post → d ≤ depth (pre ++ t :: m) ∧
      ∀ v ∈ m.getLast?, v.head?.isSome → d < depth (pre ++ t :: m))
    (hu : u.head?.isSome) : depth (pre ++ t :: mid ++ [u]) ≠ d := by
  have hprefix : mid ++ [u] <+: mid ++ u :: post := ⟨post, by simp⟩
  have hlt := (h (mid ++ [u]) hprefix).2 u (by simp) hu
  rw [List.append_assoc, List.cons_append]
  exact hlt.ne'

/-- **There is one head at a depth.** -/
theorem HeadAt.unique {d : Int} {ts : List Token} {k k' : Keyword} {span span' : Span}
    (h : HeadAt d ts k span) (h' : HeadAt d ts k' span') : k = k' ∧ span = span' := by
  obtain ⟨pre, t, post, rfl, ht, hd, hpost⟩ := h
  obtain ⟨pre', t', post', he, ht', hd', hpost'⟩ := h'
  have hsame : t = t' := by
    rcases List.append_eq_append_iff.mp he with ⟨mid, rfl, hmid⟩ | ⟨mid, rfl, hmid⟩
    · cases mid with
      | nil => exact (List.cons.inj hmid).1
      | cons u mid =>
        obtain ⟨rfl, rfl⟩ := List.cons.inj hmid
        exact absurd hd' (headAt_no_later hpost (by rw [ht']; rfl))
    · cases mid with
      | nil => exact (List.cons.inj hmid).1.symm
      | cons u mid =>
        obtain ⟨rfl, rfl⟩ := List.cons.inj hmid
        exact absurd hd (headAt_no_later hpost' (by rw [ht]; rfl))
  rw [hsame, ht'] at ht
  obtain ⟨hk, hs⟩ := Prod.mk.inj (Option.some.inj ht)
  exact ⟨hk.symm, hs.symm⟩

/-! ## Keywords by what they do to the depth -/

namespace Keyword

theorem shift_of_isOpener {k : Keyword} (h : k.isOpener = true) : k.shift = 1 := by
  revert h
  cases k <;> decide

theorem shift_of_isCloser {k : Keyword} (h : k.isCloser = true) : k.shift = -1 := by
  revert h
  cases k <;> decide

end Keyword

namespace Token

variable {t : Token} {act : Action}

theorem keyword?_of_action (h : t.kind = .action act) : t.keyword? = act.keyword := by
  unfold keyword?
  rw [h]

theorem keyword?_of_raw (h : t.kind = .raw) : t.keyword? = none := by
  unfold keyword?
  rw [h]

theorem shift_of_keyword? {k : Keyword} (h : t.keyword? = some k) : t.shift = k.shift := by
  unfold shift
  rw [h]
  rfl

/-- A token without a keyword changes nothing and heads nothing. -/
theorem plain_of_keyword? (h : t.keyword? = none) (d : Int) :
    t.shift = 0 ∧ t.violation? d = none ∧ t.head? = none := by
  unfold shift violation? head?
  rw [h]
  exact ⟨rfl, rfl, rfl⟩

theorem violation?_of_closer {k : Keyword} (h : t.keyword? = some k) (hc : k.isCloser = true)
    (d : Int) : t.violation? d = if d = 0 then some (.unexpectedEnd k t.span) else none := by
  unfold violation?
  rw [h]
  revert hc
  cases k <;> simp [Keyword.isCloser, Keyword.shift]

theorem violation?_of_opener {k : Keyword} (h : t.keyword? = some k) (ho : k.isOpener = true)
    (d : Int) : t.violation? d = if d = 256 then some (.nestingTooDeep 256 t.span) else none := by
  unfold violation?
  rw [h]
  revert ho
  cases k <;> simp [Keyword.isOpener, Keyword.isCloser, Keyword.shift]

theorem violation?_of_else (h : t.keyword? = some .elseKw) (d : Int) :
    t.violation? d = if d = 0 then some (.unexpectedElse t.span) else none := by
  unfold violation?
  rw [h]

theorem head?_of_keyword? {k : Keyword} (h : t.keyword? = some k) :
    t.head? = if k.shift = -1 then none else some (k, t.span) := by
  unfold head?
  rw [h]
  by_cases hk : k.shift = -1 <;> simp [Option.filter, hk]

end Token

/-! ## The builder's levels are counted -/

/-- Each open level has the keyword and place of the head at its depth; the depth of a level is one
more than the number of levels around it. -/
def Heads (ts : List Token) : List Level → Prop
  | [] => True
  | level :: outer =>
    HeadAt (outer.length + 1) ts level.keyword level.start.span ∧ Heads ts outer

/-- A token that heads and closes no level of `levels` leaves their heads as they are. -/
theorem heads_concat {ts : List Token} {t : Token} :
    ∀ {levels : List Level}, Heads ts levels → (levels.length : Int) ≤ depth (ts ++ [t]) →
      (t.head?.isSome → (levels.length : Int) < depth (ts ++ [t])) → Heads (ts ++ [t]) levels
  | [], _, _, _ => trivial
  | level :: outer, h, hle, hlt => by
    rw [List.length_cons] at hle hlt
    exact ⟨h.1.concat hle hlt, heads_concat h.2 (by omega) fun hs => by have := hlt hs; omega⟩

namespace Builder

/-- What is known of the builder after tokens that are all in place. -/
def Counted (ts : List Token) (b : Builder) : Prop :=
  (b.levels.length : Int) = depth ts ∧ Heads ts b.levels

theorem depth_concat_plain {t : Token} (h : t.keyword? = none) (ts : List Token) :
    depth (ts ++ [t]) = depth ts := by
  rw [depth_concat, (Token.plain_of_keyword? h 0).1, add_zero]

/-- A token without a keyword keeps the levels and their count. -/
theorem counted_plain {ts : List Token} {b b' : Builder} {t : Token} (hb : Counted ts b)
    (hk : t.keyword? = none) (hl : b'.levels = b.levels) : Counted (ts ++ [t]) b' := by
  have hd := depth_concat_plain hk ts
  unfold Counted
  rw [hl]
  refine ⟨hb.1.trans hd.symm, heads_concat hb.2 (hb.1.trans hd.symm).le fun hs => ?_⟩
  rw [(Token.plain_of_keyword? hk 0).2.2] at hs
  exact absurd hs (by simp)

/-- **One step agrees with the count**: it fails with the error of a token that is out of place, and
otherwise the levels stay counted. -/
theorem counted_step {ts : List Token} {b : Builder} (hb : Counted ts b) (hmax : depth ts ≤ 256)
    (t : Token) :
    match t.violation? (depth ts) with
    | some e => b.step t = .error e
    | none => ∃ b', b.step t = .ok b' ∧ Counted (ts ++ [t]) b' ∧ depth (ts ++ [t]) ≤ 256 := by
  have ⟨hlen, hheads⟩ := hb
  have hadv := step_advance b t
  generalize b.step t = r at hadv
  cases hadv with
  | raw hkind =>
    have hkw := Token.keyword?_of_raw hkind
    rw [(Token.plain_of_keyword? hkw (depth ts)).2.1]
    exact ⟨_, rfl, counted_plain hb hkw rfl, (depth_concat_plain hkw ts).trans_le hmax⟩
  | plain act hkind hk =>
    have hkw := (Token.keyword?_of_action hkind).trans hk
    rw [(Token.plain_of_keyword? hkw (depth ts)).2.1]
    exact ⟨_, rfl, counted_plain hb hkw rfl, (depth_concat_plain hkw ts).trans_le hmax⟩
  | divide act level outer hkind hk hl =>
    have hkw := (Token.keyword?_of_action hkind).trans hk
    have hs : t.shift = 0 := Token.shift_of_keyword? hkw
    rw [hl, List.length_cons] at hlen
    rw [hl] at hheads
    have hd : depth (ts ++ [t]) = outer.length + 1 := by rw [depth_concat, hs]; omega
    rw [Token.violation?_of_else hkw, if_neg (by omega)]
    refine ⟨_, rfl, ⟨hd.symm, ?_, ?_⟩, by omega⟩
    · exact headAt_last hd (Token.head?_of_keyword? hkw)
    · exact heads_concat hheads.2 (by omega) fun _ => by omega
  | close act k level outer hkind hk hc hl =>
    have hkw := (Token.keyword?_of_action hkind).trans hk
    have hs : t.shift = -1 := (Token.shift_of_keyword? hkw).trans (Keyword.shift_of_isCloser hc)
    have hh : t.head? = none := by
      rw [Token.head?_of_keyword? hkw, if_pos (Keyword.shift_of_isCloser hc)]
    rw [hl, List.length_cons] at hlen
    rw [hl] at hheads
    rw [Token.violation?_of_closer hkw hc, if_neg (by omega)]
    have hlevels : (b.closeLevel level outer t act).levels = outer := by
      unfold closeLevel
      cases level.branches <;> rfl
    have hd : depth (ts ++ [t]) = outer.length := by rw [depth_concat, hs]; omega
    refine ⟨_, rfl, ⟨?_, ?_⟩, by omega⟩
    · rw [hlevels, hd]
    · rw [hlevels]
      refine heads_concat hheads.2 hd.ge ?_
      rw [hh]
      exact fun h => absurd h (by simp)
  | start act k hkind hk ho hd =>
    have hkw := (Token.keyword?_of_action hkind).trans hk
    have hs : t.shift = 1 := (Token.shift_of_keyword? hkw).trans (Keyword.shift_of_isOpener ho)
    unfold maxDepth at hd
    have hd' : depth (ts ++ [t]) = b.levels.length + 1 := by rw [depth_concat, hs]; omega
    rw [Token.violation?_of_opener hkw ho, if_neg (by omega)]
    refine ⟨_, rfl, ⟨hd'.symm, ?_, ?_⟩, by omega⟩
    · refine headAt_last hd' ?_
      rw [Token.head?_of_keyword? hkw, Keyword.shift_of_isOpener ho]
      rfl
    · exact heads_concat hheads (by omega) fun _ => by omega
  | strayElse act hkind hk hl =>
    have hkw := (Token.keyword?_of_action hkind).trans hk
    have h0 : depth ts = 0 := by rw [← hlen, hl]; rfl
    rw [Token.violation?_of_else hkw, if_pos h0]
  | strayEnd act k hkind hk hc hl =>
    have hkw := (Token.keyword?_of_action hkind).trans hk
    have h0 : depth ts = 0 := by rw [← hlen, hl]; rfl
    rw [Token.violation?_of_closer hkw hc, if_pos h0]
  | tooDeep act k hkind hk ho hd =>
    have hkw := (Token.keyword?_of_action hkind).trans hk
    unfold maxDepth at hd
    rw [Token.violation?_of_opener hkw ho, if_pos (by omega)]
    rfl

/-- **A run agrees with the count**, by induction on the tokens from the right. -/
theorem counted_steps (ts : List Token) :
    match firstViolation? ts with
    | some e => empty.steps ts = .error e
    | none => ∃ b, empty.steps ts = .ok b ∧ Counted ts b ∧ depth ts ≤ 256 := by
  induction ts using List.reverseRecOn with
  | nil => exact ⟨empty, rfl, ⟨rfl, trivial⟩, by decide⟩
  | append_singleton ts t ih =>
    rw [firstViolation?_concat, steps_concat]
    cases hf : firstViolation? ts with
    | some e =>
      rw [hf] at ih
      rw [ih]
      rfl
    | none =>
      rw [hf] at ih
      obtain ⟨b, hb, hcount, hmax⟩ := ih
      rw [hb, Option.none_or]
      exact counted_step hcount hmax t

end Builder

/-- **Reading accepts exactly the balanced templates and reports the first violation.** -/
theorem parse_verdict (source : Text) :
    match firstViolation? (scan source).tokens with
    | some e => parse source = .error e
    | none =>
      if 0 < depth (scan source).tokens then
        (∃ keyword span, HeadAt (depth (scan source).tokens) (scan source).tokens keyword span) ∧
          ∀ keyword span, HeadAt (depth (scan source).tokens) (scan source).tokens keyword span →
            parse source = .error (.unterminatedBlock keyword span)
      else ∃ tree, parse source = .ok tree := by
  have hrun := Builder.counted_steps (scan source).tokens
  unfold parse
  cases hf : firstViolation? (scan source).tokens with
  | some e =>
    rw [hf] at hrun
    simp only [hrun]
  | none =>
    rw [hf] at hrun
    obtain ⟨b, hb, ⟨hlen, hheads⟩, -⟩ := hrun
    simp only [hb]
    cases hl : b.levels with
    | nil =>
      rw [hl] at hlen
      rw [if_neg (by rw [← hlen]; simp)]
      exact ⟨_, rfl⟩
    | cons level outer =>
      rw [hl] at hlen hheads
      rw [if_pos (by rw [← hlen]; simp), ← hlen]
      refine ⟨⟨level.keyword, level.start.span, hheads.1⟩, fun keyword span hhead => ?_⟩
      obtain ⟨rfl, rfl⟩ := hheads.1.unique hhead
      rfl

end TemplateFormat
