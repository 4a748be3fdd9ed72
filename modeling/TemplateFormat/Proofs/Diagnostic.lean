import TemplateFormat.Diagnostic
import TemplateFormat.Proofs.Token.Complete
import TemplateFormat.Proofs.Tree.Balance
import Mathlib.Data.Finset.Card
import Mathlib.Order.Bounds.Defs

/-!
# Where a diagnostic points

Spans are in bytes and the place of a diagnostic is in characters. `charOffset` clamps an offset to
the text and steps back to the boundary of a character; what it counts is the characters that end at
or before the offset (`charsEnding`). Between two boundaries this is exact: the characters of the
range have the bytes of the span.

The span of an error in the structure of a template is the span of one of its actions, the one the
error concerns (`FormatError.Concerns`): the first action that is out of place at its depth, or the
head of the innermost block that is left open. Actions stand between two characters, so the range of
such an error is that action and nothing else.

Results:
* `stepBack_isGreatest`: the loop stops at the last boundary at or before the offset.
* `charOffset_eq_charsEnding`: the characters before an offset, counted.
* `charRange_of_slice`: the range of a part of the text is that part.
* `parse_error_concerns`: the action that an error of reading is about.
* `charRange_exact`: the ranges of all spans, and of the errors of reading.
-/

namespace TemplateFormat

open Text (IsBoundary Slice utf8)

namespace Diagnostic

/-! ## Stepping back -/

/-- **The loop stops at the last boundary**, by induction on the offset it starts from. -/
theorem stepBack_isGreatest (source : Text) (n : Nat) :
    IsGreatest {m | IsBoundary m source ∧ m ≤ n} (stepBack source n) := by
  induction n with
  | zero => exact ⟨⟨Text.isBoundary_zero source, le_rfl⟩, fun m hm => hm.2⟩
  | succ n ih =>
    rw [stepBack]
    split
    · rename_i hn
      exact ⟨⟨Text.isBoundary_iff.mp hn, le_rfl⟩, fun m hm => hm.2⟩
    · rename_i hn
      refine ⟨⟨ih.1.1, Nat.le_succ_of_le ih.1.2⟩, fun m ⟨hm, hle⟩ => ih.2 ⟨hm, ?_⟩⟩
      rcases Nat.le_succ_iff.mp hle with hle | rfl
      · exact hle
      · exact absurd (Text.isBoundary_iff.mpr hm) hn

theorem stepBack_of_isBoundary {source : Text} {n : Nat} (h : IsBoundary n source) :
    stepBack source n = n :=
  le_antisymm (stepBack_isGreatest source n).1.2 ((stepBack_isGreatest source n).2 ⟨h, le_rfl⟩)

/-- What is counted is the longest beginning of the text that ends at or before the offset. -/
theorem exists_charOffset (source : Text) (offset : Nat) :
    ∃ pre post, source = pre ++ post ∧ charOffset source offset = pre.length ∧
      IsGreatest {m | IsBoundary m source ∧ m ≤ min offset (Text.bytes source)}
        (Text.bytes pre) := by
  have hgreatest := stepBack_isGreatest source (min offset (Text.bytes source))
  unfold charOffset
  generalize stepBack source (min offset (Text.bytes source)) = m at hgreatest ⊢
  obtain ⟨pre, post, rfl, rfl⟩ := hgreatest.1.1
  exact ⟨pre, post, rfl, by rw [Text.takeBytes_append], hgreatest⟩

/-! ## Counting characters -/

/-- The number of characters that end at or before a byte offset. -/
def charsEnding (source : Text) (n : Nat) : Nat :=
  ((Finset.range source.length).filter fun i => Text.bytes (source.take (i + 1)) ≤ n).card

theorem charsEnding_le_length (source : Text) (n : Nat) : charsEnding source n ≤ source.length :=
  (Finset.card_filter_le ..).trans (Finset.card_range _).le

theorem charsEnding_mono (source : Text) {n m : Nat} (h : n ≤ m) :
    charsEnding source n ≤ charsEnding source m := by
  refine Finset.card_le_card fun i hi => ?_
  rw [Finset.mem_filter] at hi ⊢
  exact ⟨hi.1, hi.2.trans h⟩

/-- A character of the text ends in its longest beginning that ends at or before `n`, or it ends
behind `n`. -/
theorem charsEnding_eq_length {pre post : Text} {n : Nat}
    (h : IsGreatest {m | IsBoundary m (pre ++ post) ∧ m ≤ n} (Text.bytes pre)) :
    charsEnding (pre ++ post) n = pre.length := by
  have hfilter : ((Finset.range (pre ++ post).length).filter fun i =>
      Text.bytes ((pre ++ post).take (i + 1)) ≤ n) = Finset.range pre.length := by
    ext i
    rw [Finset.mem_filter, Finset.mem_range, Finset.mem_range]
    constructor
    · rintro ⟨hi, hle⟩
      have hcut := List.take_append_drop (i + 1) (pre ++ post)
      have hbound : IsBoundary (Text.bytes ((pre ++ post).take (i + 1))) (pre ++ post) :=
        ⟨_, _, hcut.symm, rfl⟩
      obtain ⟨m, hm, -⟩ := Text.exists_split_of_bytes_le hcut (h.2 ⟨hbound, hle⟩)
      have hlen := congrArg List.length hm
      rw [List.length_append, List.length_take_of_le (by omega)] at hlen
      omega
    · intro hi
      rw [List.take_append_of_le_length hi]
      refine ⟨?_, (Text.bytes_le_of_isPrefix (List.take_prefix _ _)).trans h.1.2⟩
      rw [List.length_append]
      omega
  rw [charsEnding, hfilter, Finset.card_range]

/-- **What is counted is the characters that end at or before the offset.** -/
theorem charOffset_eq_charsEnding (source : Text) (offset : Nat) :
    charOffset source offset = charsEnding source (min offset (Text.bytes source)) := by
  obtain ⟨pre, post, rfl, hlen, hgreatest⟩ := exists_charOffset source offset
  rw [hlen, charsEnding_eq_length hgreatest]

/-! ## Ranges of parts -/

theorem charOffset_bytes (pre post : Text) :
    charOffset (pre ++ post) (Text.bytes pre) = pre.length := by
  have hle : Text.bytes pre ≤ Text.bytes (pre ++ post) := by
    rw [Text.bytes_append]
    exact Nat.le_add_right ..
  rw [charOffset, min_eq_left hle, stepBack_of_isBoundary (Text.isBoundary_bytes pre post),
    Text.takeBytes_append]

/-- **The range of a part of the text is that part.** -/
theorem charRange_of_slice {source part : Text} {start stop : Nat}
    (h : Slice source start stop part) :
    (source.take (charRange source start stop).2).drop (charRange source start stop).1 = part := by
  obtain ⟨before, after, rfl, rfl, rfl⟩ := h
  have hstart := charOffset_bytes before (part ++ after)
  have hstop := charOffset_bytes (before ++ part) after
  rw [List.append_assoc] at hstop
  rw [charRange, hstart, hstop, ← List.append_assoc, List.take_left, List.drop_left]

end Diagnostic

/-! ## The action that an error is about -/

theorem Token.StandsIn.slice {source : Text} {t : Token} (h : t.StandsIn source) :
    Slice source t.span.index t.span.stop t.text := by
  obtain ⟨pre, post, rfl, hspan⟩ := h
  rw [hspan]
  exact ⟨pre, post, rfl, rfl, (Text.bytes_append ..).symm⟩

/-- The error is about the token `t` of the tokens of a template: the first that is out of place at
the depth of the tokens before it, or, if none is, the head of the innermost block that is open at
the end. -/
inductive FormatError.Concerns (t : Token) : List Token → FormatError → Prop
  | outOfPlace (pre post : List Token) (e : FormatError) (first : firstViolation? pre = none)
      (violation : t.violation? (depth pre) = some e) : Concerns t (pre ++ t :: post) e
  | leftOpen (tokens : List Token) (k : Keyword) (mem : t ∈ tokens)
      (head : t.head? = some (k, t.span)) (inPlace : firstViolation? tokens = none)
      (innermost : HeadAt (depth tokens) tokens k t.span) :
      Concerns t tokens (.unterminatedBlock k t.span)

namespace Token

variable {t : Token}

theorem span_of_violation? {d : Int} {e : FormatError} (h : t.violation? d = some e) :
    e.span = some t.span := by
  unfold violation? at h
  split at h
  · cases h
  · split at h <;> cases h
    rfl
  · split at h <;> split at h <;> cases h <;> rfl

theorem exists_action_of_keyword? (h : t.keyword? ≠ none) : ∃ act, t.kind = .action act := by
  cases hkind : t.kind with
  | action act => exact ⟨act, rfl⟩
  | raw => exact absurd (keyword?_of_raw hkind) h

end Token

namespace FormatError.Concerns

variable {t : Token} {tokens : List Token} {e : FormatError}

theorem mem (h : e.Concerns t tokens) : t ∈ tokens := by
  cases h with
  | outOfPlace => simp
  | leftOpen _ _ hmem => exact hmem

theorem span_eq (h : e.Concerns t tokens) : e.span = some t.span := by
  cases h with
  | outOfPlace _ _ _ _ hviolation => exact Token.span_of_violation? hviolation
  | leftOpen => rfl

/-- A raw region is never out of place and heads no block. -/
theorem isAction (h : e.Concerns t tokens) : ∃ act, t.kind = .action act := by
  refine Token.exists_action_of_keyword? fun hnone => ?_
  cases h with
  | outOfPlace pre _ _ _ hviolation =>
    rw [(Token.plain_of_keyword? hnone (depth pre)).2.1] at hviolation
    cases hviolation
  | leftOpen _ _ _ hhead =>
    rw [(Token.plain_of_keyword? hnone 0).2.2] at hhead
    cases hhead

/-- One more token changes nothing for the first that is out of place. -/
theorem concat_of_firstViolation? (h : e.Concerns t tokens) (hsome : firstViolation? tokens = some e)
    (u : Token) : e.Concerns t (tokens ++ [u]) := by
  cases h with
  | outOfPlace pre post _ hfirst hviolation =>
    rw [List.append_assoc, List.cons_append]
    exact .outOfPlace pre _ e hfirst hviolation
  | leftOpen _ _ _ _ hnone =>
    rw [hnone] at hsome
    cases hsome

end FormatError.Concerns

/-- The first violation concerns a token, by induction on the tokens from the right. -/
theorem exists_concerns_of_firstViolation? {tokens : List Token} {e : FormatError}
    (h : firstViolation? tokens = some e) : ∃ t, e.Concerns t tokens := by
  induction tokens using List.reverseRecOn with
  | nil => cases h
  | append_singleton tokens u ih =>
    rw [firstViolation?_concat] at h
    cases hf : firstViolation? tokens with
    | none =>
      rw [hf, Option.none_or] at h
      exact ⟨u, .outOfPlace tokens [] e hf h⟩
    | some e' =>
      rw [hf, Option.some_or, Option.some.injEq] at h
      subst h
      obtain ⟨t, ht⟩ := ih hf
      exact ⟨t, ht.concat_of_firstViolation? hf u⟩

/-- The head of a block is one of the tokens. -/
theorem HeadAt.exists_mem {d : Int} {tokens : List Token} {k : Keyword} {span : Span}
    (h : HeadAt d tokens k span) : ∃ t ∈ tokens, t.head? = some (k, span) := by
  obtain ⟨pre, t, post, rfl, hhead, -⟩ := h
  exact ⟨t, by simp, hhead⟩

theorem Token.span_of_head? {t : Token} {k : Keyword} {span : Span}
    (h : t.head? = some (k, span)) : t.span = span := by
  obtain ⟨_, _, he⟩ := Option.map_eq_some_iff.mp h
  exact (Prod.mk.inj he).2

theorem parse_of_firstViolation? {source : Text} {e : FormatError}
    (h : firstViolation? (scan source).tokens = some e) : parse source = .error e := by
  have hrun := Builder.counted_steps (scan source).tokens
  rw [h] at hrun
  simp only [parse, hrun]

/-- **An error of reading is about one of the actions.** -/
theorem parse_error_concerns {source : Text} {e : FormatError} (h : parse source = .error e) :
    ∃ t, e.Concerns t (scan source).tokens := by
  cases hf : firstViolation? (scan source).tokens with
  | some e' =>
    rw [parse_of_firstViolation? hf] at h
    cases h
    exact exists_concerns_of_firstViolation? hf
  | none =>
    have hrun := Builder.counted_steps (scan source).tokens
    rw [hf] at hrun
    obtain ⟨b, hb, ⟨hlen, hheads⟩, -⟩ := hrun
    simp only [parse, hb] at h
    cases hl : b.levels with
    | nil =>
      rw [hl] at h
      cases h
    | cons level outer =>
      rw [hl] at h hlen hheads
      cases h
      have hhead : HeadAt (depth (scan source).tokens) (scan source).tokens level.keyword
          level.start.span := by
        rw [← hlen]
        exact hheads.1
      obtain ⟨t, hmem, ht⟩ := hhead.exists_mem
      have hspan := Token.span_of_head? ht
      rw [← hspan] at ht hhead ⊢
      exact ⟨t, .leftOpen _ _ hmem ht hf hhead⟩

namespace Diagnostic

/-- **Ranges are exact.** The range of a span counts the characters that end at or before its two
ends, in the text; between two boundaries its characters have the bytes of the span. An error of
reading is about one action of the text, its span ends at boundaries, and its range is that
action. -/
theorem charRange_exact (source : Text) :
    (∀ start stop, start ≤ stop →
      let (a, b) := charRange source start stop
      a ≤ b ∧ b ≤ source.length ∧
      a = charsEnding source (min start (Text.bytes source)) ∧
      b = charsEnding source (min stop (Text.bytes source)) ∧
      (IsBoundary start source → IsBoundary stop source →
        utf8 ((source.take b).drop a) = ((utf8 source).take stop).drop start)) ∧
    ∀ e, parse source = .error e →
      ∃ t act, e.Concerns t (scan source).tokens ∧ t.kind = .action act ∧ e.span = some t.span ∧
        IsBoundary t.span.index source ∧ IsBoundary t.span.stop source ∧
        t.span.stop ≤ Text.bytes source ∧
        let (a, b) := charRange source t.span.index t.span.stop
        (source.take b).drop a = t.text := by
  refine ⟨fun start stop hle => ?_, fun e he => ?_⟩
  · have ha := charOffset_eq_charsEnding source start
    have hb := charOffset_eq_charsEnding source stop
    refine ⟨?_, ?_, ha, hb, fun hstart hstop => ?_⟩
    · rw [ha, hb]
      exact charsEnding_mono source (min_le_min_right _ hle)
    · rw [hb]
      exact charsEnding_le_length source _
    · obtain ⟨part, hpart⟩ := hstart.exists_slice hstop hle
      rw [← hpart.utf8_eq]
      exact congrArg utf8 (charRange_of_slice hpart)
  · obtain ⟨t, ht⟩ := parse_error_concerns he
    obtain ⟨act, hact⟩ := ht.isAction
    have hslice := (Token.standsIn_scan ht.mem).slice
    exact ⟨t, act, ht, hact, ht.span_eq, hslice.isBoundary_start, hslice.isBoundary_stop,
      hslice.isBoundary_stop.le_bytes, charRange_of_slice hslice⟩

/-- A closing action without a block, behind a letter of two bytes: one offset lies inside the
letter, and one is past the end. -/
theorem charRange_exact_strayEnd :
    let source := "é{{ end }}".toList
    charRange source 1 100 = (0, 10) ∧ charsEnding source 1 = 0 ∧ charsEnding source 11 = 10 ∧
    charRange source 2 11 = (1, 10) ∧
    utf8 ((source.take 10).drop 1) = ((utf8 source).take 11).drop 2 ∧
    ∃ (t : Token) (act : Action), t.kind = .action act ∧ t.span = ⟨2, 9⟩ ∧
      (source.take 10).drop 1 = t.text := by
  intro source
  have hwhole : charRange source 1 100 = (0, 10) := by decide
  have hspan : charRange source 2 11 = (1, 10) := by decide
  have hparse : parse source = .error (.unexpectedEnd .endKw ⟨2, 9⟩) :=
    parse_of_firstViolation? (by decide +kernel)
  have hbefore : IsBoundary 2 source := Text.isBoundary_iff.mp (by decide)
  have hend : IsBoundary 11 source := Text.isBoundary_iff.mp (by decide)
  obtain ⟨hranges, herrors⟩ := charRange_exact source
  obtain ⟨-, -, ha, hb, -⟩ := hranges 1 100 (by decide)
  obtain ⟨-, -, -, -, hbytes⟩ := hranges 2 11 (by decide)
  obtain ⟨t, act, -, hact, ht, -, -, -, htext⟩ := herrors _ hparse
  have hspan' : t.span = ⟨2, 9⟩ := (Option.some.inj ht).symm
  rw [hspan'] at htext
  exact ⟨hwhole, ha.symm, hb.symm, hspan, hbytes hbefore hend, t, act, hact, hspan', htext⟩

end Diagnostic

end TemplateFormat
