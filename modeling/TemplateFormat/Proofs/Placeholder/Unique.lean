import TemplateFormat.Proofs.Placeholder
import TemplateFormat.Proofs.Text.Search
import Mathlib.Order.Bounds.Defs
import Mathlib.Order.MinMax

/-!
# Placeholders are found only where they are written

The stem of a source can be found by trying: start with the base, and put an `x` behind it as long as
what there is occurs in the source (`lengthen`). That comes to an end because a text longer than the
source does not occur in it. The number of the `x` that it takes is the least one for which the stem
is new (`isLeast_demand`).

A placeholder has low lines at its start and at its end, and none between. So in placeholders that
follow each other, a placeholder begins where one of them begins: elsewhere, the low line is the last
character of one, and behind it comes the end or one more low line, not the rest of a stem.

Results:
* `isLeast_demand`: the stem has the fewest `x`.
* `lengthen_base`: trying one stem after the other ends with the stem.
* `token_isInfix_flatMap_iff`: in placeholders next to each other, each is found where it is written.
* `placeholders_unique`: stems are new and least, and no placeholder is found by accident.
-/

namespace TemplateFormat

namespace Placeholder

/-! ## The stem -/

/-- The base with `k` times the letter `x` behind it. -/
def stemOf (k : Nat) : Text := base ++ List.replicate k 'x'

/-- Puts one more `x` behind a stem as long as it occurs in the source. -/
def lengthen (source s : Text) : Text :=
  if _h : Text.contains s source then lengthen source (s ++ ['x']) else s
termination_by source.length + 1 - s.length
decreasing_by
  have hle := (Text.contains_iff.mp _h).length_le
  rw [List.length_append, List.length_singleton]
  omega

theorem stemOf_succ (k : Nat) : stemOf k ++ ['x'] = stemOf (k + 1) := by
  rw [stemOf, stemOf, List.append_assoc, List.replicate_succ']

theorem replicate_isPrefix {c : Char} {t : Text} {k : Nat}
    (h : k ≤ (t.takeWhile (· == c)).length) : List.replicate k c <+: t := by
  have hall : t.takeWhile (· == c) = List.replicate (t.takeWhile (· == c)).length c :=
    List.eq_replicate_of_mem fun d hd => by simpa using List.mem_takeWhile_imp hd
  refine List.IsPrefix.trans ?_ (List.takeWhile_prefix (· == c))
  rw [hall]
  exact List.prefix_replicate_iff.mpr ⟨by simpa using h, by simp⟩

/-- Every stem that is shorter than asked for occurs in the source. -/
theorem stemOf_isInfix {source : Text} {k : Nat} (h : k < demand source) : stemOf k <:+: source := by
  induction source with
  | nil => exact absurd h (Nat.not_lt_zero k)
  | cons c t ih =>
    rw [demand] at h
    split at h
    · rename_i rest hrest
      rcases lt_max_iff.mp h with hk | hk
      · obtain ⟨post, rfl⟩ := replicate_isPrefix (Nat.le_of_lt_succ hk)
        rw [Text.dropStart?_eq_some.mp hrest, ← List.append_assoc]
        exact (List.prefix_append ..).isInfix
      · exact List.infix_cons (ih hk)
    · exact List.infix_cons (ih h)

/-- **The stem has the fewest `x`** with which it does not occur in the source. -/
theorem isLeast_demand (source : Text) : IsLeast {k | ¬ stemOf k <:+: source} (demand source) :=
  ⟨free_source source, fun _ hk => Nat.le_of_not_lt fun hlt => hk (stemOf_isInfix hlt)⟩

theorem lengthen_of_le {source : Text} {k : Nat} (h : k ≤ demand source) :
    lengthen source (stemOf k) = stem source := by
  induction h using Nat.decreasingInduction with
  | self =>
    have hnew : ¬ Text.contains (stemOf (demand source)) source = true := fun hc =>
      (isLeast_demand source).1 (Text.contains_iff.mp hc)
    rw [lengthen, dif_neg hnew, stemOf, stem]
  | of_succ k hk ih =>
    rw [lengthen, dif_pos (Text.contains_iff.mpr (stemOf_isInfix hk)), stemOf_succ, ih]

/-- **Trying one stem after the other** ends with the stem of the source. -/
theorem lengthen_base (source : Text) : lengthen source base = stem source := by
  have h := lengthen_of_le (Nat.zero_le (demand source))
  rwa [stemOf, List.replicate_zero, List.append_nil] at h

/-! ## Placeholders next to each other -/

/-- What begins with a low line is found at the first low line of a text, or behind it. -/
theorem isInfix_append_low_line {b c t : Text} (hc : '_' ∉ c) (h : '_' :: b <:+: c ++ '_' :: t) :
    b <+: t ∨ '_' :: b <:+: t := by
  obtain ⟨pre, post, he⟩ := h
  rw [List.append_assoc] at he
  rcases List.append_eq_append_iff.mp he with ⟨u, rfl, hu⟩ | ⟨u, rfl, hu⟩
  · cases u with
    | nil => exact .inl ⟨post, (List.cons.inj hu).2⟩
    | cons d u =>
      rw [List.cons_append] at hu
      rw [← (List.cons.inj hu).1] at hc
      exact absurd (List.mem_append_right pre List.mem_cons_self) hc
  · cases u with
    | nil => exact .inl ⟨post, (List.cons.inj hu).2.symm⟩
    | cons d u =>
      rw [List.cons_append] at hu
      rw [(List.cons.inj hu).2]
      refine .inr ⟨u, post, ?_⟩
      rw [List.append_assoc]

/-- A placeholder is a word between low lines. -/
theorem exists_word (source : Text) (n : Nat) : ∃ word, word ≠ [] ∧ '_' ∉ word ∧
    token (stem source) n = '_' :: (word ++ ['_']) := by
  obtain ⟨rest, hrest, hmem⟩ := stem_eq_cons source
  refine ⟨rest ++ Nat.toDigits 10 n, ?_, ?_, ?_⟩
  · exact List.append_ne_nil_of_right_ne_nil rest Nat.toDigits_ne_nil
  · rw [List.mem_append, not_or]
    exact ⟨hmem, Nat.underscore_not_in_toDigits⟩
  · rw [token, hrest]
    simp only [List.cons_append, List.append_assoc]

/-- Placeholders start with a low line, and not with a word. -/
theorem not_word_isPrefix {source word : Text} (hne : word ≠ []) (hword : '_' ∉ word)
    (ns : List Nat) : ¬ word ++ ['_'] <+: ns.flatMap (token (stem source)) := by
  obtain ⟨c, word, rfl⟩ := List.exists_cons_of_ne_nil hne
  intro h
  cases ns with
  | nil => exact absurd (List.prefix_nil.mp h) (by simp)
  | cons n ns =>
    obtain ⟨first, -, -, hn⟩ := exists_word source n
    rw [List.flatMap_cons, hn, List.cons_append, List.cons_append] at h
    rw [(List.cons_prefix_cons.mp h).1] at hword
    exact hword List.mem_cons_self

/-- **In placeholders next to each other, each is found where it is written** and nowhere else. -/
theorem token_isInfix_flatMap_iff (source : Text) (k : Nat) (ns : List Nat) :
    token (stem source) k <:+: ns.flatMap (token (stem source)) ↔ k ∈ ns := by
  refine ⟨fun h => ?_, fun h => List.infix_of_mem_flatten (List.mem_map_of_mem h)⟩
  obtain ⟨word, hne, hword, htoken⟩ := exists_word source k
  induction ns with
  | nil =>
    rw [htoken, List.flatMap_nil, List.infix_nil] at h
    exact absurd h (by simp)
  | cons n ns ih =>
    obtain ⟨first, -, hfirst, hn⟩ := exists_word source n
    rw [List.flatMap_cons] at h
    by_cases hstart : token (stem source) k <+:
        token (stem source) n ++ ns.flatMap (token (stem source))
    · rw [eq_of_token_isPrefix hstart]
      exact List.mem_cons_self
    -- the low line in front of `word` is the last character of the first placeholder, or behind it
    rw [hn, List.cons_append, List.append_assoc, List.singleton_append] at h hstart
    rw [htoken] at h hstart ih
    rcases isInfix_append_low_line (c := []) (by simp) h with hpre | hin
    · exact absurd (List.cons_prefix_cons.mpr ⟨rfl, hpre⟩) hstart
    · rcases isInfix_append_low_line hfirst hin with hpre | hrest
      · exact absurd hpre (not_word_isPrefix hne hword ns)
      · exact List.mem_cons_of_mem n (ih hrest)

/-- **Placeholders cannot be confused.** Putting an `x` behind the base as long as it occurs in the
source comes to an end, with the stem; the stem has the fewest `x` for which it does not occur in the
source. A placeholder is found in another, or in two next to each other, only if it is one of them. -/
theorem placeholders_unique (source : Text) :
    lengthen source base = stem source ∧
    (∃ k, stem source = stemOf k ∧ IsLeast {k | ¬ stemOf k <:+: source} k) ∧
    ∀ k m n, (token (stem source) k <:+: token (stem source) m ↔ k = m) ∧
      (token (stem source) k <:+: token (stem source) m ++ token (stem source) n ↔
        k = m ∨ k = n) := by
  refine ⟨lengthen_base source, ⟨demand source, rfl, isLeast_demand source⟩, fun k m n => ⟨?_, ?_⟩⟩
  · have h := token_isInfix_flatMap_iff source k [m]
    rwa [List.flatMap_singleton, List.mem_singleton] at h
  · have h := token_isInfix_flatMap_iff source k [m, n]
    rwa [List.flatMap_cons, List.flatMap_singleton, List.mem_cons, List.mem_singleton] at h

end Placeholder

end TemplateFormat
