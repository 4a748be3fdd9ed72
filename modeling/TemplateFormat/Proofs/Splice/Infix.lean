import TemplateFormat.Proofs.Placeholder
import TemplateFormat.Proofs.Splice.Rows

/-!
# Words that occur in words

A pattern without white space stands in a word exactly if it stands in one of the rows of the word,
so words with the same rows have the same patterns in them. With texts in braces put in its slots, a
word has the patterns of its own, and those of the texts, if no brace is in them.

Results:
* `Word.infix_rows_iff`: a pattern stands in one of the rows.
* `Word.infix_of_rows`: words with the same rows have the same patterns.
* `Word.infix_restore_iff`: patterns of a restored word.
-/

namespace TemplateFormat

section Infix

variable {α : Type} {p b b' t : List α}

/-- A pattern does not begin in what stands before a text, if its first element is not there. -/
theorem infix_of_append_right (hne : p ≠ []) (hb : ∀ a ∈ p.head?, a ∉ b) (h : p <:+: b ++ t) :
    p <:+: t := by
  induction b with
  | nil => exact h
  | cons a b ih =>
    have hb' : ∀ a ∈ p.head?, a ∉ b := fun c hc hmem => hb c hc (List.mem_cons_of_mem a hmem)
    rcases List.infix_cons_iff.mp h with h | h
    · obtain ⟨c, p, rfl⟩ := List.exists_cons_of_ne_nil hne
      obtain ⟨rfl, -⟩ := List.cons_prefix_cons.mp h
      exact absurd List.mem_cons_self (hb c rfl)
    · exact ih hb' h

/-- A pattern does not end in what stands behind a text, if its last element is not there. -/
theorem infix_of_append_left (hne : p ≠ []) (hb : ∀ a ∈ p.getLast?, a ∉ b) (h : p <:+: t ++ b) :
    p <:+: t := by
  rw [← List.reverse_infix] at h ⊢
  rw [List.reverse_append] at h
  refine infix_of_append_right (List.reverse_ne_nil_iff.mpr hne) (fun a ha => ?_) h
  rw [List.mem_reverse]
  exact hb a (by rwa [List.head?_reverse] at ha)

/-- A pattern stands in one of the parts that a separator divides. -/
theorem exists_infix_of_intercalate {x : α} (hx : x ∉ p) : ∀ {ls : List (List α)}, ls ≠ [] →
    p <:+: [x].intercalate ls → ∃ l ∈ ls, p <:+: l
  | [l], _, h => ⟨l, List.mem_cons_self, by rwa [List.intercalate_singleton] at h⟩
  | l :: m :: ms, _, h => by
    rw [List.intercalate_cons_cons, List.append_assoc, List.singleton_append] at h
    rcases infix_append_cons h hx with h | h
    · exact ⟨l, List.mem_cons_self, h⟩
    · obtain ⟨n, hn, h⟩ := exists_infix_of_intercalate hx (List.cons_ne_nil m ms) h
      exact ⟨n, List.mem_cons_of_mem l hn, h⟩

end Infix

namespace Rows

variable {α : Type} {blank : α → Bool} {p l : List α} {ls : List (List α)}

/-- What is blank at the ends of a line does not belong to a pattern. -/
theorem infix_inner (hne : p ≠ []) (hp : ∀ a ∈ p, blank a = false) (h : p <:+: l) :
    p <:+: inner blank l := by
  obtain ⟨b, b', hb, hb', hl⟩ := exists_inner blank l
  have hdisjoint {b : List α} (hb : b.all blank = true) {a : α} (ha : a ∈ p) : a ∉ b := fun hmem =>
    absurd (List.all_eq_true.mp hb a hmem) (Bool.eq_false_iff.mp (hp a ha))
  rw [hl] at h
  exact infix_of_append_left hne (fun a ha => hdisjoint hb' (List.mem_of_getLast? ha))
    (infix_of_append_right hne (fun a ha => hdisjoint hb (List.mem_of_head? ha)) h)

theorem not_all_of_isInfix (hne : p ≠ []) (hp : ∀ a ∈ p, blank a = false) (h : p <:+: l) :
    ¬ l.all blank = true := fun hall => by
  obtain ⟨a, ha⟩ := List.exists_mem_of_ne_nil p hne
  exact absurd (List.all_eq_true.mp hall a (h.subset ha)) (Bool.eq_false_iff.mp (hp a ha))

theorem exists_infix_behind (hne : p ≠ []) (hp : ∀ a ∈ p, blank a = false) {gap : Bool}
    (hl : l ∈ ls) (h : p <:+: l) : ∃ r ∈ behind blank gap ls, p <:+: r.2 := by
  induction ls generalizing gap with
  | nil => exact absurd hl List.not_mem_nil
  | cons m ms ih =>
    rw [behind]
    rcases List.mem_cons.mp hl with rfl | hl
    · rw [if_neg (not_all_of_isInfix hne hp h)]
      exact ⟨_, List.mem_cons_self, infix_inner hne hp h⟩
    · split
      · exact ih hl
      · obtain ⟨r, hr, hpr⟩ := ih hl
        exact ⟨r, List.mem_cons_of_mem _ hr, hpr⟩

/-- **A pattern in a line** is in a row. -/
theorem exists_infix_ofLines (hne : p ≠ []) (hp : ∀ a ∈ p, blank a = false) (hl : l ∈ ls)
    (h : p <:+: l) : ∃ r ∈ ofLines blank ls, p <:+: r.2 := by
  induction ls with
  | nil => exact absurd hl List.not_mem_nil
  | cons m ms ih =>
    rw [ofLines]
    rcases List.mem_cons.mp hl with rfl | hl
    · rw [if_neg (not_all_of_isInfix hne hp h)]
      exact ⟨_, List.mem_cons_self, infix_inner hne hp h⟩
    · split
      · exact ih hl
      · obtain ⟨r, hr, hpr⟩ := exists_infix_behind hne hp hl h
        exact ⟨r, List.mem_cons_of_mem _ hr, hpr⟩

end Rows

namespace Word

variable {p : Text} {v w : Word}

/-- **A pattern without white space stands in one of the rows.** -/
theorem infix_rows_iff (hne : p ≠ []) (hp : Text.IsSolid p) :
    ofText p <:+: w ↔ ∃ r ∈ w.rows, ofText p <:+: r.2 := by
  have hne' : ofText p ≠ [] := by simpa [ofText] using hne
  have hp' : ∀ s ∈ ofText p, s.isBlank = false := fun s hs => by
    obtain ⟨c, hc, rfl⟩ := List.mem_map.mp hs
    exact hp c hc
  constructor
  · intro h
    rw [← intercalate_lines w] at h
    obtain ⟨l, hl, hpl⟩ := exists_infix_of_intercalate
      (fun hmem => absurd (hp' _ hmem) (by decide)) (lines_ne_nil w) h
    exact Rows.exists_infix_ofLines hne' hp' hl hpl
  · rintro ⟨r, hr, hpr⟩
    exact hpr.trans (isInfix_of_mem_rows hr)

/-- **Words with the same rows have the same patterns.** -/
theorem infix_of_rows (hne : p ≠ []) (hp : Text.IsSolid p) (h : v.rows = w.rows) :
    ofText p <:+: v ↔ ofText p <:+: w := by
  rw [infix_rows_iff hne hp, infix_rows_iff hne hp, h]

theorem ofText_isInfix {s t : Text} (h : s <:+: t) : ofText s <:+: ofText t := by
  obtain ⟨a, b, rfl⟩ := h
  exact ⟨ofText a, ofText b, by simp [ofText]⟩

variable {f : Nat → Text}

/-- A pattern behind a text and a word is in the word or in one of its slots, by induction on the
word. -/
theorem infix_of_append_restore (hopen : '{' ∉ p) (hclose : '}' ∉ p) :
    ∀ {w : Word} {t : Text}, (∀ i ∈ w.slots, ∃ t, f i = '{' :: t ++ ['}']) →
      p <:+: t ++ w.restore f → ofText p <:+: ofText t ++ w ∨ ∃ i ∈ w.slots, p <:+: f i
  | [], t, _, h => by
    rw [restore, List.append_nil] at h
    rw [List.append_nil]
    exact .inl (ofText_isInfix h)
  | .char c :: w, t, hf, h => by
    rw [restore, List.append_cons] at h
    have hword : ofText (t ++ [c]) ++ w = ofText t ++ .char c :: w := by simp [ofText]
    have ih := infix_of_append_restore hopen hclose (w := w) hf h
    rwa [hword] at ih
  | .slot i :: w, t, hf, h => by
    obtain ⟨⟨u, hu⟩, hf⟩ := List.forall_mem_cons.mp hf
    rw [restore, hu, List.cons_append, List.cons_append, List.append_assoc, List.singleton_append]
      at h
    rcases infix_append_cons h hopen with h | h
    · exact .inl ((ofText_isInfix h).trans (List.prefix_append _ _).isInfix)
    rcases infix_append_cons h hclose with h | h
    · refine .inr ⟨i, List.mem_cons_self, ?_⟩
      rw [hu]
      exact h.trans ((List.prefix_append u ['}']).isInfix.trans (List.suffix_cons '{' _).isInfix)
    · rcases infix_of_append_restore hopen hclose (t := []) hf h with h | ⟨j, hj, h⟩
      · exact .inl (h.trans ((List.suffix_cons _ w).trans (List.suffix_append _ _)).isInfix)
      · exact .inr ⟨j, List.mem_cons_of_mem i hj, h⟩

/-- **Patterns of a restored word**, if the texts in its slots stand in braces: a pattern without
braces is in the word or in one of the texts. -/
theorem infix_restore_iff (hopen : '{' ∉ p) (hclose : '}' ∉ p)
    (hf : ∀ i ∈ w.slots, ∃ t, f i = '{' :: t ++ ['}']) :
    p <:+: w.restore f ↔ ofText p <:+: w ∨ ∃ i ∈ w.slots, p <:+: f i := by
  refine ⟨infix_of_append_restore hopen hclose (t := []) hf, ?_⟩
  rintro (⟨u, v, rfl⟩ | ⟨i, hi, h⟩)
  · rw [restore_append, restore_append, restore_ofText]
    exact List.infix_append _ _ _
  · obtain ⟨u, v, rfl⟩ := List.append_of_mem (mem_slots.mp hi)
    rw [restore_append]
    exact h.trans ((List.prefix_append _ _).isInfix.trans (List.suffix_append _ _).isInfix)

end Word

end TemplateFormat
