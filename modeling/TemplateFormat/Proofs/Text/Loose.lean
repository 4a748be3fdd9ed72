import TemplateFormat.Proofs.Text.Search

/-!
# Texts that are read with white space behind them

`Text.loose` makes each run of white space of a text one space, and puts a space behind the text. A
reader that passes over white space, and looks for words from the left to the right, finds the same
in the loose text, and what it leaves is the loose rest (`dropStart?_loose`, `cut?_loose`). So it
cannot tell two texts apart that differ in their runs of white space only.

White space at the start of a loose text is one space, so a fact about loose texts that is proved by
induction on the text has two cases there (`loose_cons_of_blank`).

Results:
* `loose_append_of_last`: a loose text, in two parts.
* `dropStart?_loose`, `cut?_loose`, `atWordEnd_loose`: readers of a loose text.
* `even_eq_or`: white space at the start does not count either.
-/

namespace TemplateFormat

namespace Text

/-- The text with each run of white space made one space, and a space at the end. -/
def loose (t : Text) : Text := squeeze (t ++ [' '])

@[simp] theorem loose_nil : loose [] = [' '] := rfl

theorem loose_cons_of_not_blank {c : Char} (h : TemplateFormat.isBlank c = false) (t : Text) :
    loose (c :: t) = c :: loose t :=
  squeeze_cons_of_not_blank h (t ++ [' '])

/-- White space at the start belongs to the run that it starts, or is one of its own. -/
theorem loose_cons_of_blank {c : Char} (h : TemplateFormat.isBlank c = true) (t : Text) :
    loose (c :: t) = loose t ∨ loose (c :: t) = ' ' :: loose t := by
  have hcons : loose (c :: t) = ' ' :: trimStart (loose t) := squeeze_cons_of_blank h (t ++ [' '])
  rw [hcons]
  rcases squeeze_eq_or (t ++ [' ']) with ht | ht
  · exact .inr (congrArg (' ' :: ·) ht.symm)
  · exact .inl ht.symm

theorem exists_loose_cons_of_blank {c : Char} (h : TemplateFormat.isBlank c = true) (t : Text) :
    ∃ s, loose (c :: t) = ' ' :: s :=
  ⟨_, squeeze_cons_of_blank h (t ++ [' '])⟩

/-- A part that does not end with white space is loosened apart from what comes behind. -/
theorem loose_append_of_last {s : Text} (t : Text)
    (hs : ∀ c ∈ s.getLast?, TemplateFormat.isBlank c = false) :
    loose (s ++ t) = squeeze s ++ loose t := by
  rw [loose, List.append_assoc, squeeze_append_of_last _ hs, loose]

theorem loose_append_congr (s : Text) {t t' : Text} (h : loose t = loose t') :
    loose (s ++ t) = loose (s ++ t') := by
  unfold loose at h ⊢
  rw [List.append_assoc, List.append_assoc]
  exact squeeze_append_congr s h

/-- Runs of white space at one place are loosened to the same space. -/
theorem loose_isBlank_congr {b b' : Text} (hb : isBlank b = true) (hne : b ≠ [])
    (hb' : isBlank b' = true) (hne' : b' ≠ []) (t : Text) : loose (b ++ t) = loose (b' ++ t) := by
  unfold loose
  rw [List.append_assoc, List.append_assoc]
  exact squeeze_isBlank_congr hb hne hb' hne' _

@[simp] theorem solid_loose (t : Text) : solid (loose t) = solid t := by
  rw [loose, solid_squeeze, solid_append, solid_of_isBlank (t := [' ']) rfl, List.append_nil]

/-- **White space at the start does not count** for a reader that passes over a space. -/
theorem even_eq_or (t : Text) : even t = loose t ∨ even t = ' ' :: loose t :=
  loose_cons_of_blank (by decide) t

/-! ## Readers -/

variable {w : Text}

theorem dropStart?_loose (hw : IsSolid w) (t : Text) :
    dropStart? w (loose t) = (dropStart? w t).map loose := by
  induction w generalizing t with
  | nil => rw [dropStart?, dropStart?, Option.map_some]
  | cons d w ih =>
    obtain ⟨hd, hrest⟩ := List.forall_mem_cons.mp hw
    have hspace : d ≠ ' ' := (ne_of_isBlank (by decide) hd).symm
    cases t with
    | nil => simp [dropStart?, hspace]
    | cons c t =>
      cases hc : TemplateFormat.isBlank c with
      | true =>
        obtain ⟨s, hs⟩ := exists_loose_cons_of_blank hc t
        rw [hs, dropStart?, if_neg hspace, dropStart?, if_neg (ne_of_isBlank hc hd).symm,
          Option.map_none]
      | false =>
        rw [loose_cons_of_not_blank hc, dropStart?, dropStart?]
        split
        · exact ih hrest t
        · rfl

/-- A word is in the loose text if it is in the text. -/
theorem infix_loose (hw : IsSolid w) (hne : w ≠ []) (t : Text) : w <:+: loose t ↔ w <:+: t := by
  rw [loose, infix_squeeze hw]
  refine ⟨?_, fun h => h.trans (List.prefix_append t [' ']).isInfix⟩
  rintro ⟨x, y, h⟩
  rcases List.eq_nil_or_concat y with rfl | ⟨y, c, rfl⟩
  · -- the word does not end with the space
    obtain ⟨v, d, rfl⟩ := (List.eq_nil_or_concat w).resolve_left hne
    rw [List.append_nil, List.concat_eq_append, ← List.append_assoc] at h
    obtain rfl := (List.cons.inj (List.append_inj_right' h rfl)).1
    exact absurd (hw ' ' (by simp)) (by decide)
  · rw [List.concat_eq_append, ← List.append_assoc] at h
    exact ⟨x, y, List.append_inj_left' h rfl⟩

theorem cut?_loose (hw : IsSolid w) (hne : w ≠ []) (t : Text) :
    cut? w (loose t) = (cut? w t).map fun p => (squeeze p.1, loose p.2) := by
  cases hcut : cut? w t with
  | none =>
    refine cut?_eq_none fun h => ?_
    rw [infix_loose hw hne, ← contains_iff, contains_eq_isSome_cut?, hcut] at h
    exact absurd h (by decide)
  | some p =>
    obtain ⟨before, after⟩ := p
    obtain ⟨rfl, hfirst⟩ := (cut?_eq_some_iff hne).mp hcut
    have hlast : IsSolid w.dropLast := fun c hc => hw c (List.dropLast_subset w hc)
    refine (cut?_eq_some_iff hne).mpr ⟨?_, ?_⟩
    · rw [loose, List.append_assoc, List.append_assoc, squeeze_append_word hw hne, loose]
    · have hsqueeze : squeeze before ++ w.dropLast = squeeze (before ++ w.dropLast) := by
        rw [squeeze_append_of_head before fun c hc => hlast c (List.mem_of_mem_head? hc),
          squeeze_of_isSolid hlast]
      rw [hsqueeze, infix_squeeze hw]
      exact hfirst

/-- The first character behind white space, if there is one, is the same. -/
theorem trimStart_loose (t : Text) : trimStart (loose t) = [] ∧ trimStart t = [] ∨
    ∃ c s, trimStart (loose t) = c :: loose s ∧ trimStart t = c :: s := by
  induction t with
  | nil => exact .inl ⟨rfl, rfl⟩
  | cons c t ih =>
    cases hc : TemplateFormat.isBlank c with
    | true =>
      rw [trimStart_cons_of_blank hc]
      rcases loose_cons_of_blank hc t with h | h <;> rw [h]
      · exact ih
      · rwa [trimStart_cons_of_blank (by decide)]
    | false =>
      refine .inr ⟨c, t, ?_, trimStart_eq (by simp [hc])⟩
      rw [loose_cons_of_not_blank hc]
      exact trimStart_eq (by simp [hc])

end Text

theorem atWordEnd_loose (t : Text) : atWordEnd (Text.loose t) = atWordEnd t := by
  rw [Text.loose, atWordEnd_squeeze]
  cases t with
  | nil => rfl
  | cons c t => rfl

end TemplateFormat
