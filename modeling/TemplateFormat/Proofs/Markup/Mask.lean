import TemplateFormat.Markup.Mask
import TemplateFormat.Proofs.Text.Solid

/-!
# Masking keeps the lines

The layout of markup goes through the lines of the markup and of the masked markup side by side.
Line feeds are never written over, and no character is left without a flag, so there are as many
of the one as of the other.

Results:
* `length_commentFlags`, `length_bodyFlags`: there is a flag for each character.
* `length_lines_mask`: the masked markup has as many lines as the markup.
-/

namespace TemplateFormat

/-- There is one line more than there are line feeds. -/
theorem Text.length_lines (t : Text) : (lines t).length = t.count '\n' + 1 := by
  induction t with
  | nil => rfl
  | cons c t ih =>
    by_cases hc : c = '\n'
    · rw [hc, lines_newline, List.length_cons, ih, List.count_cons_self]
    · obtain ⟨l, ls, hl⟩ := List.exists_cons_of_ne_nil (lines_ne_nil t)
      rw [lines_cons hc hl, List.count_cons_of_ne hc, ← ih, hl]
      rfl

namespace Markup

/-! ## Flags -/

theorem length_commentFlags (t : Text) : (commentFlags t).length = t.length := by
  fun_induction commentFlags t with
  | case1 t h => exact List.length_replicate
  | case2 t before inside h h' => exact List.length_replicate
  | case3 t before inside h body rest h' ih =>
    have ht := Text.cut?_eq_some h
    have hinside := Text.cut?_eq_some h'
    rw [ht, hinside]
    simp only [List.length_append, List.length_replicate, ih]
    omega

theorem length_le_of_cutRawClosing? {t rest : Text} {n : Nat}
    (h : cutRawClosing? t = some (n, rest)) : n + rest.length ≤ t.length := by
  induction t generalizing n with
  | nil => simp [cutRawClosing?] at h
  | cons c t ih =>
    unfold cutRawClosing? at h
    split at h
    · rename_i r hr
      cases h
      have := length_lt_of_afterRawClosing? hr
      omega
    · obtain ⟨⟨k, r⟩, hk, he⟩ := Option.map_eq_some_iff.mp h
      cases he
      have := ih hk
      rw [List.length_cons]
      omega

/-- An element takes no more characters than the text has. -/
theorem RawElement.length_le_of_at? {t : Text} {e : RawElement} (h : RawElement.at? t = some e) :
    e.opening + e.body + e.rest.length ≤ t.length := by
  unfold RawElement.at? at h
  split at h
  · exact absurd h (by simp)
  · rename_i inside hi
    obtain ⟨⟨n, rest⟩, hc, rfl⟩ := Option.map_eq_some_iff.mp h
    have hopening := length_lt_of_afterRawOpening? hi
    have hclosing := length_le_of_cutRawClosing? hc
    simp only
    omega

theorem length_bodyFlags (t : Text) : (bodyFlags t).length = t.length := by
  fun_induction bodyFlags t with
  | case1 => rfl
  | case2 c s h ih => rw [List.length_cons, ih, List.length_cons]
  | case3 c s e h ih =>
    have := RawElement.length_le_of_at? h
    simp only [List.length_append, List.length_replicate, ih]
    omega

/-! ## Line feeds -/

theorem count_maskChar (c : Char) (masked : Bool) :
    (maskChar c masked).count '\n' = [c].count '\n' := by
  unfold maskChar
  by_cases hc : c = '\n'
  · rw [hc, Bool.and_comm]
    rfl
  · by_cases hm : (masked && c != '\n') = true
    · rw [if_pos hm, List.count_eq_zero.mpr, List.count_eq_zero.mpr]
      · exact fun h => hc (List.mem_singleton.mp h).symm
      · exact fun h => absurd (List.eq_of_mem_replicate h) (by decide)
    · rw [if_neg hm]

theorem count_zipWith_maskChar : ∀ {t : Text} {flags : List Bool}, t.length = flags.length →
    (List.zipWith maskChar t flags).flatten.count '\n' = t.count '\n'
  | [], [], _ => rfl
  | c :: t, flag :: flags, h => by
    have ih := count_zipWith_maskChar (t := t) (Nat.succ.inj h)
    rw [List.zipWith_cons_cons, List.flatten_cons, List.count_append, count_maskChar, ih,
      ← List.count_append, List.singleton_append]

/-- **The masked markup has as many lines as the markup.** -/
theorem length_lines_mask (t : Text) : (Text.lines (mask t)).length = (Text.lines t).length := by
  have hflags : t.length = (List.zipWith or (commentFlags t) (bodyFlags t)).length := by
    rw [List.length_zipWith, length_commentFlags, length_bodyFlags, Nat.min_self]
  rw [Text.length_lines, Text.length_lines, mask, count_zipWith_maskChar hflags]

end Markup

end TemplateFormat
