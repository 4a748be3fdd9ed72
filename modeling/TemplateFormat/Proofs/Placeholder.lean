import TemplateFormat.Placeholder
import TemplateFormat.Proofs.Text.Solid
import Mathlib.Data.List.Basic
import Mathlib.Data.List.Infix

/-!
# Placeholders are new and end with their mark

The stem of a source is longer by one `x` than each of its beginnings that occur in the source,
so it does not occur there itself. A text is `Free` if the stem does not occur in it. Two free
texts can be put together where the character on one side of the seam is none of the `letters` of
stems: white space, braces and angle brackets are none.

Results:
* `free_source`: the stem does not occur in the source.
* `free_append`: free texts stay free where a character between them is no letter of stems.
* `eq_of_token_isPrefix`: of two placeholders, none is the beginning of the other.
-/

namespace TemplateFormat

theorem infix_append_cons {α : Type} {p a b : List α} {x : α} (h : p <:+: a ++ x :: b)
    (hx : x ∉ p) : p <:+: a ∨ p <:+: b := by
  obtain ⟨s, t, he⟩ := h
  rcases List.append_eq_append_iff.mp he with ⟨u, hu, -⟩ | ⟨u, hu, hb⟩
  · exact Or.inl ⟨s, u, hu.symm⟩
  · cases u with
    | nil => exact Or.inl ⟨s, [], by rw [hu, List.append_nil, List.append_nil]⟩
    | cons y u =>
      -- the pattern ends with the `u` after `x`, since `x` is not in it
      obtain ⟨rfl, rfl⟩ := List.cons.inj hb
      rcases List.append_eq_append_iff.mp hu with ⟨v, -, hv⟩ | ⟨v, -, hv⟩
      · exact absurd (hv ▸ List.mem_append_right v List.mem_cons_self) hx
      · cases v with
        | nil =>
          rw [List.nil_append] at hv
          exact absurd (hv ▸ List.mem_cons_self) hx
        | cons z v =>
          obtain ⟨-, rfl⟩ := List.cons.inj hv
          exact Or.inr (List.infix_append v p t)

theorem eq_of_append_cons {α : Type} {a b u v : List α} {x : α} (ha : x ∉ a) (hb : x ∉ b)
    (h : a ++ x :: u = b ++ x :: v) : a = b := by
  rcases List.append_eq_append_iff.mp h with ⟨c, rfl, hc⟩ | ⟨c, rfl, hc⟩
  · cases c with
    | nil => exact (List.append_nil a).symm
    | cons y c =>
      rw [← (List.cons.inj hc).1] at hb
      exact absurd (List.mem_append_right a List.mem_cons_self) hb
  · cases c with
    | nil => exact List.append_nil b
    | cons y c =>
      rw [← (List.cons.inj hc).1] at ha
      exact absurd (List.mem_append_right b List.mem_cons_self) ha

namespace Placeholder

/-! ## Stems -/

/-- The characters of which stems are made. -/
def letters : List Char := ['_', 'g', 't', 'x']

theorem mem_letters_of_mem_stem {source : Text} {c : Char} (h : c ∈ stem source) : c ∈ letters := by
  rcases List.mem_append.mp h with hb | hx
  · exact List.mem_append_left ['x'] hb
  · rw [List.eq_of_mem_replicate hx]
    decide

theorem isBlank_of_mem_letters {c : Char} (h : c ∈ letters) : isBlank c = false := by
  simp only [letters, List.mem_cons, List.not_mem_nil, or_false] at h
  rcases h with rfl | rfl | rfl | rfl <;> decide

theorem isSolid_stem (source : Text) : Text.IsSolid (stem source) :=
  fun _ hc => isBlank_of_mem_letters (mem_letters_of_mem_stem hc)

/-- A stem starts with its only low line. -/
theorem stem_eq_cons (source : Text) : ∃ rest, stem source = '_' :: rest ∧ '_' ∉ rest := by
  refine ⟨['g', 't'] ++ List.replicate (demand source) 'x', rfl, fun h => ?_⟩
  rcases List.mem_append.mp h with hb | hx
  · exact absurd hb (by decide)
  · exact absurd (List.eq_of_mem_replicate hx) (by decide)

/-- A stem in the text asks for a longer one. -/
theorem lt_demand (pre rest : Text) (k : Nat) :
    k < demand (pre ++ (base ++ List.replicate k 'x' ++ rest)) := by
  induction pre with
  | nil =>
    show k < demand ('_' :: ('g' :: 't' :: (List.replicate k 'x' ++ rest)))
    have hd : Text.dropStart? base ('_' :: 'g' :: 't' :: (List.replicate k 'x' ++ rest)) =
        some (List.replicate k 'x' ++ rest) := rfl
    rw [demand, hd]
    refine Nat.lt_of_lt_of_le (Nat.lt_succ_of_le ?_) (Nat.le_max_left ..)
    rw [List.takeWhile_append_of_pos (by simp), List.length_append, List.length_replicate]
    exact Nat.le_add_right ..
  | cons c pre ih =>
    rw [List.cons_append, demand]
    split
    · exact Nat.lt_of_lt_of_le ih (Nat.le_max_right ..)
    · exact ih

/-- The stem of the placeholders of `source` does not occur in `t`. -/
def Free (source t : Text) : Prop := ¬ stem source <:+: t

/-- **The stem does not occur in the source.** -/
theorem free_source (source : Text) : Free source source := by
  rintro ⟨pre, post, h⟩
  have hlt := lt_demand pre post (demand source)
  rw [← List.append_assoc] at hlt
  change demand source < demand (pre ++ stem source ++ post) at hlt
  rw [h] at hlt
  exact absurd hlt (Nat.lt_irrefl _)

variable {source s t : Text} {c : Char}

theorem Free.of_isInfix (h : Free source t) (hs : s <:+: t) : Free source s :=
  fun hstem => h (hstem.trans hs)

/-- A text without the letters of stems is free. -/
theorem free_of_clear (h : ∀ c ∈ t, c ∉ letters) : Free source t := by
  obtain ⟨rest, hrest, -⟩ := stem_eq_cons source
  intro hstem
  have hmem : '_' ∈ t := hstem.subset (hrest ▸ List.mem_cons_self)
  exact h '_' hmem (by decide)

theorem free_nil : Free source [] := free_of_clear (by simp)

theorem free_append_cons (hc : c ∉ letters) (hs : Free source s) (ht : Free source t) :
    Free source (s ++ c :: t) := fun h =>
  (infix_append_cons h fun hm => hc (mem_letters_of_mem_stem hm)).elim hs ht

theorem free_cons (hc : c ∉ letters) (ht : Free source t) : Free source (c :: t) :=
  free_append_cons hc free_nil ht

/-- The first character, if there is one, is no letter of stems. -/
def StartsClear (t : Text) : Prop := ∀ c ∈ t.head?, c ∉ letters

/-- The last character, if there is one, is no letter of stems. -/
def EndsClear (t : Text) : Prop := ∀ c ∈ t.getLast?, c ∉ letters

theorem free_append_startsClear (hs : Free source s) (ht : Free source t) (hc : StartsClear t) :
    Free source (s ++ t) := by
  cases t with
  | nil => rwa [List.append_nil]
  | cons c t => exact free_append_cons (hc c rfl) hs (ht.of_isInfix (List.suffix_cons c t).isInfix)

theorem free_append_endsClear (hs : Free source s) (ht : Free source t) (hc : EndsClear s) :
    Free source (s ++ t) := by
  rcases List.eq_nil_or_concat' s with rfl | ⟨s, c, rfl⟩
  · exact ht
  · rw [List.append_assoc]
    refine free_append_cons (hc c (by simp)) (hs.of_isInfix (List.prefix_append s [c]).isInfix) ht

/-- **Free texts stay free** where a character at the seam is no letter of stems. -/
theorem free_append (hs : Free source s) (ht : Free source t) (hc : EndsClear s ∨ StartsClear t) :
    Free source (s ++ t) :=
  hc.elim (free_append_endsClear hs ht) (free_append_startsClear hs ht)

theorem not_mem_letters_of_isBlank (h : isBlank c = true) : c ∉ letters := by
  intro hmem
  rw [isBlank_of_mem_letters hmem] at h
  exact absurd h (by decide)

/-- A free text between texts without letters of stems is free. -/
theorem free_between {a b : Text} (ha : ∀ c ∈ a, c ∉ letters) (hb : ∀ c ∈ b, c ∉ letters)
    (ht : Free source t) : Free source (a ++ (t ++ b)) := by
  have hright : Free source (t ++ b) :=
    free_append ht (free_of_clear hb) (Or.inr fun c hc => hb c (List.mem_of_mem_head? hc))
  exact free_append (free_of_clear ha) hright
    (Or.inl fun c hc => ha c (List.mem_of_mem_getLast? hc))

theorem free_between_blank {a b : Text} (ha : Text.isBlank a = true) (hb : Text.isBlank b = true)
    (ht : Free source t) : Free source (a ++ (t ++ b)) :=
  free_between (fun c hc => not_mem_letters_of_isBlank (Text.isBlank_iff.mp ha c hc))
    (fun c hc => not_mem_letters_of_isBlank (Text.isBlank_iff.mp hb c hc)) ht

/-- A text that has characters, and at both ends one that is no letter of stems. -/
structure Framed (t : Text) : Prop where
  ne_nil : t ≠ []
  starts : StartsClear t
  ends : EndsClear t

theorem startsClear_append (hs : StartsClear s) (ht : StartsClear t) : StartsClear (s ++ t) := by
  cases s with
  | nil => exact ht
  | cons c s => exact hs

theorem startsClear_append_of_ne_nil (hs : s ≠ []) (h : StartsClear s) (t : Text) :
    StartsClear (s ++ t) := by
  cases s with
  | nil => exact absurd rfl hs
  | cons c s => exact h

theorem startsClear_of_solid (h : StartsClear (Text.solid t)) : StartsClear t := by
  cases t with
  | nil => simp [StartsClear]
  | cons c t =>
    intro d hd hmem
    obtain rfl := Option.some.inj hd
    rw [Text.solid_cons_of_not_blank (isBlank_of_mem_letters hmem)] at h
    exact h c rfl hmem

theorem endsClear_of_solid (h : EndsClear (Text.solid t)) : EndsClear t := by
  have hrev : StartsClear t.reverse := by
    refine startsClear_of_solid fun c hc => h c ?_
    rwa [Text.solid_reverse, List.head?_reverse] at hc
  intro c hc
  exact hrev c (by rwa [List.head?_reverse])

/-- White space does not reach into the frame of a text, and is none. -/
theorem framed_of_solid (h : Framed (Text.solid t)) : Framed t := by
  refine ⟨?_, startsClear_of_solid h.starts, endsClear_of_solid h.ends⟩
  rintro rfl
  exact h.ne_nil rfl

/-! ## Tokens -/

theorem toDigits_injective : Function.Injective (Nat.toDigits 10) := fun m n h => by
  have := congrArg (fun ds => Nat.ofDigitChars 10 ds 0) h
  simpa using this

/-- **No placeholder is the beginning of another**: the low line after the number ends it. -/
theorem eq_of_token_isPrefix {stem rest : Text} {m n : Nat}
    (h : token stem m <+: token stem n ++ rest) : m = n := by
  obtain ⟨post, he⟩ := h
  simp only [token, List.append_assoc] at he
  have hd := List.append_cancel_left he
  exact toDigits_injective
    (eq_of_append_cons Nat.underscore_not_in_toDigits Nat.underscore_not_in_toDigits hd)

/-- A placeholder is made of letters and digits. -/
theorem mem_token {source : Text} {n : Nat} {c : Char} (h : c ∈ token (stem source) n) :
    c ∈ letters ∨ c.isDigit = true := by
  rw [token, List.mem_append, List.mem_append, List.mem_singleton] at h
  rcases h with (hc | hc) | rfl
  · exact .inl (mem_letters_of_mem_stem hc)
  · exact .inr (Nat.isDigit_of_mem_toDigits (by decide) (by decide) hc)
  · exact .inl (by decide)

/-- A placeholder has no white space in it. -/
theorem isSolid_token (source : Text) (n : Nat) : Text.IsSolid (token (stem source) n) := by
  intro c hc
  rcases mem_token hc with hc | hd
  · exact isBlank_of_mem_letters hc
  · simp only [Char.isDigit, Bool.and_eq_true, decide_eq_true_eq, ge_iff_le] at hd
    have h1 : 48 ≤ c.toNat := hd.1
    have h2 : c.toNat ≤ 57 := hd.2
    simp only [isBlank, Bool.or_eq_false_iff, Bool.and_eq_false_iff, beq_eq_false_iff_ne,
      decide_eq_false_iff_not, ne_eq]
    omega

theorem stem_prefix_token (stem : Text) (n : Nat) : stem <+: token stem n := by
  rw [token, List.append_assoc]
  exact List.prefix_append ..

end Placeholder

end TemplateFormat
