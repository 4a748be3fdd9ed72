import TemplateFormat.Proofs.Text.Spacing
import TemplateFormat.Text.Word

/-!
# Searching texts

A text is cut at the first occurrence of a pattern. A pattern without white space is at the start or
at the end of a text exactly if it is there in the squeezed text, and a word ends in both at the
same place.

Results:
* `Text.cut?_eq_some_iff`: a cut is at the first occurrence of its pattern.
* `Text.dropStart?_squeeze`, `Text.dropEnding?_squeeze`: words at the ends of a squeezed text.
* `atWordEnd_squeeze`: the end of a word.
-/

namespace TemplateFormat

namespace Text

/-! ## First occurrences -/

/-- What a pattern occurs in, it occurs in the start of the longer text. -/
theorem infix_of_prefix_cons {p s t : Text} {c : Char} (hp : p <+: c :: t) (hs : s <+: t)
    (hlen : p.length ≤ s.length + 1) : p <:+: c :: s :=
  (List.prefix_of_prefix_length_le hp (List.cons_prefix_cons.mpr ⟨rfl, hs⟩)
    (by rwa [List.length_cons])).isInfix

/-- **A cut is at the first occurrence**: the pattern does not occur any earlier. -/
theorem cut?_eq_some_iff {p t before after : Text} (hp : p ≠ []) :
    cut? p t = some (before, after) ↔
      t = before ++ (p ++ after) ∧ ¬ p <:+: before ++ p.dropLast := by
  have hlen : p.dropLast.length + 1 = p.length := by
    rw [List.length_dropLast]
    have := List.length_pos_iff.mpr hp
    omega
  induction t generalizing before with
  | nil =>
    constructor
    · intro h
      simp [cut?, hp] at h
    · rintro ⟨he, -⟩
      simp [hp] at he
  | cons c t ih =>
    unfold cut?
    cases hd : dropStart? p (c :: t) with
    | some rest =>
      have hrest := dropStart?_eq_some.mp hd
      constructor
      · intro h
        obtain ⟨rfl, rfl⟩ := Prod.mk.inj (Option.some.inj h)
        refine ⟨hrest, fun hi => ?_⟩
        have := hi.length_le
        rw [List.nil_append] at this
        omega
      · rintro ⟨he, hno⟩
        cases before with
        | nil => rw [hrest, List.nil_append] at he; simpa using List.append_cancel_left he
        | cons d before =>
          obtain ⟨rfl, rfl⟩ := List.cons.inj he
          refine absurd ?_ hno
          have hsub : before ++ p.dropLast <+: before ++ (p ++ after) :=
            (List.prefix_append_right_inj before).mpr
              ((List.dropLast_prefix p).trans (List.prefix_append p after))
          have hle : p.length ≤ (before ++ p.dropLast).length + 1 := by
            rw [List.length_append]
            omega
          exact infix_of_prefix_cons ⟨rest, hrest.symm⟩ hsub hle
    | none =>
      have hnone : ¬ p <+: c :: t := by
        rintro ⟨rest, hrest⟩
        rw [dropStart?_eq_some.mpr hrest.symm] at hd
        exact absurd hd (by simp)
      simp only [Option.map_eq_some_iff, Prod.exists, Prod.mk.injEq]
      constructor
      · rintro ⟨before, after, hcut, rfl, rfl⟩
        obtain ⟨rfl, hno⟩ := ih.mp hcut
        refine ⟨rfl, fun hi => ?_⟩
        rcases List.infix_cons_iff.mp hi with hpre | hi
        · refine hnone (hpre.trans (List.cons_prefix_cons.mpr ⟨rfl, ?_⟩))
          exact (List.prefix_append_right_inj before).mpr
            ((List.dropLast_prefix p).trans (List.prefix_append p _))
        · exact hno hi
      · rintro ⟨he, hno⟩
        cases before with
        | nil => exact absurd ⟨after, he.symm⟩ hnone
        | cons d before =>
          obtain ⟨rfl, rfl⟩ := List.cons.inj he
          exact ⟨before, after, ih.mpr ⟨rfl, fun hi => hno (List.infix_cons hi)⟩, rfl, rfl⟩

theorem cut?_eq_none {p t : Text} (h : ¬ p <:+: t) : cut? p t = none := by
  cases hc : cut? p t with
  | none => rfl
  | some r => exact absurd ⟨r.1, r.2, (cut?_eq_some hc).symm⟩ h

theorem contains_iff {p t : Text} : contains p t = true ↔ p <:+: t := by
  induction t with
  | nil => simp [contains]
  | cons c t ih =>
    have hstart : startsWith p (c :: t) = true ↔ p <+: c :: t := by
      rw [startsWith, Option.isSome_iff_exists]
      exact exists_congr fun rest => dropStart?_eq_some.trans eq_comm
    rw [contains, Bool.or_eq_true, hstart, ih, List.infix_cons_iff]

/-! ## Squeezed texts -/

variable {w : Text}

theorem dropStart?_squeeze (hw : IsSolid w) (t : Text) :
    dropStart? w (squeeze t) = (dropStart? w t).map squeeze := by
  induction w generalizing t with
  | nil => rw [dropStart?, dropStart?, Option.map_some]
  | cons d w ih =>
    have hd : TemplateFormat.isBlank d = false := hw d List.mem_cons_self
    have hrest : IsSolid w := fun e he => hw e (List.mem_cons_of_mem d he)
    cases t with
    | nil => rfl
    | cons c t =>
      cases hc : TemplateFormat.isBlank c with
      | true =>
        have hne : d ≠ c := (ne_of_isBlank hc hd).symm
        have hspace : d ≠ ' ' := (ne_of_isBlank (by decide) hd).symm
        rw [squeeze_cons_of_blank hc, dropStart?, if_neg hspace, dropStart?, if_neg hne,
          Option.map_none]
      | false =>
        rw [squeeze_cons_of_not_blank hc, dropStart?, dropStart?]
        split
        · exact ih hrest t
        · rfl

theorem dropEnding?_squeeze (hw : IsSolid w) (t : Text) :
    dropEnding? w (squeeze t) = (dropEnding? w t).map squeeze := by
  ext r
  rw [dropEnding?_eq_some, Option.map_eq_some_iff]
  simp only [dropEnding?_eq_some]
  constructor
  · intro h
    obtain ⟨p, u, rfl, hp, hu⟩ := squeeze_split h
    exact ⟨p, by rw [eq_of_squeeze_eq hw hu], hp⟩
  · rintro ⟨p, rfl, rfl⟩
    have hhead : ∀ c ∈ w.head?, TemplateFormat.isBlank c = false :=
      fun c hc => hw c (List.mem_of_mem_head? hc)
    rw [squeeze_append_of_head p hhead, squeeze_of_isSolid hw]

end Text

/-! ## The end of a word -/

/-- The code points of white space. -/
def blankCodes : List Nat :=
  [9, 10, 11, 12, 13, 0x20, 0x85, 0xa0, 0x1680, 0x2000, 0x2001, 0x2002, 0x2003, 0x2004, 0x2005,
    0x2006, 0x2007, 0x2008, 0x2009, 0x200a, 0x2028, 0x2029, 0x202f, 0x205f, 0x3000]

theorem mem_blankCodes {c : Char} (h : isBlank c = true) : c.toNat ∈ blankCodes := by
  simp only [isBlank, Bool.or_eq_true, Bool.and_eq_true, decide_eq_true_eq, beq_iff_eq] at h
  simp only [blankCodes, List.mem_cons, List.not_mem_nil, or_false]
  omega

/-- White space ends a word. -/
theorem isWord_of_isBlank {c : Char} (h : isBlank c = true) : isWord c = false := by
  have hcodes : ∀ n ∈ blankCodes, isWord (Char.ofNat n) = false := by decide +kernel
  have := hcodes _ (mem_blankCodes h)
  rwa [Char.ofNat_toNat] at this

theorem atWordEnd_squeeze (t : Text) : atWordEnd (Text.squeeze t) = atWordEnd t := by
  cases t with
  | nil => rfl
  | cons c t =>
    cases hc : isBlank c with
    | true =>
      rw [Text.squeeze_cons_of_blank hc, atWordEnd, atWordEnd, isWord_of_isBlank hc,
        isWord_of_isBlank (by decide)]
    | false => rw [Text.squeeze_cons_of_not_blank hc, atWordEnd, atWordEnd]

end TemplateFormat
