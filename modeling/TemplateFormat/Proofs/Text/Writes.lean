import TemplateFormat.Proofs.Text.Spacing

/-!
# What a text writes, white space apart

A stroke is a character of a literal that is no white space, or something that is written as one
piece. `Writes A t ss` says that the text `t` writes the strokes `ss`: the pieces with texts that
`A` allows, and white space alone between the strokes. So white space between strokes may come and
go; in a piece it may change, but not come or go, if `A` is `Firm`.

Results:
* `Writes.append`, `Writes.literal`: texts one after the other, and literals.
* `Writes.respaced`, `Writes.of_even`: other white space in the same places.
* `Writes.split`: the literal before the first piece, the piece, and the rest.
-/

namespace TemplateFormat

/-- A character of a literal, or a piece. -/
inductive Stroke (μ : Type) where
  | char (c : Char)
  | piece (m : μ)
deriving DecidableEq, Repr

variable {μ : Type}

/-- The text writes the strokes, the pieces with texts that `A` allows. -/
inductive Writes (A : Text → μ → Prop) : Text → List (Stroke μ) → Prop where
  | nil : Writes A [] []
  | gap {c : Char} {t : Text} {ss : List (Stroke μ)} :
      isBlank c = true → Writes A t ss → Writes A (c :: t) ss
  | char {c : Char} {t : Text} {ss : List (Stroke μ)} :
      isBlank c = false → Writes A t ss → Writes A (c :: t) (.char c :: ss)
  | piece {p t : Text} {m : μ} {ss : List (Stroke μ)} :
      A p m → Writes A t ss → Writes A (p ++ t) (.piece m :: ss)

/-- Pieces have no white space at their ends, and other white space in them changes nothing. -/
structure Firm (A : Text → μ → Prop) : Prop where
  ne_nil : ∀ p m, A p m → p ≠ []
  trimmed : ∀ p m, A p m → Text.Trimmed p
  respaced : ∀ p q m, A p m → Text.squeeze p = Text.squeeze q → A q m

/-- The strokes of a literal. -/
def literalStrokes (t : Text) : List (Stroke μ) := (Text.solid t).map .char

namespace Writes

variable {A : Text → μ → Prop} {s t : Text} {ss rs : List (Stroke μ)}

theorem append (h : Writes A s ss) (h' : Writes A t rs) : Writes A (s ++ t) (ss ++ rs) := by
  induction h with
  | nil => exact h'
  | gap hc _ ih => exact .gap hc ih
  | char hc _ ih => exact .char hc ih
  | piece hp _ ih =>
    rw [List.append_assoc]
    exact .piece hp ih

theorem gaps {b : Text} (hb : Text.isBlank b = true) (h : Writes A t ss) : Writes A (b ++ t) ss := by
  induction b with
  | nil => exact h
  | cons c b ih =>
    rw [Text.isBlank_cons, Bool.and_eq_true] at hb
    exact .gap hb.1 (ih hb.2)

theorem append_gaps {b : Text} (h : Writes A t ss) (hb : Text.isBlank b = true) :
    Writes A (t ++ b) ss := by
  have := h.append (Writes.nil.gaps hb)
  rwa [List.append_nil, List.append_nil] at this

/-- A literal writes its characters. -/
theorem literal (t : Text) : Writes A t (literalStrokes t) := by
  induction t with
  | nil => exact .nil
  | cons c t ih =>
    cases hc : isBlank c with
    | true =>
      rw [literalStrokes, Text.solid_cons_of_blank hc]
      exact .gap hc ih
    | false =>
      rw [literalStrokes, Text.solid_cons_of_not_blank hc]
      exact .char hc ih

theorem of_piece {p : Text} {m : μ} (h : A p m) : Writes A p [.piece m] := by
  have := Writes.piece h Writes.nil
  rwa [List.append_nil] at this

/-! ## White space at the ends -/

theorem drop_gap (hA : Firm A) {c : Char} (hc : isBlank c = true) (h : Writes A (c :: t) ss) :
    Writes A t ss := by
  generalize hx : c :: t = x at h
  cases h with
  | nil => exact absurd hx (by simp)
  | gap _ h => exact (List.cons.inj hx).2 ▸ h
  | char hd _ =>
    obtain ⟨rfl, -⟩ := List.cons.inj hx
    rw [hc] at hd
    exact absurd hd (by simp)
  | @piece p _ m _ hp _ =>
    obtain ⟨d, p, rfl⟩ := List.exists_cons_of_ne_nil (hA.ne_nil _ _ hp)
    obtain ⟨rfl, -⟩ := List.cons.inj hx
    have hd := (hA.trimmed _ _ hp).head c rfl
    rw [hc] at hd
    exact absurd hd (by simp)

/-- **White space at the start can be dropped.** -/
theorem drop_start (hA : Firm A) {b : Text} (hb : Text.isBlank b = true)
    (h : Writes A (b ++ t) ss) : Writes A t ss := by
  induction b with
  | nil => exact h
  | cons c b ih =>
    rw [Text.isBlank_cons, Bool.and_eq_true] at hb
    exact ih hb.2 (h.drop_gap hA hb.1)

/-- **White space at the end can be dropped.** -/
theorem drop_end (hA : Firm A) {b : Text} (hb : Text.isBlank b = true) (h : Writes A (t ++ b) ss) :
    Writes A t ss := by
  generalize hx : t ++ b = x at h
  induction h generalizing t b with
  | nil =>
    obtain ⟨rfl, -⟩ := List.append_eq_nil_iff.mp hx
    exact .nil
  | gap hc _ ih =>
    cases t with
    | nil =>
      rw [List.nil_append] at hx
      rw [hx, Text.isBlank_cons, Bool.and_eq_true] at hb
      exact ih hb.2 (List.nil_append _)
    | cons d t =>
      obtain ⟨rfl, hrest⟩ := List.cons.inj hx
      exact .gap hc (ih hb hrest)
  | char hc _ ih =>
    cases t with
    | nil =>
      rw [List.nil_append] at hx
      rw [hx, Text.isBlank_cons, hc] at hb
      exact absurd hb (by simp)
    | cons d t =>
      obtain ⟨rfl, hrest⟩ := List.cons.inj hx
      exact .char hc (ih hb hrest)
  | @piece p x m ss hp _ ih =>
    -- the white space cannot reach into the piece, which ends with another character
    rcases List.append_eq_append_iff.mp hx with ⟨u, rfl, hu⟩ | ⟨u, rfl, hu⟩
    · rcases List.eq_nil_or_concat u with rfl | ⟨u, d, rfl⟩
      · rw [List.append_nil] at hp
        have := Writes.piece hp (ih (t := []) hb hu)
        rwa [List.append_nil] at this
      · have hd := (hA.trimmed _ _ hp).last d (by simp)
        have hblank := Text.isBlank_iff.mp hb d (by rw [hu]; simp)
        rw [hblank] at hd
        exact absurd hd (by simp)
    · exact .piece hp (ih hb hu.symm)

/-! ## Other white space -/

/-- **White space may change where there is some.** -/
theorem respaced (hA : Firm A) (h : Writes A t ss) {t' : Text}
    (ht : Text.squeeze t = Text.squeeze t') : Writes A t' ss := by
  induction h generalizing t' with
  | nil =>
    obtain rfl := Text.eq_of_squeeze_eq (w := []) (by simp [Text.IsSolid]) ht.symm
    exact .nil
  | @gap c t ss hc h ih =>
    cases t' with
    | nil => exact absurd ht (by rw [Text.squeeze_cons_of_blank hc]; simp)
    | cons d t' =>
      rw [Text.squeeze_cons_of_blank hc] at ht
      cases hd : isBlank d with
      | false =>
        rw [Text.squeeze_cons_of_not_blank hd] at ht
        rw [← (List.cons.inj ht).1] at hd
        exact absurd hd (by decide)
      | true =>
        rcases Text.squeeze_eq_or t with hs | hs
        · -- the run of white space ends here, and so does that of the other text
          rw [Text.squeeze_cons_of_blank hd] at ht
          rw [(List.cons.inj ht).2, ← Text.squeeze_trimStart] at hs
          obtain ⟨b, hb, hb'⟩ := Text.eq_append_trimStart t'
          rw [hb']
          exact .gap hd ((ih hs).gaps hb)
        · exact ih (hs.trans ht)
  | @char c t ss hc _ ih =>
    rw [Text.squeeze_cons_of_not_blank hc, ← List.singleton_append] at ht
    obtain ⟨p, u, rfl, hp, hu⟩ := Text.squeeze_split ht.symm
    rw [Text.eq_of_squeeze_eq (by simpa [Text.IsSolid] using hc) hp]
    exact .char hc (ih hu.symm)
  | @piece p t m ss hp _ ih =>
    rw [Text.squeeze_append_of_last t (hA.trimmed p m hp).last] at ht
    obtain ⟨q, u, rfl, hq, hu⟩ := Text.squeeze_split ht.symm
    exact .piece (hA.respaced p q m hp hq.symm) (ih hu.symm)

/-- **White space may change where there is some, and at the ends.** -/
theorem of_even (hA : Firm A) (h : Writes A t ss) {t' : Text} (ht : Text.even t = Text.even t') :
    Writes A t' ss := by
  have hpadded : Writes A (' ' :: (t ++ [' '])) ss := .gap (by decide) (h.append_gaps (by decide))
  exact ((hpadded.respaced hA ht).drop_gap hA (by decide)).drop_end hA (by decide)

/-! ## Reading strokes -/

theorem solid_eq {cs : Text} (h : Writes A t (cs.map .char)) : Text.solid t = cs := by
  generalize hss : cs.map Stroke.char = ss at h
  induction h generalizing cs with
  | nil => rw [List.map_eq_nil_iff.mp hss, Text.solid_nil]
  | gap hc _ ih => rw [Text.solid_cons_of_blank hc, ih hss]
  | char hc _ ih =>
    obtain ⟨d, cs, rfl, hd, hrest⟩ := List.map_eq_cons_iff.mp hss
    rw [Text.solid_cons_of_not_blank hc, ih hrest, ← Stroke.char.inj hd]
  | piece _ _ _ =>
    obtain ⟨d, cs, -, hd, -⟩ := List.map_eq_cons_iff.mp hss
    exact absurd hd (by simp)

/-- **The literal before the first piece, the piece, and the rest.** -/
theorem split {cs : Text} {m : μ} (h : Writes A t (cs.map .char ++ .piece m :: ss)) :
    ∃ lead p rest, t = lead ++ (p ++ rest) ∧ Text.solid lead = cs ∧ A p m ∧ Writes A rest ss := by
  generalize hrs : cs.map Stroke.char ++ .piece m :: ss = rs at h
  induction h generalizing cs with
  | nil => exact absurd hrs (by simp)
  | @gap c t _ hc _ ih =>
    obtain ⟨lead, p, rest, rfl, hlead, hp, hrest⟩ := ih hrs
    exact ⟨c :: lead, p, rest, rfl, by rw [Text.solid_cons_of_blank hc, hlead], hp, hrest⟩
  | @char c t _ hc _ ih =>
    cases cs with
    | nil => exact absurd (List.cons.inj hrs).1 (by simp)
    | cons d cs =>
      obtain ⟨hd, htail⟩ := List.cons.inj hrs
      obtain ⟨lead, p, rest, rfl, hlead, hp, hrest⟩ := ih htail
      refine ⟨c :: lead, p, rest, rfl, ?_, hp, hrest⟩
      rw [Text.solid_cons_of_not_blank hc, hlead, Stroke.char.inj hd]
  | @piece p t m' _ hp h _ =>
    cases cs with
    | nil =>
      obtain ⟨hm, rfl⟩ := List.cons.inj hrs
      exact ⟨[], p, t, rfl, rfl, Stroke.piece.inj hm ▸ hp, h⟩
    | cons d cs => exact absurd (List.cons.inj hrs).1 (by simp)

end Writes

end TemplateFormat
