import TemplateFormat.Proofs.Text.Solid

/-!
# Texts that differ in their white space

`Text.squeeze` makes each run of white space one space, so two texts that are squeezed to the same
text have the same words with white space between the same words. `Text.even` also puts a space at
both ends, so white space there does not count.

What can be found in a text without looking at more than one word at a time can be found in the
squeezed text: a squeezed text can be cut wherever the text can (`squeeze_split`), and words stand
in both or in none (`infix_squeeze`).

Results:
* `squeeze_split`: where a squeezed text is cut, the text can be cut.
* `squeeze_trimStart`, `squeeze_trimEnd`: trimming, before or after.
* `infix_squeeze`: the words of a text are those of the squeezed text.
* `even_append`: texts with white space between them.
-/

namespace TemplateFormat

namespace Text

/-! ## Trimmed texts -/

@[simp] theorem isBlank_reverse (t : Text) : isBlank t.reverse = isBlank t := List.all_reverse

/-- No white space at either end. -/
structure Trimmed (t : Text) : Prop where
  head : ∀ c ∈ t.head?, TemplateFormat.isBlank c = false
  last : ∀ c ∈ t.getLast?, TemplateFormat.isBlank c = false

theorem trimStart_append {b s : Text} (hb : isBlank b = true)
    (hs : ∀ c ∈ s.head?, TemplateFormat.isBlank c = false) : trimStart (b ++ s) = s := by
  rw [trimStart, List.dropWhile_append_of_pos (isBlank_iff.mp hb)]
  cases s with
  | nil => rfl
  | cons c s => rw [List.dropWhile_cons_of_neg (by simp [hs c rfl])]

theorem trimStart_eq {s : Text} (hs : ∀ c ∈ s.head?, TemplateFormat.isBlank c = false) :
    trimStart s = s :=
  trimStart_append (b := []) rfl hs

theorem trimEnd_append {s b : Text} (hb : isBlank b = true)
    (hs : ∀ c ∈ s.getLast?, TemplateFormat.isBlank c = false) : trimEnd (s ++ b) = s := by
  have hrev : isBlank b.reverse = true := by rwa [isBlank_reverse]
  have hstart : trimStart (b.reverse ++ s.reverse) = s.reverse :=
    trimStart_append hrev (by rwa [List.head?_reverse])
  rw [trimEnd, trimEndBy, List.reverse_append]
  exact (congrArg List.reverse hstart).trans (List.reverse_reverse s)

theorem head_trimStart (t : Text) : ∀ c ∈ (trimStart t).head?, TemplateFormat.isBlank c = false := by
  intro c hc
  have := List.head?_dropWhile_not TemplateFormat.isBlank t
  rw [trimStart] at hc
  rw [Option.mem_def.mp hc] at this
  simpa using this

theorem last_trimEnd (t : Text) : ∀ c ∈ (trimEnd t).getLast?, TemplateFormat.isBlank c = false := by
  intro c hc
  rw [trimEnd, trimEndBy, List.getLast?_reverse] at hc
  exact head_trimStart t.reverse c hc

/-- More white space at the end is taken off with it. -/
theorem trimEnd_append_isBlank {b : Text} (hb : isBlank b = true) (s : Text) :
    trimEnd (s ++ b) = trimEnd s := by
  obtain ⟨e, he, heq⟩ := eq_append_trimEnd s
  have hboth : isBlank (e ++ b) = true := by
    rw [isBlank_append, he, hb]
    rfl
  conv_lhs => rw [heq, List.append_assoc]
  exact trimEnd_append hboth (last_trimEnd s)

/-- What a text starts with does not start with white space if the text does not. -/
theorem head_of_isPrefix {s t : Text} (hs : s <+: t)
    (ht : ∀ c ∈ t.head?, TemplateFormat.isBlank c = false) :
    ∀ c ∈ s.head?, TemplateFormat.isBlank c = false := by
  intro c hc
  obtain ⟨r, rfl⟩ := hs
  refine ht c ?_
  rwa [List.head?_append_of_ne_nil _ (List.ne_nil_of_mem (List.mem_of_mem_head? hc))]

theorem trimEnd_isPrefix (t : Text) : trimEnd t <+: t := by
  obtain ⟨b, -, he⟩ := eq_append_trimEnd t
  exact ⟨b, he.symm⟩

theorem trimmed_trim (t : Text) : Trimmed (trim t) :=
  ⟨head_of_isPrefix (trimEnd_isPrefix (trimStart t)) (head_trimStart t), last_trimEnd (trimStart t)⟩

theorem trimStart_cons_of_blank {c : Char} (h : TemplateFormat.isBlank c = true) (t : Text) :
    trimStart (c :: t) = trimStart t :=
  List.dropWhile_cons_of_pos h

theorem trim_of_trimmed {t : Text} (h : Trimmed t) : trim t = t := by
  have hend := trimEnd_append (b := []) rfl h.last
  rw [List.append_nil] at hend
  exact (congrArg trimEnd (trimStart_eq h.head)).trans hend

theorem trim_isBlank_append {b : Text} (hb : isBlank b = true) (t : Text) :
    trim (b ++ t) = trim t :=
  congrArg trimEnd (List.dropWhile_append_of_pos (isBlank_iff.mp hb))

theorem trim_of_isBlank {b : Text} (hb : isBlank b = true) : trim b = [] := by
  have h := trim_isBlank_append hb []
  rwa [List.append_nil] at h

theorem trim_append_isBlank {b : Text} (hb : isBlank b = true) (t : Text) :
    trim (t ++ b) = trim t := by
  obtain ⟨x, y, hx, hy, ht⟩ := eq_append_trim t
  by_cases hnil : trim t = []
  · rw [trim_of_isBlank, hnil]
    rw [isBlank_append, isBlank_of_trim_eq_nil hnil, hb]
    rfl
  · have hhead : ∀ c ∈ (trim t ++ (y ++ b)).head?, TemplateFormat.isBlank c = false := by
      rw [List.head?_append_of_ne_nil _ hnil]
      exact (trimmed_trim t).head
    have hblank : isBlank (y ++ b) = true := by
      rw [isBlank_append, hy, hb]
      rfl
    calc trim (t ++ b) = trim (x ++ (trim t ++ (y ++ b))) := by
          conv_lhs => rw [ht]
          simp only [List.append_assoc]
      _ = trimEnd (trim t ++ (y ++ b)) := congrArg trimEnd (trimStart_append hx hhead)
      _ = trim t := trimEnd_append hblank (trimmed_trim t).last

@[simp] theorem trimStart_trimStart (t : Text) : trimStart (trimStart t) = trimStart t :=
  trimStart_eq (head_trimStart t)

/-! ## Squeezing -/

/-- The text with each run of white space made one space. -/
def squeeze : Text → Text
  | [] => []
  | c :: t => if TemplateFormat.isBlank c then ' ' :: trimStart (squeeze t) else c :: squeeze t

@[simp] theorem squeeze_nil : squeeze [] = [] := rfl

theorem squeeze_cons_of_blank {c : Char} (h : TemplateFormat.isBlank c = true) (t : Text) :
    squeeze (c :: t) = ' ' :: trimStart (squeeze t) :=
  if_pos h

theorem squeeze_cons_of_not_blank {c : Char} (h : TemplateFormat.isBlank c = false) (t : Text) :
    squeeze (c :: t) = c :: squeeze t :=
  if_neg (by simp [h])

/-- What comes before can be squeezed after. -/
theorem squeeze_append_congr {t t' : Text} (s : Text) (h : squeeze t = squeeze t') :
    squeeze (s ++ t) = squeeze (s ++ t') := by
  induction s with
  | nil => exact h
  | cons c s ih =>
    rw [List.cons_append, List.cons_append, squeeze, squeeze, ih]

theorem trimStart_squeeze_append (s t : Text) :
    trimStart (squeeze (trimStart s ++ t)) = trimStart (squeeze (s ++ t)) := by
  induction s with
  | nil => rfl
  | cons c s ih =>
    cases hc : TemplateFormat.isBlank c with
    | true =>
      rw [trimStart_cons_of_blank hc, ih, List.cons_append, squeeze_cons_of_blank hc,
        trimStart_cons_of_blank (by decide), trimStart_trimStart]
    | false => rw [trimStart_eq (s := c :: s) (by simp [hc])]

theorem squeeze_squeeze_append (s t : Text) : squeeze (squeeze s ++ t) = squeeze (s ++ t) := by
  induction s with
  | nil => rfl
  | cons c s ih =>
    cases hc : TemplateFormat.isBlank c with
    | true =>
      rw [squeeze_cons_of_blank hc, List.cons_append, List.cons_append,
        squeeze_cons_of_blank (by decide), squeeze_cons_of_blank hc, trimStart_squeeze_append, ih]
    | false =>
      rw [squeeze_cons_of_not_blank hc, List.cons_append, List.cons_append,
        squeeze_cons_of_not_blank hc, squeeze_cons_of_not_blank hc, ih]

/-- What comes behind can be squeezed after. -/
theorem squeeze_congr_append {s s' : Text} (h : squeeze s = squeeze s') (t : Text) :
    squeeze (s ++ t) = squeeze (s' ++ t) := by
  rw [← squeeze_squeeze_append s, h, squeeze_squeeze_append]

theorem squeeze_isBlank_append {b : Text} (hb : isBlank b = true) (hne : b ≠ []) (t : Text) :
    squeeze (b ++ t) = ' ' :: trimStart (squeeze t) := by
  induction b with
  | nil => exact absurd rfl hne
  | cons c b ih =>
    rw [isBlank_cons, Bool.and_eq_true] at hb
    rw [List.cons_append, squeeze_cons_of_blank hb.1]
    cases b with
    | nil => rfl
    | cons d b => rw [ih hb.2 (by simp), trimStart_cons_of_blank (by decide), trimStart_trimStart]

/-- Runs of white space at one place are squeezed to the same space. -/
theorem squeeze_isBlank_congr {b b' : Text} (hb : isBlank b = true) (hne : b ≠ [])
    (hb' : isBlank b' = true) (hne' : b' ≠ []) (t : Text) :
    squeeze (b ++ t) = squeeze (b' ++ t) := by
  rw [squeeze_isBlank_append hb hne, squeeze_isBlank_append hb' hne']

theorem squeeze_append_isBlank_congr (s : Text) {b b' : Text} (hb : isBlank b = true) (hne : b ≠ [])
    (hb' : isBlank b' = true) (hne' : b' ≠ []) : squeeze (s ++ b) = squeeze (s ++ b') := by
  have := squeeze_isBlank_congr hb hne hb' hne' []
  rw [List.append_nil, List.append_nil] at this
  exact squeeze_append_congr s this

/-- A squeezed text has one space at its start, or none. -/
theorem squeeze_eq_or (t : Text) : squeeze t = trimStart (squeeze t) ∨
    squeeze t = ' ' :: trimStart (squeeze t) := by
  cases t with
  | nil => exact .inl rfl
  | cons c t =>
    cases hc : TemplateFormat.isBlank c with
    | true =>
      right
      rw [squeeze_cons_of_blank hc, trimStart_cons_of_blank (by decide), trimStart_trimStart]
    | false =>
      left
      rw [squeeze_cons_of_not_blank hc]
      exact (trimStart_eq (by simp [hc])).symm

/-- **Where a squeezed text is cut, the text can be cut.** -/
theorem squeeze_split : ∀ {t x y : Text}, squeeze t = x ++ y →
    ∃ p u, t = p ++ u ∧ squeeze p = x ∧ squeeze u = y
  | [], x, y, h => by
    obtain ⟨rfl, rfl⟩ := List.append_eq_nil_iff.mp h.symm
    exact ⟨[], [], rfl, rfl, rfl⟩
  | c :: t, [], y, h => ⟨[], c :: t, rfl, rfl, h⟩
  | c :: t, d :: x, y, h => by
    cases hc : TemplateFormat.isBlank c with
    | false =>
      rw [squeeze_cons_of_not_blank hc, List.cons_append] at h
      obtain ⟨rfl, hrest⟩ := List.cons.inj h
      obtain ⟨p, u, rfl, hp, hu⟩ := squeeze_split hrest
      exact ⟨c :: p, u, rfl, by rw [squeeze_cons_of_not_blank hc, hp], hu⟩
    | true =>
      rw [squeeze_cons_of_blank hc, List.cons_append] at h
      obtain ⟨rfl, hrest⟩ := List.cons.inj h
      have hx : trimStart x = x := by
        refine trimStart_eq fun e he => ?_
        cases x with
        | nil => exact absurd he (by simp)
        | cons e' x => exact head_trimStart (squeeze t) e (by rw [hrest]; exact he)
      -- the rest of the run of white space goes to the left part
      rcases squeeze_eq_or t with ht | ht
      · rw [hrest] at ht
        obtain ⟨p, u, rfl, hp, hu⟩ := squeeze_split ht
        exact ⟨c :: p, u, rfl, by rw [squeeze_cons_of_blank hc, hp, hx], hu⟩
      · rw [hrest, ← List.cons_append] at ht
        obtain ⟨p, u, rfl, hp, hu⟩ := squeeze_split ht
        refine ⟨c :: p, u, rfl, ?_, hu⟩
        rw [squeeze_cons_of_blank hc, hp, trimStart_cons_of_blank (by decide), hx]

theorem trimStart_append_of_head {t : Text} (s : Text)
    (ht : ∀ c ∈ t.head?, TemplateFormat.isBlank c = false) :
    trimStart (s ++ t) = trimStart s ++ t := by
  induction s with
  | nil => exact trimStart_eq ht
  | cons c s ih =>
    cases hc : TemplateFormat.isBlank c with
    | true => rw [List.cons_append, trimStart_cons_of_blank hc, trimStart_cons_of_blank hc, ih]
    | false => rw [trimStart_eq (by simp [hc]), trimStart_eq (by simp [hc])]

theorem head?_squeeze {t : Text} (ht : ∀ c ∈ t.head?, TemplateFormat.isBlank c = false) :
    (squeeze t).head? = t.head? := by
  cases t with
  | nil => rfl
  | cons c t =>
    rw [squeeze_cons_of_not_blank (ht c rfl)]
    rfl

/-- A text that does not start with white space is squeezed apart from what comes before. -/
theorem squeeze_append_of_head {t : Text} (s : Text)
    (ht : ∀ c ∈ t.head?, TemplateFormat.isBlank c = false) :
    squeeze (s ++ t) = squeeze s ++ squeeze t := by
  induction s with
  | nil => rfl
  | cons c s ih =>
    cases hc : TemplateFormat.isBlank c with
    | false =>
      rw [List.cons_append, squeeze_cons_of_not_blank hc, squeeze_cons_of_not_blank hc, ih]
      rfl
    | true =>
      rw [List.cons_append, squeeze_cons_of_blank hc, squeeze_cons_of_blank hc, ih,
        trimStart_append_of_head _ (by rwa [head?_squeeze ht])]
      rfl

theorem squeeze_append_cons {c : Char} (hc : TemplateFormat.isBlank c = false) (s t : Text) :
    squeeze (s ++ c :: t) = squeeze s ++ c :: squeeze t := by
  rw [squeeze_append_of_head s (by simpa using hc), squeeze_cons_of_not_blank hc]

/-- A text that does not end with white space is squeezed apart from what comes behind. -/
theorem squeeze_append_of_last {s : Text} (t : Text)
    (hs : ∀ c ∈ s.getLast?, TemplateFormat.isBlank c = false) :
    squeeze (s ++ t) = squeeze s ++ squeeze t := by
  rcases List.eq_nil_or_concat s with rfl | ⟨s, c, rfl⟩
  · rfl
  · have hc : TemplateFormat.isBlank c = false := hs c (by simp)
    rw [List.concat_eq_append, List.append_assoc, List.singleton_append, squeeze_append_cons hc,
      squeeze_append_cons hc, List.append_assoc]
    rfl

theorem getLast?_squeeze {t : Text} (ht : ∀ c ∈ t.getLast?, TemplateFormat.isBlank c = false) :
    (squeeze t).getLast? = t.getLast? := by
  rcases List.eq_nil_or_concat t with rfl | ⟨t, c, rfl⟩
  · rfl
  · have hc : TemplateFormat.isBlank c = false := ht c (by simp)
    rw [List.concat_eq_append, squeeze_append_of_head t (by simpa using hc),
      squeeze_cons_of_not_blank hc]
    simp

/-! ## Trimming -/

theorem squeeze_trimStart (t : Text) : squeeze (trimStart t) = trimStart (squeeze t) := by
  induction t with
  | nil => rfl
  | cons c t ih =>
    cases hc : TemplateFormat.isBlank c with
    | true =>
      rw [trimStart_cons_of_blank hc, ih, squeeze_cons_of_blank hc,
        trimStart_cons_of_blank (by decide), trimStart_trimStart]
    | false =>
      rw [trimStart_eq (by simp [hc]), squeeze_cons_of_not_blank hc, trimStart_eq (by simp [hc])]

theorem squeeze_trimEnd (t : Text) : squeeze (trimEnd t) = trimEnd (squeeze t) := by
  obtain ⟨b, hb, ht⟩ := eq_append_trimEnd t
  have hlast := last_trimEnd t
  generalize trimEnd t = s at ht hlast
  subst ht
  have hsqueeze : isBlank (squeeze b) = true := by
    by_cases hne : b = []
    · rw [hne]
      rfl
    · have := squeeze_isBlank_append hb hne []
      rw [List.append_nil] at this
      rw [this]
      rfl
  rw [squeeze_append_of_last b hlast, trimEnd_append hsqueeze (by rwa [getLast?_squeeze hlast])]

/-! ## Words -/

theorem squeeze_of_isSolid {t : Text} (h : IsSolid t) : squeeze t = t := by
  induction t with
  | nil => rfl
  | cons c t ih =>
    rw [squeeze_cons_of_not_blank (h c List.mem_cons_self),
      ih fun d hd => h d (List.mem_cons_of_mem c hd)]

/-- Only a word is squeezed to a word. -/
theorem eq_of_squeeze_eq {t w : Text} (hw : IsSolid w) (h : squeeze t = w) : t = w := by
  induction t generalizing w with
  | nil => exact h
  | cons c t ih =>
    cases hc : TemplateFormat.isBlank c with
    | true =>
      rw [squeeze_cons_of_blank hc] at h
      have := hw ' ' (h ▸ List.mem_cons_self)
      exact absurd this (by decide)
    | false =>
      rw [squeeze_cons_of_not_blank hc] at h
      subst h
      exact congrArg (c :: ·) (ih (fun d hd => hw d (List.mem_cons_of_mem c hd)) rfl)

theorem solid_trimStart (t : Text) : solid (trimStart t) = solid t := by
  obtain ⟨b, hb, ht⟩ := eq_append_trimStart t
  conv_rhs => rw [ht, solid_append, solid_of_isBlank hb, List.nil_append]

@[simp] theorem solid_squeeze (t : Text) : solid (squeeze t) = solid t := by
  induction t with
  | nil => rfl
  | cons c t ih =>
    cases hc : TemplateFormat.isBlank c with
    | true =>
      rw [squeeze_cons_of_blank hc, solid_cons_of_blank (by decide), solid_trimStart, ih,
        solid_cons_of_blank hc]
    | false =>
      rw [squeeze_cons_of_not_blank hc, solid_cons_of_not_blank hc, ih,
        solid_cons_of_not_blank hc]

/-- A word is squeezed apart from what stands around it. -/
theorem squeeze_append_word {w : Text} (hw : IsSolid w) (hne : w ≠ []) (s t : Text) :
    squeeze (s ++ (w ++ t)) = squeeze s ++ (w ++ squeeze t) := by
  have hhead : ∀ c ∈ (w ++ t).head?, TemplateFormat.isBlank c = false := by
    rw [List.head?_append_of_ne_nil _ hne]
    exact fun c hc => hw c (List.mem_of_mem_head? hc)
  rw [squeeze_append_of_head s hhead,
    squeeze_append_of_last t fun c hc => hw c (List.mem_of_getLast? hc), squeeze_of_isSolid hw]

/-- **The words of a text are those of the squeezed text.** -/
theorem infix_squeeze {w t : Text} (hw : IsSolid w) : w <:+: squeeze t ↔ w <:+: t := by
  constructor
  · rintro ⟨x, y, h⟩
    rw [List.append_assoc] at h
    obtain ⟨p, u, rfl, -, hu⟩ := squeeze_split h.symm
    obtain ⟨v, r, rfl, hv, -⟩ := squeeze_split hu
    rw [eq_of_squeeze_eq hw hv, ← List.append_assoc]
    exact List.infix_append p w r
  · rintro ⟨x, y, rfl⟩
    by_cases hne : w = []
    · exact hne ▸ List.nil_infix
    · rw [List.append_assoc, squeeze_append_word hw hne, ← List.append_assoc]
      exact List.infix_append ..

/-! ## White space at the ends -/

/-- The text with each run of white space made one space, and a space at both ends. -/
def even (t : Text) : Text := squeeze (' ' :: (t ++ [' ']))

theorem even_isBlank_append {b : Text} (hb : isBlank b = true) (t : Text) :
    even (b ++ t) = even t := by
  have hstart : squeeze ((' ' :: b) ++ (t ++ [' '])) = squeeze ([' '] ++ (t ++ [' '])) :=
    squeeze_isBlank_congr (by rw [isBlank_cons, hb]; rfl) (by simp) rfl (by simp) _
  rw [List.cons_append, ← List.append_assoc] at hstart
  exact hstart

theorem even_append_isBlank {b : Text} (hb : isBlank b = true) (t : Text) :
    even (t ++ b) = even t := by
  have hend : squeeze ((' ' :: t) ++ (b ++ [' '])) = squeeze ((' ' :: t) ++ [' ']) :=
    squeeze_append_isBlank_congr _ (by rw [isBlank_append, hb]; rfl) (by simp) rfl (by simp)
  rwa [List.cons_append, ← List.append_assoc] at hend

theorem squeeze_eq_even {t : Text} (ht : StartsBlank t) : squeeze (t ++ [' ']) = even t := by
  cases t with
  | nil => rfl
  | cons c t =>
    show squeeze ([c] ++ (t ++ [' '])) = squeeze ([' ', c] ++ (t ++ [' ']))
    have hc := ht c rfl
    have hspace : TemplateFormat.isBlank ' ' = true := by decide
    exact squeeze_isBlank_congr (by simp [hc]) (by simp) (by simp [hc, hspace]) (by simp) _

/-- **Texts with white space between them.** -/
theorem even_append (s : Text) {t t' : Text} (ht : StartsBlank t) (ht' : StartsBlank t')
    (h : even t = even t') : even (s ++ t) = even (s ++ t') := by
  rw [← squeeze_eq_even ht, ← squeeze_eq_even ht'] at h
  have := squeeze_append_congr (' ' :: s) h
  rwa [List.cons_append, ← List.append_assoc, List.cons_append, ← List.append_assoc] at this

/-- Where there is no white space at the ends, only that inside is made even. -/
theorem even_of_trimmed {t : Text} (ht : Trimmed t) (hne : t ≠ []) :
    even t = ' ' :: (squeeze t ++ [' ']) := by
  have hsqueeze : squeeze (t ++ [' ']) = squeeze t ++ [' '] :=
    squeeze_append_of_last [' '] ht.last
  rw [even, squeeze_cons_of_blank (by decide), hsqueeze]
  congr 1
  refine trimStart_eq ?_
  obtain ⟨c, s, rfl⟩ := List.exists_cons_of_ne_nil hne
  rw [squeeze_cons_of_not_blank (ht.head c rfl)]
  exact ht.head

theorem squeeze_eq_of_even_eq {s t : Text} (hs : Trimmed s) (ht : Trimmed t)
    (h : even s = even t) : squeeze s = squeeze t := by
  have hempty : ∀ {u : Text}, Trimmed u → even u = [' '] → u = [] := by
    intro u hu he
    by_contra hne
    rw [even_of_trimmed hu hne] at he
    exact absurd he (by simp)
  by_cases hsn : s = []
  · rw [hsn] at h
    rw [hsn, hempty ht h.symm]
  · by_cases htn : t = []
    · rw [htn] at h
      rw [htn, hempty hs h]
    · rw [even_of_trimmed hs hsn, even_of_trimmed ht htn] at h
      exact List.append_cancel_right (List.cons.inj h).2

end Text

end TemplateFormat
