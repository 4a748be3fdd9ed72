import TemplateFormat.Text.Blank
import Mathlib.Data.List.Forall2
import Mathlib.Data.List.Infix
import Mathlib.Data.List.TakeWhile

/-!
# Texts without their white space

`Text.solid` deletes the white space of a text. Trimming, cutting into lines and bringing line
ends to one form only take white space away, and these lemmas say which.

Results:
* `eq_append_trimEnd`, `eq_append_trim`: a text is its trimmed form with white space at the ends.
* `unlines_lines`, `lines_unlines`: the lines of a text, with line feeds between them, are the text.
* `lines_replace_crlf`: bringing line ends to one form takes a carriage return off the ends of
  lines.
-/

namespace TemplateFormat

theorem ne_of_isBlank {c d : Char} (hc : isBlank c = true) (hd : isBlank d = false) : c ≠ d := by
  rintro rfl
  exact absurd (hc.symm.trans hd) (by decide)

theorem isBlank_of_isSpace {c : Char} (h : isSpace c = true) : isBlank c = true := by
  simp only [isSpace, Bool.or_eq_true, beq_iff_eq] at h
  rcases h with rfl | rfl <;> decide

theorem isSpace_eq_false {c : Char} (h : isBlank c = false) : isSpace c = false := by
  by_contra hspace
  rw [Bool.not_eq_false] at hspace
  rw [isBlank_of_isSpace hspace] at h
  exact absurd h (by decide)

namespace Text

/-! ## Blank texts -/

theorem isBlank_iff {t : Text} : isBlank t = true ↔ ∀ c ∈ t, TemplateFormat.isBlank c = true :=
  List.all_eq_true

@[simp] theorem isBlank_nil : isBlank [] = true := rfl

@[simp] theorem isBlank_cons (c : Char) (t : Text) :
    isBlank (c :: t) = (TemplateFormat.isBlank c && isBlank t) := rfl

@[simp] theorem isBlank_append (s t : Text) : isBlank (s ++ t) = (isBlank s && isBlank t) :=
  List.all_append

@[simp] theorem solid_nil : solid [] = [] := rfl

@[simp] theorem solid_append (s t : Text) : solid (s ++ t) = solid s ++ solid t :=
  List.filter_append ..

theorem solid_cons_of_blank {c : Char} (h : TemplateFormat.isBlank c = true) (t : Text) :
    solid (c :: t) = solid t := by
  simp [solid, h]

theorem solid_cons_of_not_blank {c : Char} (h : TemplateFormat.isBlank c = false) (t : Text) :
    solid (c :: t) = c :: solid t := by
  simp [solid, h]

@[simp] theorem solid_of_isBlank {t : Text} (h : isBlank t = true) : solid t = [] := by
  rw [solid, List.filter_eq_nil_iff]
  intro c hc
  simp [isBlank_iff.mp h c hc]

/-- The text has no white space in it. -/
def IsSolid (t : Text) : Prop := ∀ c ∈ t, TemplateFormat.isBlank c = false

instance (t : Text) : Decidable (IsSolid t) := List.decidableBAll _ t

/-- The first character, if there is one, is white space. -/
def StartsBlank (t : Text) : Prop := ∀ c ∈ t.head?, TemplateFormat.isBlank c = true

theorem startsBlank_of_isBlank {t : Text} (h : isBlank t = true) : StartsBlank t :=
  fun c hc => isBlank_iff.mp h c (List.mem_of_mem_head? hc)

theorem startsBlank_cons {c : Char} (h : TemplateFormat.isBlank c = true) (t : Text) :
    StartsBlank (c :: t) := by
  intro d hd
  obtain rfl := Option.some.inj hd
  exact h

theorem startsBlank_append {s t : Text} (hs : StartsBlank s) (ht : StartsBlank t) :
    StartsBlank (s ++ t) := by
  cases s with
  | nil => exact ht
  | cons c s => exact startsBlank_cons (hs c rfl) (s ++ t)

theorem solid_reverse (t : Text) : solid t.reverse = (solid t).reverse := List.filter_reverse

/-! ## Trimming -/

theorem eq_append_trimEndBy (p : Char → Bool) (t : Text) :
    t = trimEndBy p t ++ (t.reverse.takeWhile p).reverse := by
  rw [trimEndBy, ← List.reverse_append, List.takeWhile_append_dropWhile, List.reverse_reverse]

/-- White space was taken off the end. -/
theorem eq_append_trimEnd (t : Text) : ∃ b, isBlank b = true ∧ t = trimEnd t ++ b := by
  refine ⟨_, isBlank_iff.mpr fun c hc => ?_, eq_append_trimEndBy TemplateFormat.isBlank t⟩
  exact List.mem_takeWhile_imp (List.mem_reverse.mp hc)

/-- White space was taken off the start. -/
theorem eq_append_trimStart (t : Text) : ∃ b, isBlank b = true ∧ t = b ++ trimStart t :=
  ⟨t.takeWhile TemplateFormat.isBlank, isBlank_iff.mpr fun _ hc => List.mem_takeWhile_imp hc,
    List.takeWhile_append_dropWhile.symm⟩

/-- White space was taken off both ends. -/
theorem eq_append_trim (t : Text) :
    ∃ b b', isBlank b = true ∧ isBlank b' = true ∧ t = b ++ trim t ++ b' := by
  obtain ⟨b, hb, hs⟩ := eq_append_trimStart t
  obtain ⟨b', hb', he⟩ := eq_append_trimEnd (trimStart t)
  refine ⟨b, b', hb, hb', ?_⟩
  rw [List.append_assoc]
  exact hs.trans (congrArg (b ++ ·) he)

@[simp] theorem solid_trimEnd (t : Text) : solid (trimEnd t) = solid t := by
  obtain ⟨b, hb, he⟩ := eq_append_trimEnd t
  conv_rhs => rw [he, solid_append, solid_of_isBlank hb, List.append_nil]

@[simp] theorem solid_trim (t : Text) : solid (trim t) = solid t := by
  obtain ⟨b, b', hb, hb', he⟩ := eq_append_trim t
  conv_rhs => rw [he, solid_append, solid_append, solid_of_isBlank hb, solid_of_isBlank hb',
    List.append_nil, List.nil_append]

theorem trimEnd_isInfix (t : Text) : trimEnd t <:+: t := by
  obtain ⟨b, -, he⟩ := eq_append_trimEnd t
  exact ⟨[], b, he.symm⟩

theorem trim_isInfix (t : Text) : trim t <:+: t := by
  obtain ⟨b, b', -, -, he⟩ := eq_append_trim t
  exact ⟨b, b', he.symm⟩

/-- A text from which trimming leaves nothing is blank. -/
theorem isBlank_of_trim_eq_nil {t : Text} (h : trim t = []) : isBlank t = true := by
  obtain ⟨b, b', hb, hb', he⟩ := eq_append_trim t
  rw [he, h, List.append_nil, isBlank_append, hb, hb']
  rfl

theorem trim_ne_nil {t : Text} (h : isBlank t = false) : trim t ≠ [] :=
  fun hnil => absurd (h.symm.trans (isBlank_of_trim_eq_nil hnil)) (by decide)

/-- A text that is not blank has characters that are no white space. -/
theorem solid_ne_nil {t : Text} (h : isBlank t = false) : solid t ≠ [] := by
  intro hnil
  obtain ⟨c, hc, hblank⟩ := List.all_eq_false.mp h
  have hmem : c ∈ solid t := List.mem_filter.mpr ⟨hc, by simpa using hblank⟩
  rw [hnil] at hmem
  exact absurd hmem List.not_mem_nil

/-! ## Lines -/

/-- The lines with a line feed between each two. -/
def unlines : List Text → Text
  | [] => []
  | [l] => l
  | l :: ls => l ++ '\n' :: unlines ls

theorem unlines_cons_cons (l m : Text) (ls : List Text) :
    unlines (l :: m :: ls) = l ++ '\n' :: unlines (m :: ls) := rfl

theorem unlines_cons (l : Text) {ls : List Text} (h : ls ≠ []) :
    unlines (l :: ls) = l ++ '\n' :: unlines ls := by
  obtain ⟨m, ms, rfl⟩ := List.exists_cons_of_ne_nil h
  rfl

theorem lines_ne_nil (t : Text) : lines t ≠ [] := splitOn_ne_nil '\n' t

theorem lines_newline (t : Text) : lines ('\n' :: t) = [] :: lines t := by
  simp [lines, splitOn]

/-- A character other than a line feed belongs to the first line. -/
theorem lines_cons {c : Char} (hc : c ≠ '\n') {t l : Text} {ls : List Text}
    (h : lines t = l :: ls) : lines (c :: t) = (c :: l) :: ls := by
  unfold lines at h ⊢
  rw [splitOn, if_neg hc, h]

/-- **The lines of a text, with line feeds between them, are the text.** -/
theorem unlines_lines (t : Text) : unlines (lines t) = t := by
  induction t with
  | nil => rfl
  | cons c t ih =>
    by_cases hc : c = '\n'
    · rw [hc, lines_newline, unlines_cons [] (lines_ne_nil t), ih]
      rfl
    · obtain ⟨l, ls, hl⟩ := List.exists_cons_of_ne_nil (lines_ne_nil t)
      rw [hl] at ih
      rw [lines_cons hc hl]
      cases ls with
      | nil => exact congrArg (c :: ·) ih
      | cons m ms =>
        rw [unlines_cons_cons] at ih ⊢
        rw [List.cons_append, ih]

/-- A line has no line feed. -/
theorem not_mem_line {l : Text} : ∀ {t : Text}, l ∈ lines t → '\n' ∉ l
  | [], h => by
    rw [List.mem_singleton.mp h]
    exact List.not_mem_nil
  | c :: t, h => by
    by_cases hc : c = '\n'
    · rw [hc, lines_newline] at h
      rcases List.mem_cons.mp h with rfl | h
      · exact List.not_mem_nil
      · exact not_mem_line h
    · obtain ⟨m, ms, hm⟩ := List.exists_cons_of_ne_nil (lines_ne_nil t)
      rw [lines_cons hc hm] at h
      rcases List.mem_cons.mp h with rfl | h
      · rw [List.mem_cons, not_or]
        exact ⟨Ne.symm hc, not_mem_line (hm ▸ List.mem_cons_self)⟩
      · exact not_mem_line (hm ▸ List.mem_cons_of_mem m h)

theorem unlines_cons_eq (l : Text) (ls : List Text) :
    unlines (l :: ls) = l ++ ls.flatMap ('\n' :: ·) := by
  induction ls generalizing l with
  | nil => rw [List.flatMap_nil, List.append_nil]; rfl
  | cons m ls ih => rw [unlines_cons_cons, ih, List.flatMap_cons]; rfl

theorem unlines_concat (first : Text) (ls : List Text) (l : Text) :
    unlines (first :: (ls ++ [l])) = unlines (first :: ls) ++ '\n' :: l := by
  rw [unlines_cons_eq, unlines_cons_eq, List.flatMap_append, List.append_assoc]
  simp

theorem lines_of_notMem {t : Text} (h : '\n' ∉ t) : lines t = [t] := by
  induction t with
  | nil => rfl
  | cons c t ih =>
    rw [List.mem_cons, not_or] at h
    exact lines_cons (Ne.symm h.1) (ih h.2)

/-- A line feed between two texts parts their lines. -/
theorem lines_append (s t : Text) : lines (s ++ '\n' :: t) = lines s ++ lines t := by
  induction s with
  | nil => exact lines_newline t
  | cons c s ih =>
    by_cases hc : c = '\n'
    · rw [hc, List.cons_append, lines_newline, lines_newline, ih]
      rfl
    · obtain ⟨l, ls, hl⟩ := List.exists_cons_of_ne_nil (lines_ne_nil s)
      rw [hl] at ih
      rw [List.cons_append, lines_cons hc ih, lines_cons hc hl]
      rfl

theorem lines_append_newline {l : Text} (h : '\n' ∉ l) (t : Text) :
    lines (l ++ '\n' :: t) = l :: lines t := by
  rw [lines_append, lines_of_notMem h]
  rfl

/-- Lines with line feeds between them are found again. -/
theorem lines_unlines {ls : List Text} (hne : ls ≠ []) (h : ∀ l ∈ ls, '\n' ∉ l) :
    lines (unlines ls) = ls := by
  induction ls with
  | nil => exact absurd rfl hne
  | cons l ls ih =>
    have hl := h l List.mem_cons_self
    cases ls with
    | nil => exact lines_of_notMem hl
    | cons m ls =>
      rw [unlines_cons_cons, lines_append_newline hl,
        ih (List.cons_ne_nil m ls) fun l' hl' => h l' (List.mem_cons_of_mem l hl')]

/-- What has no line feed goes on the last line. -/
theorem lines_append_of_notMem {s t l : Text} {ls : List Text} (h : lines s = ls ++ [l])
    (ht : '\n' ∉ t) : lines (s ++ t) = ls ++ [l ++ t] := by
  have hls : ∀ m ∈ ls ++ [l], '\n' ∉ m := fun m hm => not_mem_line (h ▸ hm)
  have hlast : '\n' ∉ l ++ t := by
    rw [List.mem_append, not_or]
    exact ⟨hls l (List.mem_append_right ls (List.mem_singleton_self l)), ht⟩
  rw [← unlines_lines s, h]
  cases ls with
  | nil => exact lines_of_notMem hlast
  | cons m ms =>
    rw [List.cons_append, unlines_concat, List.append_assoc, List.cons_append, lines_append,
      lines_of_notMem hlast, lines_unlines (List.cons_ne_nil m ms)
        fun k hk => hls k (List.mem_append_left _ hk)]

theorem infix_unlines {l : Text} : ∀ {ls : List Text}, l ∈ ls → l <:+: unlines ls
  | [m], h => by
    rw [List.mem_singleton.mp h]
    exact List.infix_rfl
  | m :: m' :: ms, h => by
    rw [unlines_cons_cons]
    rcases List.mem_cons.mp h with rfl | h
    · exact List.infix_append_left
    · exact ((infix_unlines h).trans (List.suffix_cons ..).isInfix).trans List.infix_append_right

theorem line_isInfix {l t : Text} (h : l ∈ lines t) : l <:+: t := by
  conv_rhs => rw [← unlines_lines t]
  exact infix_unlines h

/-- Without white space, the lines are the text. -/
theorem solid_unlines : ∀ ls : List Text, solid (unlines ls) = (ls.map solid).flatten
  | [] => rfl
  | [l] => by simp [unlines]
  | l :: m :: ms => by
    rw [unlines_cons_cons, solid_append, solid_cons_of_blank (by decide), solid_unlines (m :: ms)]
    rfl

theorem solid_lines (t : Text) : ((lines t).map solid).flatten = solid t := by
  rw [← solid_unlines, unlines_lines]

/-! ## Line ends -/

/-- A line, and white space that was taken off its end. -/
def EndsCut (l m : Text) : Prop := ∃ b, isBlank b = true ∧ m = l ++ b

theorem endsCut_refl (l : Text) : EndsCut l l := ⟨[], rfl, (List.append_nil l).symm⟩

theorem endsCut_cons (c : Char) {l m : Text} (h : EndsCut l m) : EndsCut (c :: l) (c :: m) := by
  obtain ⟨b, hb, rfl⟩ := h
  exact ⟨b, hb, rfl⟩

theorem replace_go_crlf (t : Text) :
    List.Forall₂ EndsCut (lines (replace.go ['\r', '\n'] ['\n'] t)) (lines t) := by
  induction t using replace.go.induct ['\r', '\n'] with
  | case1 =>
    rw [replace.go]
    exact .cons (endsCut_refl []) .nil
  | case2 c rest hs ih =>
    obtain ⟨r, hr⟩ := Option.isSome_iff_exists.mp hs
    rw [dropStart?_eq_some, List.cons_append, List.cons_append, List.nil_append] at hr
    obtain ⟨rfl, rfl⟩ := List.cons.inj hr
    rw [replace.go, if_pos hs, List.singleton_append, lines_newline,
      lines_cons (by decide) (lines_newline r)]
    exact .cons ⟨['\r'], rfl, rfl⟩ ih
  | case3 c rest hs ih =>
    rw [replace.go, if_neg hs]
    by_cases hc : c = '\n'
    · rw [hc, lines_newline, lines_newline]
      exact .cons (endsCut_refl []) ih
    · obtain ⟨l, ls, hl⟩ := List.exists_cons_of_ne_nil (lines_ne_nil rest)
      obtain ⟨m, ms, hm⟩ := List.exists_cons_of_ne_nil
        (lines_ne_nil (replace.go ['\r', '\n'] ['\n'] rest))
      rw [hl, hm] at ih
      rw [lines_cons hc hl, lines_cons hc hm]
      obtain ⟨h, hs⟩ := List.forall₂_cons.mp ih
      exact .cons (endsCut_cons c h) hs

/-- **Bringing line ends to one form** takes a carriage return off the ends of lines. -/
theorem lines_replace_crlf (t : Text) :
    List.Forall₂ EndsCut (lines (replace ['\r', '\n'] ['\n'] t)) (lines t) :=
  replace_go_crlf t

end Text

end TemplateFormat
