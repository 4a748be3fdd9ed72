import TemplateFormat.Proofs.Text.Spacing

/-!
# The rows of lines

A row is a line that is not blank, without what is blank at its ends. It comes with whether blank
lines stand between it and the row before it; how many there are does not count, and blank lines
before the first row and behind the last one do not count at all. The lines are lists of anything
that can be blank, so that a text has rows, and a text with placeholders in it too.

Results:
* `Rows.ofLines_map`: lines that are rewritten, with nothing blank that was not, and back.
* `Rows.ofLines_append`: the rows of lines behind other lines.
* `Text.rows_replace_crlf`: line ends in another form do not change the rows of a text.
-/

namespace TemplateFormat

namespace Rows

variable {α β : Type}

/-- The line without what is blank at its ends. -/
def inner (blank : α → Bool) (l : List α) : List α :=
  ((l.dropWhile blank).reverse.dropWhile blank).reverse

/-- The rows of lines behind a row; `gap`: blank lines come between. -/
def behind (blank : α → Bool) : Bool → List (List α) → List (Bool × List α)
  | _, [] => []
  | gap, l :: ls =>
    if l.all blank then behind blank true ls else (gap, inner blank l) :: behind blank false ls

/-- The rows of lines. -/
def ofLines (blank : α → Bool) : List (List α) → List (Bool × List α)
  | [] => []
  | l :: ls =>
    if l.all blank then ofLines blank ls else (false, inner blank l) :: behind blank false ls

/-- Nothing is blank at either end. -/
structure Tight (blank : α → Bool) (l : List α) : Prop where
  head : ∀ a ∈ l.head?, blank a = false
  last : ∀ a ∈ l.getLast?, blank a = false

variable {blank : α → Bool} {l : List α} {ls ms : List (List α)} {gap : Bool}

/-! ## Lines without what is blank at their ends -/

theorem dropWhile_of_head (h : ∀ a ∈ l.head?, blank a = false) : l.dropWhile blank = l := by
  cases l with
  | nil => rfl
  | cons a l => rw [List.dropWhile_cons_of_neg (by rw [h a rfl]; decide)]

theorem inner_of_tight (h : Tight blank l) : inner blank l = l := by
  rw [inner, dropWhile_of_head h.head, dropWhile_of_head (by rw [List.head?_reverse]; exact h.last),
    List.reverse_reverse]

theorem inner_all_append {b : List α} (hb : b.all blank = true) (l : List α) :
    inner blank (b ++ l) = inner blank l := by
  rw [inner, List.dropWhile_append_of_pos (List.all_eq_true.mp hb), ← inner]

theorem exists_inner (blank : α → Bool) (l : List α) : ∃ b b', b.all blank = true ∧
    b'.all blank = true ∧ l = b ++ (inner blank l ++ b') := by
  have hcut (l : List α) : (l.takeWhile blank).all blank = true :=
    List.all_eq_true.mpr fun _ => List.mem_takeWhile_imp
  refine ⟨l.takeWhile blank, ((l.dropWhile blank).reverse.takeWhile blank).reverse, hcut l,
    by rw [List.all_reverse]; exact hcut _, ?_⟩
  rw [inner, ← List.reverse_append, List.takeWhile_append_dropWhile, List.reverse_reverse,
    List.takeWhile_append_dropWhile]

/-- What is blank at the ends of a line is left out. -/
theorem inner_eq {b b' : List α} (hb : b.all blank = true) (hb' : b'.all blank = true)
    (h : Tight blank l) : inner blank (b ++ (l ++ b')) = l := by
  rw [inner_all_append hb]
  by_cases hne : l = []
  · rw [hne, List.nil_append, ← List.append_nil b', inner_all_append hb']
    rfl
  · have hhead : (l ++ b').dropWhile blank = l ++ b' := dropWhile_of_head (by
      rw [List.head?_append_of_ne_nil _ hne]
      exact h.head)
    have hlast : l.reverse.dropWhile blank = l.reverse := dropWhile_of_head (by
      rw [List.head?_reverse]
      exact h.last)
    rw [inner, hhead, List.reverse_append, List.dropWhile_append_of_pos, hlast,
      List.reverse_reverse]
    exact fun a ha => List.all_eq_true.mp hb' a (List.mem_reverse.mp ha)

/-- A line that is not blank without what is blank at its ends. -/
theorem tight_inner (blank : α → Bool) (l : List α) : Tight blank (inner blank l) := by
  have hcut (l : List α) : ∀ a ∈ (l.dropWhile blank).head?, blank a = false := by
    intro a ha
    have := List.head?_dropWhile_not blank l
    rw [ha] at this
    simpa using this
  refine ⟨fun a ha => ?_, fun a ha => ?_⟩
  · have hpre : inner blank l <+: l.dropWhile blank := by
      rw [inner, ← List.reverse_suffix, List.reverse_reverse]
      exact List.dropWhile_suffix blank
    obtain ⟨r, hr⟩ := List.head?_eq_some_iff.mp ha
    obtain ⟨t, ht⟩ := hpre
    exact hcut l a (by rw [← ht, hr]; rfl)
  · rw [inner, List.getLast?_reverse] at ha
    exact hcut _ a ha

theorem inner_ne_nil (h : l.all blank = false) : inner blank l ≠ [] := by
  obtain ⟨b, b', hb, hb', he⟩ := exists_inner blank l
  intro hnil
  rw [he, hnil, List.nil_append, List.all_append, hb, hb'] at h
  exact absurd h (by decide)

/-- Something that is not blank ends a line. -/
theorem inner_concat {a : α} (ha : blank a = false) (l : List α) :
    inner blank (l ++ [a]) = l.dropWhile blank ++ [a] := by
  have hdrop : (l ++ [a]).dropWhile blank = l.dropWhile blank ++ [a] := by
    rw [List.dropWhile_append, List.dropWhile_cons_of_neg (by simp [ha])]
    split
    · rename_i h
      rw [List.isEmpty_iff.mp h]
      rfl
    · rfl
  rw [inner, hdrop, List.reverse_append, List.reverse_singleton, List.singleton_append,
    List.dropWhile_cons_of_neg (by simp [ha]), List.reverse_cons, List.reverse_reverse]

theorem not_all_of_tight (h : Tight blank l) (hne : l ≠ []) : l.all blank = false := by
  obtain ⟨a, l, rfl⟩ := List.exists_cons_of_ne_nil hne
  rw [List.all_cons, h.head a rfl, Bool.false_and]

/-! ## Lines that are rewritten -/

/-- **Lines that are rewritten**, with nothing blank that was not, and back. -/
theorem behind_map {blank' : β → Bool} {f : List α → List β}
    (hall : ∀ l ∈ ls, (f l).all blank' = l.all blank)
    (hinner : ∀ l ∈ ls, inner blank' (f l) = f (inner blank l)) (gap : Bool) :
    behind blank' gap (ls.map f) = (behind blank gap ls).map (Prod.map id f) := by
  induction ls generalizing gap with
  | nil => rfl
  | cons l ls ih =>
    rw [List.forall_mem_cons] at hall hinner
    rw [List.map_cons, behind, behind, hall.1, hinner.1, ih hall.2 hinner.2, ih hall.2 hinner.2]
    split <;> rfl

theorem ofLines_map {blank' : β → Bool} {f : List α → List β}
    (hall : ∀ l ∈ ls, (f l).all blank' = l.all blank)
    (hinner : ∀ l ∈ ls, inner blank' (f l) = f (inner blank l)) :
    ofLines blank' (ls.map f) = (ofLines blank ls).map (Prod.map id f) := by
  induction ls with
  | nil => rfl
  | cons l ls ih =>
    rw [List.forall_mem_cons] at hall hinner
    rw [List.map_cons, ofLines, ofLines, hall.1, hinner.1, ih hall.2 hinner.2,
      behind_map hall.2 hinner.2]
    split <;> rfl

/-- The row of a line. -/
theorem exists_of_mem_ofLines {r : Bool × List α} (h : r ∈ ofLines blank ls) :
    ∃ l ∈ ls, l.all blank = false ∧ r.2 = inner blank l := by
  have hbehind {ls : List (List α)} {gap : Bool} (h : r ∈ behind blank gap ls) :
      ∃ l ∈ ls, l.all blank = false ∧ r.2 = inner blank l := by
    induction ls generalizing gap with
    | nil => exact absurd h List.not_mem_nil
    | cons l ls ih =>
      rw [behind] at h
      cases hl : l.all blank with
      | true =>
        rw [hl] at h
        exact (ih h).imp fun _ => .imp_left (List.mem_cons_of_mem l)
      | false =>
        rw [hl] at h
        rcases List.mem_cons.mp h with rfl | h
        · exact ⟨l, List.mem_cons_self, hl, rfl⟩
        · exact (ih h).imp fun _ => .imp_left (List.mem_cons_of_mem l)
  induction ls with
  | nil => exact absurd h List.not_mem_nil
  | cons l ls ih =>
    rw [ofLines] at h
    cases hl : l.all blank with
    | true =>
      rw [hl] at h
      exact (ih h).imp fun _ => .imp_left (List.mem_cons_of_mem l)
    | false =>
      rw [hl] at h
      rcases List.mem_cons.mp h with rfl | h
      · exact ⟨l, List.mem_cons_self, hl, rfl⟩
      · exact (hbehind h).imp fun _ => .imp_left (List.mem_cons_of_mem l)

/-- What is read off lines part by part, and is nothing where they are blank, is read off their
rows. -/
theorem flatMap_ofLines {g : List α → List β} (happend : ∀ l m, g (l ++ m) = g l ++ g m)
    (hblank : ∀ b, b.all blank = true → g b = []) (ls : List (List α)) :
    (ofLines blank ls).flatMap (fun r => g r.2) = ls.flatMap g := by
  have hinner (l : List α) : g (inner blank l) = g l := by
    obtain ⟨b, b', hb, hb', he⟩ := exists_inner blank l
    conv_rhs => rw [he, happend, happend, hblank b hb, hblank b' hb', List.nil_append,
      List.append_nil]
  have hbehind (ls : List (List α)) (gap : Bool) :
      (behind blank gap ls).flatMap (fun r => g r.2) = ls.flatMap g := by
    induction ls generalizing gap with
    | nil => rfl
    | cons l ls ih =>
      rw [behind, List.flatMap_cons]
      cases hl : l.all blank with
      | true =>
        rw [hblank l hl]
        exact ih true
      | false =>
        rw [← hinner l, ← ih false]
        rfl
  induction ls with
  | nil => rfl
  | cons l ls ih =>
    rw [ofLines, List.flatMap_cons]
    cases hl : l.all blank with
    | true =>
      rw [hblank l hl]
      exact ih
    | false =>
      rw [← hinner l, ← hbehind ls false]
      rfl

/-- Lines that are equal up to what is blank at their ends. -/
theorem ofLines_congr
    (h : List.Forall₂ (fun l m => l.all blank = m.all blank ∧ inner blank l = inner blank m) ls
    ms) :
    ofLines blank ls = ofLines blank ms := by
  have hbehind {ls ms : List (List α)} (h : List.Forall₂
      (fun l m => l.all blank = m.all blank ∧ inner blank l = inner blank m) ls ms) (gap : Bool) :
      behind blank gap ls = behind blank gap ms := by
    induction h generalizing gap with
    | nil => rfl
    | cons hl _ ih => rw [behind, behind, hl.1, hl.2, ih, ih]
  induction h with
  | nil => rfl
  | cons hl hls ih => rw [ofLines, ofLines, hl.1, hl.2, ih, hbehind hls]

/-! ## Lines behind lines -/

/-- A blank line stands at the end of the lines; of no lines, `gap` says so. -/
def gapBehind (blank : α → Bool) (gap : Bool) (ls : List (List α)) : Bool :=
  (ls.getLast?.map fun l => l.all blank).getD gap

theorem gapBehind_cons (gap : Bool) (l : List α) (ls : List (List α)) :
    gapBehind blank gap (l :: ls) = gapBehind blank (l.all blank) ls := by
  rw [gapBehind, gapBehind, List.getLast?_cons]
  cases ls.getLast? <;> rfl

theorem behind_append (gap : Bool) (ls ms : List (List α)) : behind blank gap (ls ++ ms) =
    behind blank gap ls ++ behind blank (gapBehind blank gap ls) ms := by
  induction ls generalizing gap with
  | nil => rfl
  | cons l ls ih =>
    rw [List.cons_append, behind, behind, gapBehind_cons]
    cases l.all blank with
    | true => exact ih true
    | false => exact congrArg (List.cons _) (ih false)

theorem ofLines_eq_nil_iff : ofLines blank ls = [] ↔ ∀ l ∈ ls, l.all blank = true := by
  refine ⟨fun h => ?_, fun h => List.eq_nil_iff_forall_not_mem.mpr fun r hr => ?_⟩
  · induction ls with
    | nil => simp
    | cons l ls ih =>
      rw [ofLines] at h
      cases hl : l.all blank with
      | true =>
        rw [hl] at h
        exact List.forall_mem_cons.mpr ⟨hl, ih h⟩
      | false =>
        rw [hl] at h
        exact absurd h (List.cons_ne_nil _ _)
  · obtain ⟨l, hl, hall, -⟩ := exists_of_mem_ofLines hr
    rw [h l hl] at hall
    exact absurd hall (by decide)

/-- **The rows of lines behind other lines.** -/
theorem ofLines_append (ls ms : List (List α)) : ofLines blank (ls ++ ms) =
    if ofLines blank ls = [] then ofLines blank ms
    else ofLines blank ls ++ behind blank (gapBehind blank false ls) ms := by
  induction ls with
  | nil => rfl
  | cons l ls ih =>
    rw [List.cons_append, ofLines, ofLines, gapBehind_cons]
    cases hl : l.all blank with
    | true =>
      rw [if_pos rfl, if_pos rfl, ih]
      refine ite_congr rfl (fun _ => rfl) fun hne => ?_
      obtain ⟨m, ls', hls⟩ := List.exists_cons_of_ne_nil (l := ls) (by
        rintro rfl
        exact hne rfl)
      rw [hls, gapBehind_cons, gapBehind_cons]
    | false => exact congrArg (List.cons _) (behind_append false ls ms)

end Rows

namespace Text

/-- The rows of a text. -/
def rows (t : Text) : List (Bool × Text) := Rows.ofLines TemplateFormat.isBlank (lines t)

theorem rows_of_isBlank {t : Text} (h : isBlank t = true) : rows t = [] := by
  refine List.eq_nil_iff_forall_not_mem.mpr fun r hr => ?_
  obtain ⟨l, hl, hall, -⟩ := Rows.exists_of_mem_ofLines hr
  have hblank : l.all TemplateFormat.isBlank = true :=
    List.all_eq_true.mpr fun c hc => isBlank_iff.mp h c ((line_isInfix hl).subset hc)
  rw [hblank] at hall
  exact absurd hall (by decide)

/-- Line ends in another form do not change the rows. -/
theorem rows_replace_crlf (t : Text) : rows (replace ['\r', '\n'] ['\n'] t) = rows t := by
  refine Rows.ofLines_congr ((lines_replace_crlf t).imp fun l m h => ?_)
  obtain ⟨b, hb, rfl⟩ := h
  exact ⟨by rw [List.all_append, show b.all TemplateFormat.isBlank = true from hb, Bool.and_true],
    (trim_append_isBlank hb l).symm⟩

theorem newline_mem_replace_crlf {t : Text} :
    '\n' ∈ replace ['\r', '\n'] ['\n'] t ↔ '\n' ∈ t := by
  -- a text has a line feed exactly if it has two lines or more
  have hlines (t : Text) : '\n' ∈ t ↔ (lines t).length ≠ 1 := by
    refine ⟨fun h hone => ?_, fun h => ?_⟩
    · obtain ⟨l, hl⟩ := List.length_eq_one_iff.mp hone
      have hu : l = t := by
        rw [← unlines_lines t, hl]
        rfl
      exact not_mem_line (hl ▸ List.mem_singleton_self l) (hu ▸ h)
    · by_contra hnot
      exact h (by rw [lines_of_notMem hnot]; rfl)
  rw [hlines, hlines, (lines_replace_crlf t).length_eq]

end Text

end TemplateFormat
