import TemplateFormat.Print.Embed
import TemplateFormat.Proofs.Print.Shows
import TemplateFormat.Proofs.Text.Spacing

/-!
# Printed lines

Source text that is kept, the statement of an action and the body of an ignored region are printed
line by line: white space is taken off the ends of lines, and empty lines may be left out at either
end. On one line all this is other white space in the same places.

Results:
* `even_spaced`: lines with white space taken off their ends.
* `even_statementLines`, `even_ignoredLines`, `even_verbatim`: the texts that are printed by lines.
-/

namespace TemplateFormat

open Text

/-- White space is taken off the ends of a line. -/
def Trims (l m : Text) : Prop :=
  ∃ b b', Text.isBlank b = true ∧ Text.isBlank b' = true ∧ l = b ++ (m ++ b')

theorem trims_trimEnd (l : Text) : Trims l (trimEnd l) := by
  obtain ⟨b, hb, he⟩ := eq_append_trimEnd l
  exact ⟨[], b, rfl, hb, he⟩

theorem trims_trim (l : Text) : Trims l (trim l) := by
  obtain ⟨b, b', hb, hb', he⟩ := eq_append_trim l
  exact ⟨b, b', hb, hb', by rwa [List.append_assoc] at he⟩

theorem trims_dedent (width : Nat) (l : Text) : Trims l (dedent width (trimEnd l)) := by
  have hdedent (t : Text) : ∃ b, Text.isBlank b = true ∧ t = b ++ dedent width t := by
    fun_induction dedent width t with
    | case1 width c t hc ih =>
      obtain ⟨b, hb, he⟩ := ih
      refine ⟨c :: b, ?_, congrArg (c :: ·) he⟩
      rw [isBlank_cons, isBlank_of_isSpace hc, hb]
      rfl
    | case2 => exact ⟨[], rfl, rfl⟩
    | case3 => exact ⟨[], rfl, rfl⟩
  obtain ⟨b', hb', he'⟩ := eq_append_trimEnd l
  obtain ⟨b, hb, he⟩ := hdedent (trimEnd l)
  refine ⟨b, b', hb, hb', ?_⟩
  rw [← List.append_assoc, ← he]
  exact he'

theorem startsBlank_spaced (ls : List Text) : StartsBlank (spaced ls) := by
  cases ls with
  | nil => simp [spaced, StartsBlank]
  | cons l ls => exact startsBlank_cons (by decide) _

theorem spaced_cons (l : Text) (ls : List Text) : spaced (l :: ls) = [' '] ++ (l ++ spaced ls) := by
  rw [spaced, List.flatMap_cons]
  rfl

/-- **Lines with white space taken off their ends**, by induction on the lines. -/
theorem even_spaced {ls ms : List Text} (h : List.Forall₂ Trims ls ms) :
    even (spaced ms) = even (unlines ls) := by
  induction h with
  | nil => rfl
  | @cons l m ls ms hm hms ih =>
    obtain ⟨b, b', hb, hb', rfl⟩ := hm
    rw [spaced_cons, even_isBlank_append (by decide)]
    cases hms with
    | nil =>
      show even (m ++ []) = even (b ++ (m ++ b'))
      rw [even_isBlank_append hb, even_append_isBlank hb', List.append_nil]
    | @cons l' m' ls ms hm' hms =>
      rw [unlines_cons_cons, List.append_assoc, List.append_assoc, even_isBlank_append hb]
      refine even_append m (startsBlank_spaced _) ?_ ?_
      · exact startsBlank_append (startsBlank_of_isBlank hb') (startsBlank_cons (by decide) _)
      · rw [ih, even_isBlank_append hb']
        exact (even_isBlank_append (b := ['\n']) (by decide) _).symm

theorem even_spaced_lines {t : Text} {ms : List Text} (h : List.Forall₂ Trims (lines t) ms) :
    even (spaced ms) = even t := by
  rw [even_spaced h, unlines_lines]

theorem forall₂_trims {f : Text → Text} (h : ∀ l, Trims l (f l)) (ls : List Text) :
    List.Forall₂ Trims ls (ls.map f) :=
  List.forall₂_map_right_iff.mpr (List.forall₂_same.mpr fun l _ => h l)

/-- An empty line at the end is white space. -/
theorem even_spaced_dropLast {f : Text → Text} (h : f [] = []) (ls : List Text) :
    even (spaced ((if ls.getLast? = some [] then ls.dropLast else ls).map f)) =
      even (spaced (ls.map f)) := by
  split
  · rename_i hlast
    conv_rhs => rw [← List.dropLast_append_getLast? [] hlast]
    rw [List.map_append, List.map_singleton, h, spaced, spaced, List.flatMap_append,
      List.flatMap_singleton, even_append_isBlank (by decide)]
  · rfl

/-- An empty line at the start is white space. -/
theorem even_spaced_tail (ls : List Text) :
    even (spaced (if ls.head? = some [] then ls.tail else ls)) = even (spaced ls) := by
  split
  · rename_i hhead
    obtain ⟨rest, rfl⟩ := List.head?_eq_some_iff.mp hhead
    rw [spaced_cons, even_isBlank_append (by decide)]
    rfl
  · rfl

theorem even_statementLines (statement : Text) :
    even (spaced (statementLines statement)) = even statement := by
  rw [statementLines, even_spaced_dropLast (by decide)]
  exact even_spaced_lines (forall₂_trims trims_trim _)

theorem even_ignoredLines (body : Text) : even (spaced (Printer.ignoredLines body)) = even body := by
  have hlast := even_spaced_dropLast (f := id) rfl ((lines body).map trimEnd)
  rw [List.map_id, List.map_id] at hlast
  rw [Printer.ignoredLines, even_spaced_tail, hlast]
  exact even_spaced_lines (forall₂_trims trims_trimEnd _)

/-- **Source text that is kept** is the text with other white space in the same places. -/
theorem even_verbatim (before text : Text) : even (verbatim before text).flat = even text := by
  obtain ⟨first, rest, hlines⟩ := List.exists_cons_of_ne_nil (lines_ne_nil text)
  obtain ⟨width, hflat⟩ := flat_verbatim before hlines
  have htrims : List.Forall₂ Trims (lines text)
      (trimEnd first :: rest.map fun line => dedent width (trimEnd line)) := by
    rw [hlines]
    exact .cons (trims_trimEnd first) (forall₂_trims (trims_dedent width) rest)
  rw [hflat, ← even_spaced_lines htrims, spaced_cons,
    even_isBlank_append (b := [' ']) (by decide)]

end TemplateFormat
