import TemplateFormat.Proofs.Splice.Word
import TemplateFormat.Proofs.Text.Spacing

/-!
# The lines of words

A word is cut at the line feeds among its characters. If no line feed is in a slot, the lines of the
text that is spelled are the lines of the word, each spelled for itself. White space at the end of a
spelled line belongs to characters, so what is left without it is spelled from a part of the line
with the same slots.

Results:
* `Word.lines_restore`: the lines of a restored word are those of its lines.
* `Splice.lines_spell`: the lines of a spelled word are its lines, spelled.
* `Splice.exists_trimEnd`: a spelled line without the white space at its end.
-/

namespace TemplateFormat

namespace Word

/-- The lines of a word, without their line feeds. -/
def lines (w : Word) : List Word := w.splitOn (.char '\n')

theorem lines_ne_nil (w : Word) : lines w ≠ [] := List.splitOn_ne_nil _ w

theorem intercalate_lines (w : Word) : [.char '\n'].intercalate w.lines = w :=
  List.intercalate_splitOn _

theorem lines_append (v w : Word) : lines (v ++ .char '\n' :: w) = lines v ++ lines w :=
  List.splitOn_append_cons_self v w

theorem lines_of_notMem {w : Word} (h : .char '\n' ∉ w) : lines w = [w] :=
  List.splitOn_eq_singleton h

/-- No line feed is in a line. -/
theorem newline_notMem_lines {w : Word} : ∀ l ∈ w.lines, .char '\n' ∉ l := by
  induction w with
  | nil => simp [lines]
  | cons x w ih =>
    rw [lines, List.splitOn_cons_eq_if_modifyHead]
    split
    · exact List.forall_mem_cons.mpr ⟨List.not_mem_nil, ih⟩
    · rename_i hx
      obtain ⟨l, ls, hl⟩ := List.exists_cons_of_ne_nil (lines_ne_nil w)
      rw [hl, List.forall_mem_cons] at ih
      rw [show List.splitOn _ w = l :: ls from hl, List.modifyHead_cons, List.forall_mem_cons,
        List.mem_cons, not_or]
      exact ⟨⟨fun h => hx (by simp [h]), ih.1⟩, ih.2⟩

theorem lines_restore_intercalate (f : Nat → Text) : ∀ {ls : List Word}, ls ≠ [] →
    Text.lines (restore f ([.char '\n'].intercalate ls)) =
      ls.flatMap fun l => Text.lines (l.restore f)
  | [l], _ => by rw [List.intercalate_singleton, List.flatMap_singleton]
  | l :: m :: ms, _ => by
    rw [List.intercalate_cons_cons, List.append_assoc, restore_append, List.flatMap_cons,
      ← lines_restore_intercalate f (List.cons_ne_nil m ms)]
    exact Text.lines_append _ _

/-- **The lines of a restored word** are those of its lines. -/
theorem lines_restore (f : Nat → Text) (w : Word) :
    Text.lines (w.restore f) = w.lines.flatMap fun l => Text.lines (l.restore f) := by
  conv_lhs => rw [← intercalate_lines w]
  exact lines_restore_intercalate f (lines_ne_nil w)

theorem mem_restore {f : Nat → Text} {w : Word} {c : Char} :
    c ∈ w.restore f ↔ .char c ∈ w ∨ ∃ i, .slot i ∈ w ∧ c ∈ f i := by
  induction w with
  | nil => simp [restore]
  | cons x w ih =>
    cases x with
    | char d => simp [restore, ih, or_assoc]
    | slot i => simp [restore, ih, or_and_right, exists_or, or_left_comm]

/-- Lines without slots are lines of the restored word. -/
theorem plain_sublist (f : Nat → Text) {ls : List Word} (hls : ∀ l ∈ ls, .char '\n' ∉ l) :
    ((ls.filter fun l => l.slots = []).map (restore f)).Sublist
      (ls.flatMap fun l => Text.lines (l.restore f)) := by
  induction ls with
  | nil => exact List.Sublist.refl _
  | cons l ls ih =>
    rw [List.forall_mem_cons] at hls
    rw [List.flatMap_cons]
    by_cases hslots : l.slots = []
    · have hline : '\n' ∉ l.restore f := by
        obtain ⟨t, rfl⟩ := exists_ofText hslots
        rw [restore_ofText]
        exact fun hmem => hls.1 (List.mem_map_of_mem hmem)
      rw [List.filter_cons_of_pos (by simpa using hslots), List.map_cons,
        Text.lines_of_notMem hline]
      exact (ih hls.2).cons_cons _
    · rw [List.filter_cons_of_neg (by simpa using hslots)]
      exact (ih hls.2).trans (List.sublist_append_right _ _)

theorem isInfix_intercalate {α : Type} {sep l : List α} : ∀ {ls : List (List α)}, l ∈ ls →
    l <:+: sep.intercalate ls
  | [m], h => by rw [List.mem_singleton.mp h, List.intercalate_singleton]
  | m :: m' :: ms, h => by
    rw [List.intercalate_cons_cons]
    rcases List.mem_cons.mp h with rfl | h
    · rw [List.append_assoc]
      exact (List.prefix_append ..).isInfix
    · exact (isInfix_intercalate h).trans (List.suffix_append ..).isInfix

/-- A line is a part of the word. -/
theorem isInfix_of_mem_lines {l w : Word} (h : l ∈ w.lines) : l <:+: w := by
  conv_rhs => rw [← intercalate_lines w]
  exact isInfix_intercalate h

end Word

namespace Splice

variable {source : Text} {keys : List Text}

/-- **The lines of a spelled word**: no placeholder has a line feed in it. -/
theorem lines_spell (hkeys : IsKeys source keys) {w : Word} (hw : w.Within keys.length) :
    Text.lines (w.spell keys) = w.lines.map (Word.spell keys) := by
  have hline : ∀ l ∈ w.lines, Text.lines (l.spell keys) = [l.spell keys] := by
    intro l hl
    refine Text.lines_of_notMem fun hmem => ?_
    rcases Word.mem_restore.mp hmem with hc | ⟨i, hi, hc⟩
    · exact Word.newline_notMem_lines l hl hc
    · have hlt := hw i ((Word.isInfix_of_mem_lines hl).subset hi)
      rw [List.getD_eq_getElem _ _ hlt] at hc
      exact absurd (hkeys.isSolid (List.getElem_mem hlt) _ hc) (by decide)
  rw [Word.spell, Word.lines_restore, List.map_eq_flatMap]
  exact List.flatMap_congr hline

/-- **A spelled line without the white space at its end** is spelled from a part of the line; the
rest of the line is white space. -/
theorem exists_trimEnd (hkeys : IsKeys source keys) {l : Word} (hl : l.Within keys.length) :
    ∃ v b, l = v ++ Word.ofText b ∧ v.spell keys = Text.trimEnd (l.spell keys) := by
  obtain ⟨b, hb, heq⟩ := Text.eq_append_trimEnd (l.spell keys)
  obtain ⟨v, v', rfl, hv, hv'⟩ := spell_split hkeys hl heq (Text.startsBlank_of_isBlank hb)
  have hrest : v'.Within keys.length := hl.of_isInfix (List.suffix_append ..).isInfix
  exact ⟨v, _, congrArg (v ++ ·) (spell_blank hkeys hrest (hv' ▸ hb)), hv⟩

end Splice

end TemplateFormat
