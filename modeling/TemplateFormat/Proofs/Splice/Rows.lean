import TemplateFormat.Proofs.Splice.Lines
import TemplateFormat.Proofs.Text.Rows

/-!
# The rows of words

A slot is not blank, so the rows of a word are its lines without the white space at their ends. No
placeholder has white space in it: spelling a word and taking its rows can be done in either order
(`Splice.rows_spell`). So words with the same rows are spelled to texts with the same rows.

Results:
* `Word.flatMap_rows`: what is read off a word, and is nothing at white space, is read off its rows.
* `Word.rows_append_newline`: the rows behind a line feed.
* `Word.rows_blank_append`, `Word.rows_append_blank`: white space at the ends of a word.
* `Splice.rows_spell`: the rows of a spelled word are its rows, spelled.
-/

namespace TemplateFormat

/-- White space; no slot is. -/
def Symbol.isBlank : Symbol → Bool
  | .char c => TemplateFormat.isBlank c
  | .slot _ => false

namespace Word

/-- The rows of a word. -/
def rows (w : Word) : List (Bool × Word) := Rows.ofLines Symbol.isBlank w.lines

theorem mem_slots {i : Nat} {w : Word} : i ∈ w.slots ↔ .slot i ∈ w := by
  rw [slots, List.mem_filterMap]
  refine ⟨?_, fun h => ⟨_, h, rfl⟩⟩
  rintro ⟨_ | j, hj, he⟩
  · exact absurd he (by simp)
  · obtain rfl : j = i := Option.some.inj he
    exact hj

theorem ofText_injective : Function.Injective ofText :=
  List.map_injective_iff.mpr fun _ _ => Symbol.char.inj

/-- A word that is blank is a blank text. -/
theorem exists_of_all_isBlank {w : Word} (h : w.all Symbol.isBlank = true) :
    ∃ b, Text.isBlank b = true ∧ w = ofText b := by
  induction w with
  | nil => exact ⟨[], rfl, rfl⟩
  | cons x w ih =>
    rw [List.all_cons, Bool.and_eq_true] at h
    obtain ⟨b, hb, rfl⟩ := ih h.2
    cases x with
    | char c => exact ⟨c :: b, by rw [Text.isBlank_cons, hb, Bool.and_true]; exact h.1, rfl⟩
    | slot i => exact absurd h.1 (by simp [Symbol.isBlank])

theorem all_isBlank_ofText (t : Text) : (ofText t).all Symbol.isBlank = Text.isBlank t := by
  rw [ofText, List.all_map]
  rfl

variable {w : Word} {r : Bool × Word}

theorem tight_of_mem_rows (h : r ∈ w.rows) : Rows.Tight Symbol.isBlank r.2 := by
  obtain ⟨l, -, -, he⟩ := Rows.exists_of_mem_ofLines h
  rw [he]
  exact Rows.tight_inner _ l

theorem ne_nil_of_mem_rows (h : r ∈ w.rows) : r.2 ≠ [] := by
  obtain ⟨l, -, hl, he⟩ := Rows.exists_of_mem_ofLines h
  rw [he]
  exact Rows.inner_ne_nil hl

/-- A row is a part of a line. -/
theorem exists_line_of_mem_rows (h : r ∈ w.rows) : ∃ l ∈ w.lines, r.2 <:+: l := by
  obtain ⟨l, hl, -, he⟩ := Rows.exists_of_mem_ofLines h
  obtain ⟨b, b', -, -, hline⟩ := Rows.exists_inner Symbol.isBlank l
  exact ⟨l, hl, b, b', by rw [he, List.append_assoc]; exact hline.symm⟩

theorem isInfix_of_mem_rows (h : r ∈ w.rows) : r.2 <:+: w := by
  obtain ⟨l, hl, hr⟩ := exists_line_of_mem_rows h
  exact hr.trans (isInfix_of_mem_lines hl)

theorem newline_notMem_rows (h : r ∈ w.rows) : .char '\n' ∉ r.2 := by
  obtain ⟨l, hl, hr⟩ := exists_line_of_mem_rows h
  exact fun hm => newline_notMem_lines l hl (hr.subset hm)

/-- **What is read off a word**, and is nothing at white space, is read off its rows. -/
theorem flatMap_rows {β : Type} {g : Word → List β} (happend : ∀ v w, g (v ++ w) = g v ++ g w)
    (hblank : ∀ b : Word, b.all Symbol.isBlank = true → g b = []) (w : Word) :
    w.rows.flatMap (fun r => g r.2) = g w := by
  rw [rows, Rows.flatMap_ofLines happend hblank]
  conv_rhs => rw [← intercalate_lines w]
  generalize w.lines = ls
  induction ls with
  | nil => exact (hblank [] rfl).symm
  | cons l ls ih =>
    cases ls with
    | nil => rw [List.flatMap_singleton, List.intercalate_singleton]
    | cons m ms =>
      rw [List.intercalate_cons_cons, List.append_assoc, happend, happend, ← ih, List.flatMap_cons,
        hblank [.char '\n'] (by decide), List.nil_append]

/-- The slots of the rows are those of the word, in order. -/
theorem flatMap_slots_rows (w : Word) : w.rows.flatMap (fun r => r.2.slots) = w.slots := by
  refine flatMap_rows slots_append (fun b hb => ?_) w
  obtain ⟨t, -, rfl⟩ := exists_of_all_isBlank hb
  exact slots_ofText t

theorem rows_eq_nil_iff : w.rows = [] ↔ w.all Symbol.isBlank = true := by
  refine ⟨fun h => ?_, fun h => Rows.ofLines_eq_nil_iff.mpr fun l hl => ?_⟩
  · have hread := flatMap_rows (g := List.filter fun x => !x.isBlank)
      (fun v w => List.filter_append v w) (fun b hb => List.filter_eq_nil_iff.mpr fun x hx => by
        simp [List.all_eq_true.mp hb x hx]) w
    rw [h, List.flatMap_nil, eq_comm, List.filter_eq_nil_iff] at hread
    exact List.all_eq_true.mpr fun x hx => by simpa using hread x hx
  · exact List.all_eq_true.mpr fun x hx =>
      List.all_eq_true.mp h x ((isInfix_of_mem_lines hl).subset hx)

/-! ### Lines behind lines, and white space at the ends -/

/-- **The rows behind a line feed.** -/
theorem rows_append_newline (v w : Word) : rows (v ++ .char '\n' :: w) =
    if v.all Symbol.isBlank then rows w
    else rows v ++ Rows.behind Symbol.isBlank (Rows.gapBehind Symbol.isBlank false v.lines) w.lines
    := by
  rw [rows, lines_append, Rows.ofLines_append]
  exact if_congr rows_eq_nil_iff rfl rfl

/-- A word is one line, or a line with others behind it. -/
theorem exists_first_line (w : Word) : .char '\n' ∉ w ∨
    ∃ l v, w = l ++ .char '\n' :: v ∧ .char '\n' ∉ l := by
  by_cases h : .char '\n' ∈ w
  · obtain ⟨l, v, he, hl⟩ := List.eq_append_cons_of_mem h
    exact .inr ⟨l, v, he, hl⟩
  · exact .inl h

/-- A word is one line, or a line with others before it. -/
theorem exists_last_line (w : Word) : .char '\n' ∉ w ∨
    ∃ v l, w = v ++ .char '\n' :: l ∧ .char '\n' ∉ l := by
  by_cases h : .char '\n' ∈ w
  · obtain ⟨l, v, he, hl⟩ := List.eq_append_cons_of_mem (List.mem_reverse.mpr h)
    refine .inr ⟨v.reverse, l.reverse, ?_, fun hm => hl (List.mem_reverse.mp hm)⟩
    rw [← List.reverse_reverse w, he]
    simp
  · exact .inl h

theorem rows_of_line {l : Word} (h : .char '\n' ∉ l) (hne : l.all Symbol.isBlank = false) :
    rows l = [(false, Rows.inner Symbol.isBlank l)] := by
  rw [rows, lines_of_notMem h, Rows.ofLines, hne]
  rfl

theorem rows_cons_blank {x : Symbol} (hx : x.isBlank = true) (w : Word) :
    rows (x :: w) = rows w := by
  have hall (l : Word) : (x :: l).all Symbol.isBlank = l.all Symbol.isBlank := by
    rw [List.all_cons, hx, Bool.true_and]
  have hinner (l : Word) : Rows.inner Symbol.isBlank (x :: l) = Rows.inner Symbol.isBlank l :=
    Rows.inner_all_append (b := [x]) (by simp [hx]) l
  by_cases hnewline : x = .char '\n'
  · rw [hnewline]
    exact rows_append_newline [] w
  have hline (l : Word) (hl : .char '\n' ∉ l) : .char '\n' ∉ x :: l := fun hm =>
    (List.mem_cons.mp hm).elim (fun he => hnewline he.symm) hl
  rcases exists_first_line w with h | ⟨l, v, rfl, hl⟩
  · rw [rows, rows, lines_of_notMem h, lines_of_notMem (hline w h)]
    simp only [Rows.ofLines, hall, hinner]
  · rw [rows, rows, ← List.cons_append, lines_append, lines_append, lines_of_notMem hl,
      lines_of_notMem (hline l hl), List.singleton_append, List.singleton_append, Rows.ofLines,
      Rows.ofLines, hall, hinner]

/-- **White space before a word.** -/
theorem rows_blank_append {b : Word} (hb : b.all Symbol.isBlank = true) (w : Word) :
    rows (b ++ w) = rows w := by
  induction b with
  | nil => rfl
  | cons x b ih =>
    rw [List.all_cons, Bool.and_eq_true] at hb
    rw [List.cons_append, rows_cons_blank hb.1, ih hb.2]

theorem rows_concat_blank {x : Symbol} (hx : x.isBlank = true) (w : Word) :
    rows (w ++ [x]) = rows w := by
  have hall (l : Word) : (l ++ [x]).all Symbol.isBlank = l.all Symbol.isBlank := by
    simp [hx]
  have hinner (l : Word) : Rows.inner Symbol.isBlank (l ++ [x]) = Rows.inner Symbol.isBlank l := by
    obtain ⟨b, b', hb, hb', he⟩ := Rows.exists_inner Symbol.isBlank l
    conv_lhs => rw [he, List.append_assoc, List.append_assoc]
    exact Rows.inner_eq hb (by rw [List.all_append, hb', List.all_cons, hx]; rfl)
      (Rows.tight_inner _ l)
  by_cases hnewline : x = .char '\n'
  · rw [hnewline, rows_append_newline]
    split
    · rename_i h
      rw [rows_eq_nil_iff.mpr h]
      rfl
    · exact List.append_nil _
  have hline (l : Word) (hl : .char '\n' ∉ l) : .char '\n' ∉ l ++ [x] := fun hm =>
    (List.mem_append.mp hm).elim hl fun he => hnewline (List.mem_singleton.mp he).symm
  rcases exists_last_line w with h | ⟨v, l, rfl, hl⟩
  · rw [rows, rows, lines_of_notMem h, lines_of_notMem (hline w h)]
    simp only [Rows.ofLines, hall, hinner]
  · rw [List.append_assoc, List.cons_append, rows_append_newline, rows_append_newline]
    simp only [rows, lines_of_notMem hl, lines_of_notMem (hline l hl), Rows.ofLines, Rows.behind,
      hall, hinner]

/-- **White space behind a word.** -/
theorem rows_append_blank {b : Word} (hb : b.all Symbol.isBlank = true) (w : Word) :
    rows (w ++ b) = rows w := by
  induction b generalizing w with
  | nil => rw [List.append_nil]
  | cons x b ih =>
    rw [List.all_cons, Bool.and_eq_true] at hb
    rw [List.append_cons, ih hb.2, rows_concat_blank hb.1]

end Word

namespace Splice

variable {source : Text} {keys : List Text}

/-- A slot is spelled with no white space at its ends. -/
theorem IsKeys.ends (hkeys : IsKeys source keys) {i : Nat} (hi : i < keys.length) :
    (∀ c ∈ (keys.getD i []).head?, isBlank c = false) ∧
      (∀ c ∈ (keys.getD i []).getLast?, isBlank c = false) ∧ keys.getD i [] ≠ [] := by
  rw [List.getD_eq_getElem _ _ hi]
  have hmem := List.getElem_mem hi
  obtain ⟨rest, hrest⟩ := hkeys.eq_cons hmem
  exact ⟨fun c hc => hkeys.isSolid hmem c (List.mem_of_mem_head? hc),
    fun c hc => hkeys.isSolid hmem c (List.mem_of_mem_getLast? hc), by rw [hrest]; simp⟩

variable (hkeys : IsKeys source keys)

include hkeys

/-- A spelled word is blank where the word is. -/
theorem isBlank_spell {w : Word} (hw : w.Within keys.length) :
    Text.isBlank (w.spell keys) = w.all Symbol.isBlank := by
  induction w with
  | nil => rfl
  | cons x w ih =>
    cases x with
    | char c =>
      rw [Word.spell_char, Text.isBlank_cons, ih hw.tail, List.all_cons]
      rfl
    | slot i =>
      obtain ⟨rest, hrest⟩ := hkeys.spell_slot hw.lt w
      rw [hrest, Text.isBlank_cons, List.all_cons]
      rfl

/-- A spelled word has no white space at its ends where the word has none. -/
theorem tight_spell {w : Word} (hw : w.Within keys.length) (h : Rows.Tight Symbol.isBlank w) :
    Rows.Tight isBlank (w.spell keys) := by
  refine ⟨fun c hc => ?_, fun c hc => ?_⟩
  · cases w with
    | nil => exact absurd hc (by simp [Word.spell, Word.restore])
    | cons x w =>
      cases x with
      | char d =>
        obtain rfl : d = c := by simpa [Word.spell_char] using hc
        exact h.head _ rfl
      | slot i =>
        obtain ⟨rest, hrest⟩ := hkeys.spell_slot hw.lt w
        rw [hrest] at hc
        obtain rfl : '_' = c := by simpa using hc
        decide
  · rcases List.eq_nil_or_concat w with rfl | ⟨w, x, rfl⟩
    · exact absurd hc (by simp [Word.spell, Word.restore])
    · rw [List.concat_eq_append] at hw h hc
      rw [Word.spell, Word.restore_append] at hc
      cases x with
      | char d =>
        obtain rfl : d = c := by simpa [Word.restore] using hc
        exact h.last (.char d) (by simp)
      | slot i =>
        have hends := hkeys.ends (hw i (by simp))
        rw [Word.restore, Word.restore, List.append_nil,
          List.getLast?_append_of_ne_nil _ hends.2.2] at hc
        exact hends.2.1 c hc

/-- A spelled word has line feeds where the word has. -/
theorem newline_mem_spell {w : Word} (hw : w.Within keys.length) :
    '\n' ∈ w.spell keys ↔ .char '\n' ∈ w := by
  rw [Word.spell, Word.mem_restore]
  refine or_iff_left ?_
  rintro ⟨i, hi, hc⟩
  rw [List.getD_eq_getElem _ _ (hw i hi)] at hc
  exact absurd (hkeys.isSolid (List.getElem_mem (hw i hi)) _ hc) (by decide)

theorem head?_spell {w : Word} (hw : w.Within keys.length) :
    (w.spell keys).head?.any isBlank = w.head?.any Symbol.isBlank := by
  cases w with
  | nil => rfl
  | cons x w =>
    cases x with
    | char c => rfl
    | slot i =>
      obtain ⟨rest, hrest⟩ := hkeys.spell_slot hw.lt w
      rw [hrest]
      rfl

theorem getLast?_spell {w : Word} (hw : w.Within keys.length) :
    (w.spell keys).getLast?.any isBlank = w.getLast?.any Symbol.isBlank := by
  rcases List.eq_nil_or_concat w with rfl | ⟨w, x, rfl⟩
  · rfl
  · rw [List.concat_eq_append] at hw ⊢
    rw [Word.spell, Word.restore_append, List.getLast?_concat]
    cases x with
    | char c =>
      show ((_ ++ [c]).getLast?).any isBlank = _
      rw [List.getLast?_concat]
      rfl
    | slot i =>
      obtain ⟨-, hlast, hne⟩ := hkeys.ends (hw i (by simp))
      rw [Word.restore, Word.restore, List.append_nil, List.getLast?_append_of_ne_nil _ hne]
      obtain ⟨c, hc⟩ := Option.isSome_iff_exists.mp (List.getLast?_isSome.mpr hne)
      rw [hc]
      exact hlast c hc

/-- **The rows of a spelled word are its rows, spelled.** -/
theorem rows_spell {w : Word} (hw : w.Within keys.length) :
    Text.rows (w.spell keys) = w.rows.map (Prod.map id (Word.spell keys)) := by
  have hline {l : Word} (hl : l ∈ w.lines) : l.Within keys.length :=
    hw.of_isInfix (Word.isInfix_of_mem_lines hl)
  rw [Text.rows, lines_spell hkeys hw, Word.rows]
  refine Rows.ofLines_map (fun l hl => isBlank_spell hkeys (hline hl)) fun l hl => ?_
  obtain ⟨b, b', hb, hb', he⟩ := Rows.exists_inner Symbol.isBlank l
  have hwithin := hline hl
  obtain ⟨t, ht, rfl⟩ := Word.exists_of_all_isBlank hb
  obtain ⟨t', ht', rfl⟩ := Word.exists_of_all_isBlank hb'
  have hinner : Word.Within keys.length (Rows.inner Symbol.isBlank l) :=
    hwithin.of_isInfix ⟨_, _, by rw [List.append_assoc]; exact he.symm⟩
  conv_lhs => rw [he]
  rw [Word.spell, Word.restore_append, Word.restore_append, Word.restore_ofText,
    Word.restore_ofText]
  exact Rows.inner_eq ht ht' (tight_spell hkeys hinner (Rows.tight_inner _ l))

end Splice

end TemplateFormat
