import TemplateFormat.Proofs.Doc.Modes
import TemplateFormat.Proofs.Print.Rows

/-!
# The text of rows

Rows are written as lines: a line feed before each row but the first, another one where there is a
gap, and the indentation of the row. What is written has these rows again (`Row.rows_lines`),
whatever white space stands around it. And what is written for a container, with slots for its
children, is the word of a container with the same children: the white space before each of them is
read off (`Node.exists_recut`).

Results:
* `Row.rows_lines`: the rows of rows that are written as lines.
* `Word.rows_concat`, `Word.rows_gap`: where rows end.
* `Node.exists_recut`: a word with slots for siblings is that of the siblings, behind other
  literals.
-/

namespace TemplateFormat

namespace Word

/-- The word is a row: no line feed is in it, and nothing blank at its ends. -/
structure IsRow (w : Word) : Prop where
  tight : Rows.Tight Symbol.isBlank w
  ne_nil : w ≠ []
  line : .char '\n' ∉ w

theorem isRow_of_mem_rows {w : Word} {r : Bool × Word} (h : r ∈ w.rows) : r.2.IsRow :=
  ⟨tight_of_mem_rows h, ne_nil_of_mem_rows h, newline_notMem_rows h⟩

variable {u v w : Word} {b : Text}

theorem IsRow.all_isBlank (h : w.IsRow) : w.all Symbol.isBlank = false :=
  Rows.not_all_of_tight h.tight h.ne_nil

/-- A row behind white space, on a line. -/
theorem IsRow.indented (h : w.IsRow) (hb : Text.isBlank b = true) (hline : '\n' ∉ b) :
    .char '\n' ∉ ofText b ++ w ∧ (ofText b ++ w).all Symbol.isBlank = false ∧
      Rows.inner Symbol.isBlank (ofText b ++ w) = w := by
  have hblank : (ofText b).all Symbol.isBlank = true := by rw [all_isBlank_ofText, hb]
  refine ⟨fun hm => (List.mem_append.mp hm).elim (fun hm => ?_) h.line, ?_, ?_⟩
  · obtain ⟨c, hc, he⟩ := List.mem_map.mp hm
    cases he
    exact hline hc
  · rw [List.all_append, h.all_isBlank, Bool.and_false]
  · rw [Rows.inner_all_append hblank, Rows.inner_of_tight h.tight]

/-! ## Where rows end -/

/-- **A word that ends with something that is not blank**: its last row ends there, and is nothing
else if the line is blank before it. -/
theorem rows_concat {x : Symbol} (hx : x.isBlank = false) (u : Word) :
    ∃ rs gap w, rows (u ++ [x]) = rs ++ [(gap, w ++ [x])] ∧
      ∀ u' b : Word, u = u' ++ .char '\n' :: b → b.all Symbol.isBlank = true → w = [] := by
  have hall (l : Word) : (l ++ [x]).all Symbol.isBlank = false := by
    rw [List.all_append, List.all_cons, hx, Bool.false_and, Bool.and_false]
  have hline {l : Word} (hl : .char '\n' ∉ l) : .char '\n' ∉ l ++ [x] := fun hm =>
    (List.mem_append.mp hm).elim hl fun he => by
      rw [← List.mem_singleton.mp he] at hx
      exact absurd hx (by decide)
  rcases exists_last_line u with h | ⟨v, l, rfl, hl⟩
  · refine ⟨[], false, u.dropWhile Symbol.isBlank, ?_, fun u' b he _ => absurd (he ▸ h) (by simp)⟩
    rw [rows_of_line (hline h) (hall u), Rows.inner_concat hx, List.nil_append]
  · have hrow (gap : Bool) : Rows.behind Symbol.isBlank gap (lines (l ++ [x])) =
        [(gap, l.dropWhile Symbol.isBlank ++ [x])] := by
      rw [lines_of_notMem (hline hl), Rows.behind, if_neg (by simp [hx]), Rows.inner_concat hx]
      rfl
    have hblank (u' b : Word) (he : v ++ .char '\n' :: l = u' ++ .char '\n' :: b)
        (hb : b.all Symbol.isBlank = true) : l.dropWhile Symbol.isBlank = [] := by
      -- no line feed is in the last line, so it is what stands behind the last one
      have hl' : l <:+ .char '\n' :: b := by
        have hsuffix : l <:+ u' ++ .char '\n' :: b :=
          ⟨v ++ [.char '\n'], by rw [List.append_assoc]; exact he⟩
        rcases List.suffix_or_suffix_of_suffix hsuffix (List.suffix_append u' _) with h | h
        · exact h
        · exact absurd (h.subset List.mem_cons_self) hl
      refine List.dropWhile_eq_nil_iff.mpr fun y hy => ?_
      rcases List.mem_cons.mp (hl'.subset hy) with rfl | hy
      · rfl
      · exact List.all_eq_true.mp hb y hy
    rw [List.append_assoc, List.cons_append, rows_append_newline]
    split
    · exact ⟨[], false, _, by rw [rows_of_line (hline hl) (hall l), Rows.inner_concat hx,
        List.nil_append], hblank⟩
    · exact ⟨_, _, _, by rw [hrow], hblank⟩

/-- White space that ends a line leaves a gap. -/
theorem behind_blank_newline {b : Word} (hb : b.all Symbol.isBlank = true) (gap : Bool) (v : Word) :
    Rows.behind Symbol.isBlank gap (lines (b ++ .char '\n' :: v)) =
      Rows.behind Symbol.isBlank true v.lines := by
  have hlines : ∀ l ∈ b.lines, l.all Symbol.isBlank = true :=
    Rows.ofLines_eq_nil_iff.mp (rows_eq_nil_iff.mpr hb)
  have hbehind {ls : List Word} (h : ∀ l ∈ ls, l.all Symbol.isBlank = true) (hne : ls ≠ [])
      (gap : Bool) (ms : List Word) : Rows.behind Symbol.isBlank gap (ls ++ ms) =
        Rows.behind Symbol.isBlank true ms := by
    induction ls generalizing gap with
    | nil => exact absurd rfl hne
    | cons l ls ih =>
      obtain ⟨hl, hls⟩ := List.forall_mem_cons.mp h
      rw [List.cons_append, Rows.behind, if_pos hl]
      cases ls with
      | nil => rfl
      | cons m ls => exact ih hls (List.cons_ne_nil m ls) true
  rw [lines_append, hbehind hlines (lines_ne_nil b)]

/-- **Blank lines end a row**, and leave a gap before the next one. -/
theorem rows_gap {x : Symbol} (hx : x.isBlank = false) (u v : Word) {b b' : Word}
    (hb : b.all Symbol.isBlank = true) (hb' : b'.all Symbol.isBlank = true) :
    rows (u ++ x :: (b ++ .char '\n' :: (b' ++ .char '\n' :: v))) =
      rows (u ++ [x]) ++ Rows.behind Symbol.isBlank true v.lines := by
  have hcut : u ++ x :: (b ++ .char '\n' :: (b' ++ .char '\n' :: v)) =
      (u ++ [x] ++ b) ++ .char '\n' :: (b' ++ .char '\n' :: v) := by simp
  rw [hcut, rows_append_newline, if_neg (by simp [hx]), rows_append_blank hb,
    behind_blank_newline hb']

end Word

namespace Row

/-- The white space before a row: its line feeds and its indentation. -/
def feed (page : Page) (base : Nat) (r : Row) : Text :=
  (if r.gap then ['\n'] else []) ++ '\n' :: page.indentation (base + r.level)

/-- Rows as lines. -/
def lines (page : Page) (base : Nat) (rest : List Row) : Word :=
  rest.flatMap fun r => Word.ofText (r.feed page base) ++ r.word

variable (page : Page) (base : Nat)

theorem newline_notMem_indentation (levels : Nat) : '\n' ∉ page.indentation levels := fun h =>
  absurd (Render.isSpace_of_mem_indentation h) (by decide)

theorem isBlank_feed (r : Row) : Text.isBlank (r.feed page base) = true := by
  rw [feed, Text.isBlank_append, Text.isBlank_cons, Render.isBlank_indentation]
  split <;> rfl

theorem lines_cons (r : Row) (rest : List Row) :
    lines page base (r :: rest) = Word.ofText (r.feed page base) ++ r.word ++
    lines page base rest :=
  List.flatMap_cons

theorem behind_lines {rest : List Row} (hrest : ∀ r ∈ rest, r.word.IsRow) {w : Word} (hw : w.IsRow)
    {b : Text} (hb : Text.isBlank b = true) (hline : '\n' ∉ b) (gap : Bool) :
    Rows.behind Symbol.isBlank gap (Word.ofText b ++ w ++ lines page base rest).lines =
      (gap, w) :: rest.map flush := by
  induction rest generalizing w b gap with
  | nil =>
    obtain ⟨hone, hall, hinner⟩ := hw.indented hb hline
    rw [show lines page base [] = [] from rfl, List.append_nil, Word.lines_of_notMem hone,
      Rows.behind, hall, hinner]
    rfl
  | cons r rest ih =>
    obtain ⟨hone, hall, hinner⟩ := hw.indented hb hline
    obtain ⟨hr, hrest⟩ := List.forall_mem_cons.mp hrest
    have hbehind := ih hrest hr (b := page.indentation (base + r.level))
      (Render.isBlank_indentation page _) (newline_notMem_indentation page _)
    have hcut : Word.ofText b ++ w ++ lines page base (r :: rest) = (Word.ofText b ++ w) ++
        .char '\n' :: ((if r.gap then [.char '\n'] else []) ++
          (Word.ofText (page.indentation (base + r.level)) ++ r.word ++ lines page base rest)) := by
      rw [lines_cons, feed]
      cases r.gap <;> simp [Word.ofText]
    rw [hcut, Word.lines_append, Word.lines_of_notMem hone, List.singleton_append, Rows.behind,
      if_neg (by simp [hall]), hinner, List.map_cons, flush]
    cases r.gap with
    | false => exact congrArg _ (hbehind false)
    | true =>
      refine congrArg _ (.trans ?_ (hbehind true))
      exact congrArg (Rows.behind Symbol.isBlank false) (Word.lines_append [] _)

/-- **The rows of rows that are written as lines.** -/
theorem rows_lines {first : Word} {rest : List Row} (hfirst : first.IsRow)
    (hrest : ∀ r ∈ rest, r.word.IsRow) :
    (first ++ lines page base rest).rows = (false, first) :: rest.map flush := by
  have hbehind := behind_lines page base hrest hfirst (b := []) rfl List.not_mem_nil false
  rw [show Word.ofText [] ++ first = first from rfl] at hbehind
  rw [← hbehind, Word.rows]
  -- the first line is the first row, so there is no gap before it
  obtain ⟨ls, hl⟩ : ∃ ls, (first ++ lines page base rest).lines = first :: ls := by
    have hone := Word.lines_of_notMem hfirst.line
    cases rest with
    | nil => exact ⟨[], by rw [show lines page base [] = [] from rfl, List.append_nil, hone]⟩
    | cons r rest =>
      rw [lines_cons, feed]
      cases r.gap <;>
        exact ⟨_, (Word.lines_append first _).trans (by rw [hone, List.singleton_append])⟩
  rw [hl, Rows.ofLines, Rows.behind, if_neg (by simp [hfirst.all_isBlank]),
    if_neg (by simp [hfirst.all_isBlank])]

end Row

/-! ## Other literals -/

namespace Node

/-- The node behind another literal. -/
def setLead (lead : Text) : Node → Node
  | action info text act => action { info with lead } text act
  | raw info text => raw { info with lead } text
  | block info frame children => block { info with lead } frame children
  | chain info branches => chain { info with lead } branches

@[simp] theorem lead_setLead (lead : Text) (n : Node) : (n.setLead lead).info.lead = lead := by
  cases n <;> rfl

@[simp] theorem text_setLead (lead : Text) (n : Node) : (n.setLead lead).text = n.text := by
  cases n <;> simp only [setLead, text]

/-- A word with a slot is what stands before the slot and behind it. -/
theorem exists_slot {i : Nat} {is : List Nat} : ∀ {w : Word}, w.slots = i :: is →
    ∃ (t : Text) (v : Word), w = Word.ofText t ++ .slot i :: v ∧ v.slots = is
  | [], h => absurd h (by simp [Word.slots])
  | .char c :: w, h => by
    obtain ⟨t, v, rfl, hv⟩ := exists_slot (w := w) h
    exact ⟨c :: t, v, rfl, hv⟩
  | .slot j :: w, h => by
    obtain ⟨rfl, hw⟩ := List.cons.inj h
    exact ⟨[], w, rfl, hw⟩

/-- **A word with slots for siblings** is that of the siblings, behind other literals. -/
theorem exists_recut : ∀ {ns : List Node} {k : Nat} {w : Word},
    w.slots = List.range' k ns.length → ∃ ns' tail, aliasWord k ns' ++ Word.ofText tail = w ∧
      List.Forall₂ (fun n n' => ∃ lead, n' = n.setLead lead) ns ns'
  | [], k, w, h => by
    obtain ⟨t, rfl⟩ := Word.exists_ofText h
    exact ⟨[], t, rfl, .nil⟩
  | n :: ns, k, w, h => by
    obtain ⟨t, v, rfl, hv⟩ := exists_slot h
    obtain ⟨ns', tail, rfl, hns⟩ := exists_recut hv
    exact ⟨n.setLead t :: ns', tail, by rw [aliasWord, lead_setLead, List.append_assoc]; rfl,
      .cons ⟨t, rfl⟩ hns⟩

end Node

end TemplateFormat
