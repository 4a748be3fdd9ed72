import TemplateFormat.Proofs.Print.RowText

/-!
# Rows that are printed twice

Rows are printed in broken mode, symbol by symbol (`printRows`). Where every slot prints a text, and
some other document prints the same from the same place, rows with the other documents in their
slots print the same as the rows do (`exists_again`).

In a container the documents of the children are dressed (`Dressed`): a line break may come behind a
child, to keep a blank line there. It stands at the end of a row, and before a row with a gap it is
lost. Only behind the last row it is seen.

Results:
* `print_rowsDoc`: the document of rows is printed row by row.
* `exists_again`: rows that are printed twice.
-/

namespace TemplateFormat

open Doc Render

namespace Render

/-- What stands before a new line fits if there is room for it. -/
def atBreak : Int → Bool := fun room => 0 ≤ room

theorem fits_line (kind : Line) (after : Int → Bool) :
    fitsThen .broken (.line kind) after = atBreak := by
  funext room
  rw [fitsThen]
  exact if_pos (by simp)

/-- A line break, if there is one. -/
def settle (page : Page) (levels : Nat) (breaks : Bool) (o : Output) : Output :=
  if breaks then o.newline page levels true else o

end Render

/-! ## Row by row -/

section Rows

variable (page : Page) (base : Nat) (d : Nat → Doc)

/-- The line breaks before a row. -/
def Row.turn (r : Row) (o : Output) : Output :=
  (settle page base r.gap o).newline page (base + r.level) true

/-- Rows in broken mode: the first at a level, and the others behind it. -/
def printRows (levels : Nat) (first : Word) : List Row → Output → Output
  | [] => printAllThen page levels .broken (first.docs d) atBreak
  | r :: rest => printRows (base + r.level) r.word rest ∘ r.turn page base ∘
      printAllThen page levels .broken (first.docs d) atBreak

theorem fits_rows (rest : List Row) :
    fitsAllThen .broken (rest.flatMap (Row.docs d)) atBreak = atBreak := by
  have hindent (level : Nat) (e : Doc) (after : Int → Bool) :
      fitsThen .broken (Nat.iterate Doc.indent level e) after = fitsThen .broken e after := by
    induction level generalizing e with
    | zero => rfl
    | succ level ih => rw [Function.iterate_succ_apply, ih, fitsThen]
  cases rest with
  | nil => rfl
  | cons r rest =>
    rw [List.flatMap_cons, fitsAllThen_append, Row.docs]
    cases r.gap with
    | true => exact fits_line .hard _
    | false =>
      rw [if_neg (by decide), List.nil_append, fitsAllThen, hindent, fitsThen, fitsAllThen]
      exact fits_line .hard _

theorem print_row_docs (r : Row) :
    printAllThen page base .broken (r.docs d) atBreak =
      printAllThen page (base + r.level) .broken (r.word.docs d) atBreak ∘ r.turn page base := by
  have hindent (level base : Nat) (e : Doc) : printThen page base .broken
      (Nat.iterate Doc.indent level e) atBreak = printThen page (base + level) .broken e
      atBreak := by
    induction level generalizing e with
    | zero => rfl
    | succ level ih => rw [Function.iterate_succ_apply, ih, printThen, Nat.add_assoc]
  have hrow : printAllThen page base .broken
      [Nat.iterate Doc.indent r.level (.concat (.hardline :: r.word.docs d))] atBreak =
        fun o => printAllThen page (base + r.level) .broken (r.word.docs d) atBreak
          (o.newline page (base + r.level) true) := by
    rw [printAllThen, printAllThen, fitsAllThen, hindent, printThen, printAllThen]
    rfl
  rw [Row.docs, printAllThen_append, hrow]
  funext o
  rw [Function.comp_apply, Function.comp_apply, Row.turn]
  cases r.gap <;> rfl

/-- **The document of rows is printed row by row.** -/
theorem print_rowsDoc (first : Word) (rest : List Row) :
    printThen page base .broken (rowsDoc d first rest) atBreak =
      printRows page base d base first rest := by
  have hrows (levels : Nat) : printAllThen page base .broken (rest.flatMap (Row.docs d)) atBreak ∘
      printAllThen page levels .broken (first.docs d) atBreak =
        printRows page base d levels first rest := by
    induction rest generalizing levels first with
    | nil => rfl
    | cons r rest ih =>
      rw [List.flatMap_cons, printAllThen_append, fits_rows, print_row_docs, printRows,
        ← ih r.word (base + r.level)]
      rfl
  rw [rowsDoc, printThen, printAllThen_append, fits_rows, hrows]

end Rows

/-! ## Words -/

namespace Word

variable {x y : Nat → Doc} {f g : Nat → Text}

theorem docs_congr {w : Word} (h : ∀ i ∈ w.slots, x i = y i) : w.docs x = w.docs y := by
  refine List.map_congr_left fun s hs => ?_
  cases s with
  | char c => rfl
  | slot i => exact h i (mem_slots.mpr hs)

theorem restore_congr : ∀ {w : Word}, (∀ i ∈ w.slots, f i = g i) → w.restore f = w.restore g
  | [], _ => rfl
  | .char c :: w, h => congrArg (c :: ·) (restore_congr (w := w) h)
  | .slot i :: w, h => by
    obtain ⟨hi, hw⟩ := List.forall_mem_cons.mp h
    rw [restore, restore, hi, restore_congr (w := w) hw]

theorem docs_append (x : Nat → Doc) (v w : Word) : docs x (v ++ w) = docs x v ++ docs x w := by
  rw [docs, docs, docs, List.map_append]

theorem fits_docs_append (x : Nat → Doc) (v w : Word) (after : Int → Bool) :
    fitsAllThen .broken (docs x (v ++ w)) after =
      fitsAllThen .broken (docs x v) (fitsAllThen .broken (docs x w) after) := by
  rw [docs_append, fitsAllThen_append]

/-- Words with documents that fit alike in their slots. -/
theorem fits_docs {w : Word} (h : ∀ i ∈ slots w, ∀ after,
    fitsThen .broken (x i) after = fitsThen .broken (y i) after) (after : Int → Bool) :
    fitsAllThen .broken (docs x w) after = fitsAllThen .broken (docs y w) after := by
  induction w with
  | nil => rfl
  | cons s w ih =>
    cases s with
    | char c => exact congrArg (fitsThen .broken (.text [c])) (ih h)
    | slot i =>
      obtain ⟨hi, hw⟩ := List.forall_mem_cons.mp (show ∀ j ∈ i :: slots w, _ from h)
      show fitsThen .broken (x i) (fitsAllThen .broken (docs x w) after) =
        fitsThen .broken (y i) (fitsAllThen .broken (docs y w) after)
      rw [hi, ih hw]

end Word

/-- Wherever the document is printed, it prints the text of a node that has the property, and the
document `e` of that node prints the same. -/
structure Repeats (page : Page) (Q : Node → Prop) (d : Doc) (e : Node → Doc) : Prop where
  exists_node : ∀ levels after o, ∃ n, Q n ∧
    (printThen page levels .broken d after o).chars = n.text.reverse ++ o.chars ∧
      printThen page levels .broken (e n) after o = printThen page levels .broken d after o
  fits : ∀ n, Q n → ∀ after, fitsThen .broken (e n) after = fitsThen .broken d after
  ends : ∀ n, Q n → ∃ t, n.text = t ++ ['}']

section Again

variable {page : Page} {Q : Nat → Node → Prop} {d : Nat → Doc} {e : Node → Doc}

/-- **A word that is printed twice**, and each part of it from the start, by induction on the
word. -/
theorem exists_again_word (levels : Nat) (after : Int → Bool) : ∀ {w : Word}, w.slots.Nodup →
    (∀ i ∈ w.slots, Repeats page (Q i) (d i) e) → ∀ o, ∃ c : Nat → Node,
      (∀ i ∈ w.slots, Q i (c i)) ∧ (printAllThen page levels .broken (w.docs d) after o).chars =
        (w.restore fun i => (c i).text).reverse ++ o.chars ∧
      ∀ v v' : Word, w = v ++ v' →
        printAllThen page levels .broken (v.docs fun i => e (c i))
            (fitsAllThen .broken (v'.docs d) after) o =
          printAllThen page levels .broken (v.docs d) (fitsAllThen .broken (v'.docs d) after) o
  | [], _, _, o => by
    refine ⟨default, by simp [Word.slots], rfl, fun v v' he => ?_⟩
    obtain rfl := (List.append_eq_nil_iff.mp he.symm).1
    rfl
  | .char x :: w, hnodup, h, o => by
    obtain ⟨c, hc, hchars, hparts⟩ := exists_again_word levels after (w := w) hnodup h (o.write [x])
    refine ⟨c, hc, ?_, fun v v' he => ?_⟩
    · refine hchars.trans ?_
      simp [Output.write, Word.restore]
    · rcases List.cons_eq_append_iff.mp he with ⟨rfl, rfl⟩ | ⟨v, rfl, hv⟩
      · rfl
      · exact hparts v v' hv
  | .slot i :: w, hnodup, h, o => by
    obtain ⟨hi, hw⟩ := List.forall_mem_cons.mp (show ∀ j ∈ i :: Word.slots w, _ from h)
    obtain ⟨hnew, hnodup⟩ := List.nodup_cons.mp (show (i :: Word.slots w).Nodup from hnodup)
    obtain ⟨n, hn, hchars, hprint⟩ := hi.exists_node levels
      (fitsAllThen .broken (Word.docs d w) after) o
    obtain ⟨c, hc, hwchars, hparts⟩ := exists_again_word levels after hnodup hw
      (printThen page levels .broken (d i) (fitsAllThen .broken (Word.docs d w) after) o)
    -- the slot stands nowhere else, so it can be given its node
    have hold : ∀ j ∈ Word.slots w, Function.update c i n j = c j := fun j hj =>
      Function.update_of_ne (fun he : j = i => hnew (he ▸ hj)) n c
    have hchosen : ∀ j ∈ i :: Word.slots w, Q j (Function.update c i n j) := by
      refine List.forall_mem_cons.mpr ⟨by rw [Function.update_self]; exact hn, fun j hj => ?_⟩
      rw [hold j hj]
      exact hc j hj
    refine ⟨Function.update c i n, hchosen, ?_, fun v v' he => ?_⟩
    · have hrestore : Word.restore (fun j => (Function.update c i n j).text) (.slot i :: w) =
          n.text ++ Word.restore (fun j => (c j).text) w := by
        rw [Word.restore, Function.update_self, Word.restore_congr fun j hj => by rw [hold j hj]]
      rw [hrestore, List.reverse_append, List.append_assoc, ← hchars]
      exact hwchars
    · rcases List.cons_eq_append_iff.mp he with ⟨rfl, rfl⟩ | ⟨v, rfl, rfl⟩
      · rfl
      · have hv : ∀ j ∈ Word.slots v, j ∈ Word.slots (v ++ v') := fun j hj => by
          rw [Word.slots_append]
          exact List.mem_append_left _ hj
        have hdocs : Word.docs (fun j => e (Function.update c i n j)) v =
            Word.docs (fun j => e (c j)) v :=
          Word.docs_congr fun j hj => by rw [hold j (hv j hj)]
        have hfits : fitsAllThen .broken (Word.docs (fun j => e (c j)) v)
              (fitsAllThen .broken (Word.docs d v') after) =
            fitsAllThen .broken (Word.docs d v) (fitsAllThen .broken (Word.docs d v') after) :=
          Word.fits_docs (fun j hj => (hw j (hv j hj)).fits (c j) (hc j (hv j hj))) _
        show printAllThen page levels .broken
            (e (Function.update c i n i) :: Word.docs (fun j => e (Function.update c i n j)) v)
            _ o =
          printAllThen page levels .broken (d i :: Word.docs d v) _ o
        rw [hdocs, Function.update_self, printAllThen, printAllThen, Function.comp_apply,
          Function.comp_apply, hfits, ← Word.fits_docs_append, hprint]
        exact hparts v v' rfl

/-! ## Documents in their places -/

/-- The document `dd` is `x` in a place. Where a blank line is kept behind it, a line break comes:
if the document is alone on its line, or does not fit on the line. -/
structure Dressed (flat : Int → Bool) (kept alone : Bool) (dd x : Doc) : Prop where
  akin : kept = false → Akin dd x
  fits : fitsThen .broken dd atBreak = fitsThen .broken x atBreak
  print : kept = true → ∀ page levels o, printThen page levels .broken dd atBreak o =
    settle page levels (alone || !flat (page.room o.column))
      (printThen page levels .broken x atBreak o)

namespace Word

/-- A line break comes behind the last slot, if it ends the word. -/
def keeps (kept alone : Nat → Bool) (tight : Bool) (w : Word) : Bool :=
  match w.getLast? with
  | some (.slot i) => kept i && (alone i || tight)
  | _ => false

/-- The last slot does not fit on the line. -/
def tightAt (page : Page) (levels : Nat) (flat : Nat → Int → Bool) (x : Nat → Doc) (w : Word)
    (o : Output) : Bool :=
  match w.getLast? with
  | some (.slot i) => !flat i (page.room (printAllThen page levels .broken (docs x w.dropLast)
      (fitsThen .broken (x i) atBreak) o).column)
  | _ => false

/-- **A row in its place**: only behind its last slot there can be a line break. -/
theorem print_dressed (page : Page) (levels : Nat) {flat : Nat → Int → Bool}
    {kept alone : Nat → Bool} {dd x : Nat → Doc} {w : Word} (hne : w ≠ [])
    (hd : ∀ i ∈ w.slots, Dressed (flat i) (kept i) (alone i) (dd i) (x i))
    (hkept : ∀ i ∈ slots w.dropLast, kept i = false) (o : Output) :
    printAllThen page levels .broken (w.docs dd) atBreak o =
      settle page levels (w.keeps kept alone (w.tightAt page levels flat x o))
        (printAllThen page levels .broken (w.docs x) atBreak o) := by
  obtain rfl | ⟨v, s, rfl⟩ := List.eq_nil_or_concat w
  · exact absurd rfl hne
  rw [List.concat_eq_append] at hd hkept ⊢
  rw [List.dropLast_concat] at hkept
  have hv : List.Forall₂ Akin (docs dd v) (docs x v) := by
    have : ∀ s ∈ v, Akin (s.doc dd) (s.doc x) := by
      intro s hs
      cases s with
      | char c => exact .refl _
      | slot i =>
        have hi : i ∈ slots v := mem_slots.mpr hs
        exact (hd i (by rw [slots_append]; exact List.mem_append_left _ hi)).akin (hkept i hi)
    rw [docs, docs, List.forall₂_map_left_iff, List.forall₂_map_right_iff, List.forall₂_same]
    exact this
  have hcut (y : Nat → Doc) : docs y (v ++ [s]) = docs y v ++ [s.doc y] := docs_append y v [s]
  rw [hcut, hcut, printAllThen_append, printAllThen_append, Function.comp_apply,
    Function.comp_apply, (Akin.all hv page levels _).2]
  cases s with
  | char c =>
    rw [keeps, List.getLast?_concat]
    rfl
  | slot i =>
    have hi := hd i (by
      rw [slots_append]
      exact List.mem_append_right _ (List.mem_singleton_self i))
    have hone (y : Nat → Doc) : fitsAllThen .broken [(Symbol.slot i).doc y] atBreak =
        fitsThen .broken (y i) atBreak := rfl
    have hprint (y : Nat → Doc) (o : Output) :
        printAllThen page levels .broken [(Symbol.slot i).doc y] atBreak o =
          printThen page levels .broken (y i) atBreak o := rfl
    rw [hone, hone, hprint, hprint, hi.fits, keeps, tightAt, List.getLast?_concat,
      List.dropLast_concat]
    dsimp only
    cases hkept : kept i with
    | false => exact congrFun ((hi.akin hkept).print page levels atBreak) _
    | true => rw [hi.print hkept, Bool.true_and]

/-- A row that was printed ends with something that is not blank. -/
theorem IsRow.inked {w : Word} (h : w.IsRow) {f : Nat → Text}
    (hf : ∀ i ∈ w.slots, ∃ t, f i = t ++ ['}']) (cs : Text) :
    Inked ((w.restore f).reverse ++ cs) := by
  obtain rfl | ⟨v, s, rfl⟩ := List.eq_nil_or_concat w
  · exact absurd rfl h.ne_nil
  rw [List.concat_eq_append] at h hf ⊢
  rw [restore_append, List.reverse_append, List.append_assoc]
  cases s with
  | char c => exact ⟨c, _, rfl, h.tight.last (.char c) (by rw [List.getLast?_concat]; rfl)⟩
  | slot i =>
    obtain ⟨t, ht⟩ := hf i (by
      rw [slots_append]
      exact List.mem_append_right _ (List.mem_singleton_self i))
    exact ⟨'}', _, by rw [restore, restore, List.append_nil, ht, List.reverse_append]; rfl,
      by decide⟩

end Word

/-! ## Rows -/

/-- A blank line is kept only behind the last symbol of a row, and before a row with a gap. -/
def Closes (kept : Nat → Bool) : Word → List Row → Prop
  | w, [] => ∀ i ∈ Word.slots w.dropLast, kept i = false
  | w, r :: rest => (∀ i ∈ Word.slots w.dropLast, kept i = false) ∧
      (r.gap = false → ∀ i ∈ w.slots, kept i = false) ∧ Closes kept r.word rest

/-- The last row. -/
def lastWord (first : Word) (rest : List Row) : Word := (rest.getLast?.map Row.word).getD first

/-- The slots of rows. -/
def rowSlots (first : Word) (rest : List Row) : List Nat :=
  first.slots ++ rest.flatMap fun r => r.word.slots

/-- In their places the documents `x` print `o'`, and then a line break where one comes behind the
last slot. -/
def Settles (page : Page) (base levels : Nat) (flat : Nat → Int → Bool) (x : Nat → Doc)
    (first : Word) (rest : List Row) (o : Output) (tight : Bool) (levels' : Nat) (o' : Output) :
    Prop :=
  ∀ (kept alone : Nat → Bool) (dd : Nat → Doc), Closes kept first rest →
    (∀ i ∈ rowSlots first rest, Dressed (flat i) (kept i) (alone i) (dd i) (x i)) →
      printRows page base dd levels first rest o =
        settle page levels' ((lastWord first rest).keeps kept alone tight) o'

namespace Row

variable {r : Row} {o : Output}

/-- A line break before a gap is lost. -/
theorem turn_settle (base levels : Nat) (h : Inked o.chars) {breaks : Bool}
    (hgap : breaks = true → r.gap = true) :
    r.turn page base (settle page levels breaks o) = r.turn page base o := by
  cases breaks with
  | false => rfl
  | true =>
    simp only [turn, settle, hgap rfl, if_true]
    rw [newline_of_inked_eq page levels h, newline_of_feed page levels base h,
      newline_of_blank, newline_of_inked_eq page base h, newline_of_feed page base _ h]

theorem chars_turn (base : Nat) (h : Inked o.chars) :
    (r.turn page base o).chars = (r.feed page base).reverse ++ o.chars := by
  rw [turn, settle, feed]
  cases r.gap with
  | false =>
    rw [if_neg (by decide), newline_of_inked_eq page _ h]
    simp [indentation_reverse]
  | true =>
    rw [if_pos rfl, newline_of_inked_eq page _ h, newline_of_feed page base _ h]
    simp [indentation_reverse]

end Row

theorem slots_lines (base : Nat) (rest : List Row) :
    Word.slots (Row.lines page base rest) = rest.flatMap fun r => r.word.slots := by
  induction rest with
  | nil => rfl
  | cons r rest ih =>
    rw [Row.lines_cons, Word.slots_append, Word.slots_append, Word.slots_ofText, List.nil_append,
      ih,
      List.flatMap_cons]

theorem rowSlots_cons (first : Word) (r : Row) (rest : List Row) :
    rowSlots first (r :: rest) = first.slots ++ rowSlots r.word rest := by
  rw [rowSlots, rowSlots, List.flatMap_cons]

theorem lastWord_cons (first : Word) (r : Row) (rest : List Row) :
    lastWord first (r :: rest) = lastWord r.word rest := by
  rw [lastWord, lastWord, List.getLast?_cons]
  cases rest.getLast? <;> rfl

/-- A row whose parts are printed twice alike does not fit on the line twice alike. -/
theorem tightAt_eq {flat : Nat → Int → Bool} {levels : Nat} {o : Output} {w : Word}
    {c : Nat → Node} (h : ∀ i ∈ w.slots, Repeats page (Q i) (d i) e) (hc : ∀ i ∈ w.slots, Q i (c i))
    (hparts : ∀ v v' : Word, w = v ++ v' → printAllThen page levels .broken (v.docs fun i =>
    e (c i))
      (fitsAllThen .broken (v'.docs d) atBreak) o = printAllThen page levels .broken (v.docs d)
        (fitsAllThen .broken (v'.docs d) atBreak) o) :
    w.tightAt page levels flat (fun i => e (c i)) o = w.tightAt page levels flat d o := by
  obtain rfl | ⟨v, s, rfl⟩ := List.eq_nil_or_concat w
  · rfl
  rw [List.concat_eq_append] at *
  rw [Word.tightAt, Word.tightAt, List.getLast?_concat, List.dropLast_concat]
  cases s with
  | char x => rfl
  | slot i =>
    have hi : i ∈ Word.slots (v ++ [.slot i]) := by
      rw [Word.slots_append]
      exact List.mem_append_right _ (List.mem_singleton_self i)
    have hlast : fitsAllThen .broken (Word.docs d [.slot i]) atBreak =
        fitsThen .broken (d i) atBreak := rfl
    have hv := hparts v [.slot i] rfl
    rw [hlast] at hv
    simp only [(h i hi).fits (c i) (hc i hi) atBreak, hv]

/-- **Rows that are printed twice**, by induction on the rows. -/
theorem exists_again (page : Page) (base : Nat) (flat : Nat → Int → Bool) :
    ∀ {rest : List Row} {first : Word},
    first.IsRow → (∀ r ∈ rest, r.word.IsRow) → (rowSlots first rest).Nodup →
    (∀ i ∈ rowSlots first rest, Repeats page (Q i) (d i) e) → ∀ levels o,
      ∃ (c : Nat → Node) (tight : Bool) (levels' : Nat) (o' : Output),
        (∀ i ∈ rowSlots first rest, Q i (c i)) ∧
        o'.chars = (Word.restore (fun i => (c i).text)
          (first ++ Row.lines page base rest)).reverse ++ o.chars ∧ Inked o'.chars ∧
        Settles page base levels flat d first rest o tight levels' o' ∧
        Settles page base levels flat (fun i => e (c i)) first rest o tight levels' o'
  | [], first, hfirst, _, hnodup, h, levels, o => by
    rw [show rowSlots first [] = first.slots from List.append_nil _] at *
    obtain ⟨c, hc, hchars, hparts⟩ := exists_again_word levels atBreak hnodup h o
    have hwhole := hparts first [] (List.append_nil first).symm
    refine ⟨c, first.tightAt page levels flat d o, levels,
      printAllThen page levels .broken (first.docs d) atBreak o, hc, ?_, ?_, ?_, ?_⟩
    · rw [show Row.lines page base [] = [] from rfl, List.append_nil]
      exact hchars
    · rw [hchars]
      exact hfirst.inked (fun i hi => (h i hi).ends (c i) (hc i hi)) _
    · intro kept alone dd hcloses hd
      rw [show rowSlots first [] = first.slots from List.append_nil _] at hd
      exact Word.print_dressed page levels hfirst.ne_nil hd hcloses o
    · intro kept alone dd hcloses hd
      rw [show rowSlots first [] = first.slots from List.append_nil _] at hd
      refine (Word.print_dressed page levels hfirst.ne_nil hd hcloses o).trans ?_
      rw [tightAt_eq h hc hparts, show printAllThen page levels .broken
        (first.docs fun i => e (c i)) atBreak o = _ from hwhole]
      rfl
  | r :: rest, first, hfirst, hrest, hnodup, h, levels, o => by
    obtain ⟨hr, hrest⟩ := List.forall_mem_cons.mp hrest
    rw [rowSlots_cons] at hnodup h
    obtain ⟨hnodup, hnodup', hdisjoint⟩ := List.nodup_append'.mp hnodup
    obtain ⟨h, h'⟩ := List.forall_mem_append.mp h
    obtain ⟨c, hc, hchars, hparts⟩ := exists_again_word levels atBreak hnodup h o
    have hwhole := hparts first [] (List.append_nil first).symm
    have hinked : Inked (printAllThen page levels .broken (first.docs d) atBreak o).chars := by
      rw [hchars]
      exact hfirst.inked (fun i hi => (h i hi).ends (c i) (hc i hi)) _
    obtain ⟨c', tight, levels', o', hc', hchars', hinked', hsettles, hsettles'⟩ :=
      exists_again page base flat hr hrest hnodup' h' (base + r.level)
        (r.turn page base (printAllThen page levels .broken (first.docs d) atBreak o))
    -- the slots of the first row are not those of the others
    obtain ⟨c'', hleft, hright⟩ : ∃ c'' : Nat → Node, (∀ i ∈ first.slots, c'' i = c i) ∧
        ∀ i ∈ rowSlots r.word rest, c'' i = c' i :=
      ⟨fun i => if i ∈ first.slots then c i else c' i, fun i hi => if_pos hi,
        fun i hi => if_neg fun hm => hdisjoint hm hi⟩
    have hgap {kept alone : Nat → Bool} {tight : Bool} (hcloses : Closes kept first (r :: rest))
        (hbreaks : first.keeps kept alone tight = true) : r.gap = true := by
      by_contra hnot
      rw [Word.keeps] at hbreaks
      split at hbreaks
      · rename_i i hi
        rw [hcloses.2.1 (Bool.eq_false_iff.mpr hnot) i
          (Word.mem_slots.mpr (List.mem_of_mem_getLast? hi))] at hbreaks
        exact absurd hbreaks (by simp)
      · exact absurd hbreaks (by decide)
    refine ⟨c'', tight, levels', o', ?_, ?_, hinked', ?_, ?_⟩
    · rw [rowSlots_cons]
      refine List.forall_mem_append.mpr ⟨fun i hi => ?_, fun i hi => ?_⟩
      · rw [hleft i hi]
        exact hc i hi
      · rw [hright i hi]
        exact hc' i hi
    · have hhead : first.restore (fun i => (c'' i).text) = first.restore fun i => (c i).text :=
        Word.restore_congr fun i hi => by rw [hleft i hi]
      have htail : Word.restore (fun i => (c'' i).text) (r.word ++ Row.lines page base rest) =
          Word.restore (fun i => (c' i).text) (r.word ++ Row.lines page base rest) := by
        refine Word.restore_congr fun i hi => ?_
        rw [Word.slots_append, slots_lines] at hi
        rw [hright i hi]
      rw [hchars', Row.chars_turn base hinked, hchars, Row.lines_cons, List.append_assoc,
        Word.restore_append _ first, hhead, Word.restore_append _ (Word.ofText _),
        Word.restore_ofText, htail]
      simp only [List.reverse_append, List.append_assoc]
    · intro kept alone dd hcloses hd
      rw [rowSlots_cons] at hd
      obtain ⟨hd, hd'⟩ := List.forall_mem_append.mp hd
      rw [printRows, Function.comp_apply, Function.comp_apply,
        Word.print_dressed page levels hfirst.ne_nil hd hcloses.1,
        Row.turn_settle base levels hinked (hgap hcloses), hsettles kept alone dd hcloses.2.2 hd',
        lastWord_cons]
    · intro kept alone dd hcloses hd
      rw [rowSlots_cons] at hd
      obtain ⟨hd, hd'⟩ := List.forall_mem_append.mp hd
      have hd' : ∀ i ∈ rowSlots r.word rest,
          Dressed (flat i) (kept i) (alone i) (dd i) (e (c' i)) := fun i hi => by
        rw [← hright i hi]
        exact hd' i hi
      have hsame : printAllThen page levels .broken (first.docs fun i => e (c'' i)) atBreak o =
          printAllThen page levels .broken (first.docs d) atBreak o := by
        rw [Word.docs_congr (y := fun i => e (c i)) fun i hi => by rw [hleft i hi]]
        exact hwhole
      rw [printRows, Function.comp_apply, Function.comp_apply,
        Word.print_dressed page levels hfirst.ne_nil hd hcloses.1, hsame,
        Row.turn_settle base levels hinked (hgap hcloses),
        hsettles' kept alone dd hcloses.2.2 hd', lastWord_cons]

end Again

end TemplateFormat
