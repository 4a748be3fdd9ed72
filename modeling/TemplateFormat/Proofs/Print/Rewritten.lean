import TemplateFormat.Proofs.Print.Reprint
import TemplateFormat.Proofs.Token.Printed

/-!
# Printed actions, printed again

A printed action reads as an action (`Rewritten`). Its statement has other white space: the lines of
a statement that goes over lines are indented as they are printed, and runs of blank lines are made
one. So the statement has the same rows, and the action that is read back is printed the same.

Results:
* `Action.print_doc`: an action whose statement goes over lines is printed row by row.
* `exists_rewritten`: wherever an action is printed, it reads as one that is printed the same.
-/

namespace TemplateFormat

open Doc Render

/-- The action `a'`, spelled `t'`, is what the action `a`, spelled `t`, reads as when it is
printed. -/
structure Rewritten (spacing : Bool) (t : Text) (a : Action) (t' : Text) (a' : Action) : Prop where
  reads : ReadsAs t' a'
  same : Same (a'.doc spacing) (a.doc spacing)
  forces : (a'.doc spacing).forcesBreak = (a.doc spacing).forcesBreak
  squeeze_eq : Text.squeeze a'.statement = Text.squeeze a.statement
  solid_eq : Text.solid t' = Text.solid t

/-! ## Lines of statements -/

section Lines

variable (page : Page)

/-- Lines, each on a new line. -/
def feedLines (levels : Nat) (ls : List Text) (o : Output) : Output :=
  ls.foldl (fun o l => (o.newline page levels true).write l) o

/-- Rows, one level below `levels`. -/
def feedRows (levels : Nat) (rs : List (Bool × Text)) (o : Output) : Output :=
  rs.foldl (fun o r => ((settle page levels r.1 o).newline page (levels + 1) true).write r.2) o

theorem inked_write {o : Output} {l : Text} (h : Text.isBlank l = false) :
    Inked (o.write (Text.trim l)).chars :=
  (Markup.inked_trim h).append o.chars

/-- **Lines are printed as their rows**, and so they are behind one new line or two, by induction on
the lines: behind two new lines there is a gap already. -/
theorem feedLines_eq (levels : Nat) {ls : List Text} (hne : ls ≠ [])
    (hlast : ∀ l ∈ ls.getLast?, Text.isBlank l = false) {o : Output} (ho : Inked o.chars) :
    feedLines page (levels + 1) (ls.map Text.trim) o =
        feedRows page levels (Rows.behind isBlank false ls) o ∧
      feedLines page (levels + 1) (ls.map Text.trim) (o.newline page (levels + 1) true) =
        feedRows page levels (Rows.behind isBlank true ls) o ∧
      feedLines page (levels + 1) (ls.map Text.trim)
          ((o.newline page (levels + 1) true).newline page (levels + 1) true) =
        feedRows page levels (Rows.behind isBlank true ls) o := by
  have hturn {o : Output} (ho : Inked o.chars) :
      (o.newline page (levels + 1) true).newline page (levels + 1) true =
        (o.newline page levels true).newline page (levels + 1) true := by
    rw [newline_of_inked_eq page (levels + 1) ho, newline_of_feed page _ _ ho,
      newline_of_inked_eq page levels ho, newline_of_feed page _ _ ho]
  have hblank {o : Output} (ho : Inked o.chars) :
      ((o.newline page (levels + 1) true).newline page (levels + 1) true).newline page
        (levels + 1) true = (o.newline page (levels + 1) true).newline page (levels + 1) true := by
    rw [newline_of_inked_eq page (levels + 1) ho, newline_of_feed page _ _ ho, newline_of_blank]
  induction ls generalizing o with
  | nil => exact absurd rfl hne
  | cons l ls ih =>
    have hls (hl : ls ≠ []) : ∀ l ∈ ls.getLast?, Text.isBlank l = false := by
      obtain ⟨m, ms, rfl⟩ := List.exists_cons_of_ne_nil hl
      rwa [List.getLast?_cons_cons] at hlast
    cases hl : Text.isBlank l with
    | true =>
      have hmore : ls ≠ [] := by
        rintro rfl
        rw [hlast l rfl] at hl
        exact absurd hl (by decide)
      obtain ⟨-, hone, htwo⟩ := ih hmore (hls hmore) ho
      have hbehind (gap : Bool) : Rows.behind isBlank gap (l :: ls) = Rows.behind isBlank true ls :=
        if_pos hl
      have hfeed (o : Output) : feedLines page (levels + 1) ((l :: ls).map Text.trim) o =
          feedLines page (levels + 1) (ls.map Text.trim) (o.newline page (levels + 1) true) := by
        rw [List.map_cons, feedLines, List.foldl_cons, Text.trim_of_isBlank hl, write_nil]
        rfl
      rw [hbehind, hbehind, hfeed, hfeed, hfeed, hblank ho]
      exact ⟨hone, htwo, htwo⟩
    | false =>
      have hbehind (gap : Bool) : Rows.behind isBlank gap (l :: ls) =
          (gap, Text.trim l) :: Rows.behind isBlank false ls :=
        if_neg (Bool.eq_false_iff.mp hl)
      have hfeed (o : Output) : feedLines page (levels + 1) (ls.map Text.trim)
            (o.write (Text.trim l)) =
          feedRows page levels (Rows.behind isBlank false ls) (o.write (Text.trim l)) := by
        by_cases hmore : ls = []
        · rw [hmore]
          rfl
        · exact (ih hmore (hls hmore) (inked_write hl)).1
      rw [hbehind, hbehind]
      refine ⟨hfeed _, ?_, ?_⟩
      · rw [List.map_cons, feedLines, List.foldl_cons, hturn ho]
        exact hfeed _
      · rw [List.map_cons, feedLines, List.foldl_cons, hblank ho, hturn ho]
        exact hfeed _

/-- The statement goes over lines. -/
structure OverLines (statement : Text) : Prop where
  trimmed : statement.Trimmed
  newline : '\n' ∈ statement

variable {statement : Text}

/-- **The lines of a statement that goes over lines**, trimmed, and its rows: no line feed comes
before the first line, and none behind the last. -/
theorem OverLines.exists_lines (h : OverLines statement) : ∃ l ls, Text.lines statement = l :: ls ∧
    Text.isBlank l = false ∧ ls ≠ [] ∧ (∀ l ∈ ls.getLast?, Text.isBlank l = false) ∧
      statementLines statement = Text.trim l :: ls.map Text.trim ∧
      Text.rows statement = (false, Text.trim l) :: Rows.behind isBlank false ls := by
  obtain ⟨l, y, he, hl⟩ := List.eq_append_cons_of_mem h.newline
  obtain ⟨m, x, hrev, hm⟩ := List.eq_append_cons_of_mem (List.mem_reverse.mpr h.newline)
  have he' : statement = x.reverse ++ '\n' :: m.reverse := by
    rw [← List.reverse_reverse statement, hrev]
    simp
  have hlines : Text.lines statement = l :: Text.lines y := by
    rw [he, Text.lines_append_newline hl]
  have hlines' : Text.lines statement = Text.lines x.reverse ++ [m.reverse] := by
    rw [he', Text.lines_append, Text.lines_of_notMem fun hn => hm (List.mem_reverse.mp hn)]
  have hfirst : Text.isBlank l = false := by
    obtain _ | ⟨c, l⟩ := l
    · exact absurd (h.trimmed.head '\n' (by rw [he]; rfl)) (by decide)
    · rw [Text.isBlank_cons, h.trimmed.head c (by rw [he]; rfl), Bool.false_and]
  have hlast : Text.isBlank m.reverse = false := by
    rw [Text.isBlank, List.all_reverse]
    obtain _ | ⟨c, m⟩ := m
    · exact absurd (h.trimmed.last '\n' (by rw [he']; simp)) (by decide)
    · rw [List.all_cons, h.trimmed.last c (by
        rw [he', List.reverse_cons, ← List.cons_append, ← List.append_assoc, List.getLast?_concat]
        rfl), Bool.false_and]
  have hends : (Text.lines y).getLast? = some m.reverse := by
    obtain ⟨k, ks, hy⟩ := List.exists_cons_of_ne_nil (Text.lines_ne_nil y)
    rw [hy] at hlines ⊢
    rw [← List.getLast?_cons_cons (a := l), ← hlines, hlines', List.getLast?_concat]
  have hnot : (Text.lines statement).getLast? ≠ some [] := by
    rw [hlines', List.getLast?_concat]
    intro hnil
    rw [Option.some.inj hnil] at hlast
    exact absurd hlast (by decide)
  refine ⟨l, Text.lines y, hlines, hfirst, Text.lines_ne_nil y, fun k hk => ?_, ?_, ?_⟩
  · rw [hends] at hk
    rw [← Option.some.inj hk]
    exact hlast
  · rw [statementLines, if_neg hnot, hlines, List.map_cons]
  · rw [Text.rows, hlines, Rows.ofLines]
    exact if_neg (Bool.eq_false_iff.mp hfirst)

end Lines

/-! ## Statements -/

section Print

variable {a : Action} {first : Text} {rs : List (Bool × Text)}

/-- The document of a line of a statement. -/
theorem same_statementLine (l : Text) :
    Same (nest (.join [.hardline, .ofText l])) (.indent (.concat [.hardline, .text l])) :=
  (same_nest _).trans (((same_join _).trans
    (.cons (.refl _) (.cons (same_ofText l) (.refl _)))).indent)

/-- The document of a statement that goes over lines. -/
theorem same_statementDoc {statement first : Text} {rest : List Text} (padStart padEnd : Bool)
    (h : statementLines statement = first :: rest) (hne : rest ≠ []) :
    Same (statementDoc statement padStart padEnd) (.concat ([.text first] ++
      (rest.map fun l => .indent (.concat [.hardline, .text l])) ++ [.hardline])) := by
  obtain ⟨second, rest, rfl⟩ := List.exists_cons_of_ne_nil hne
  have hlines : Same (.concat ((second :: rest).map fun l => nest (.join [.hardline, .ofText l])))
      (.concat ((second :: rest).map fun l => .indent (.concat [.hardline, .text l]))) := by
    generalize second :: rest = ls
    induction ls with
    | nil => exact .refl _
    | cons l ls ih => exact .cons (same_statementLine l) ih
  rw [statementDoc, h]
  refine (same_join _).trans ?_
  exact (Same.cons (same_ofText first) (hlines.append (.refl (.concat [.hardline]))))

/-- The lines of a statement are printed one after the other. -/
theorem print_statementLines (page : Page) (levels : Nat) (mode : Mode) (after : Int → Bool)
    (first : Text) (rest : List Text) (o : Output) : printAllThen page levels mode ([.text first] ++
      (rest.map fun l => .indent (.concat [.hardline, .text l])) ++ [.hardline]) after o =
        (feedLines page (levels + 1) rest (o.write first)).newline page levels true := by
  have hhard (levels : Nat) (o : Output) :
      lineBreak page levels mode .hard o = o.newline page levels true := by cases mode <;> rfl
  have hlines (o : Output) : printAllThen page levels mode
      ((rest.map fun l => .indent (.concat [.hardline, .text l])) ++ [.hardline]) after o =
        (feedLines page (levels + 1) rest o).newline page levels true := by
    induction rest generalizing o with
    | nil => exact hhard levels o
    | cons l ls ih =>
      refine (ih (Output.write l (lineBreak page (levels + 1) mode .hard o))).trans ?_
      rw [hhard]
      rfl
  exact hlines (o.write first)

theorem fits_statementLines (mode : Mode) (after : Int → Bool) (first : Text) {rest : List Text}
    (hne : rest ≠ []) : fitsAllThen mode ([.text first] ++
      (rest.map fun l => .indent (.concat [.hardline, .text l])) ++ [.hardline]) after =
        fun room => atBreak (room - first.length) := by
  obtain ⟨second, rest, rfl⟩ := List.exists_cons_of_ne_nil hne
  funext room
  show fitsThen mode .hardline _ (room - first.length) = _
  rw [hardline, fitsThen]
  exact if_pos (by simp [Line.isForced])

/-- **An action whose statement goes over lines** is printed row by row. -/
theorem Action.print_doc (h : OverLines a.statement) : ∃ l rs, Text.isBlank l = false ∧ rs ≠ [] ∧
    Text.rows a.statement = (false, Text.trim l) :: rs ∧ ∀ spacing,
      (∀ mode after, fitsThen mode (a.doc spacing) after = fun room =>
        atBreak (room - openBraces.length - a.opening.opening.length - (Text.trim l).length)) ∧
      ∀ page levels mode after o, printThen page levels mode (a.doc spacing) after o =
        (((feedRows page levels rs (((o.write openBraces).write a.opening.opening).write
          (Text.trim l))).newline page levels true).write a.closing.closing).write closeBraces := by
  obtain ⟨l, ls, -, hl, hne, hlast, hlines, hrows⟩ := h.exists_lines
  have hmap : ls.map Text.trim ≠ [] := by simpa using hne
  refine ⟨l, _, hl, ?_, hrows, fun spacing => ?_⟩
  · -- the last line is a row
    obtain ⟨init, last, rfl⟩ := (List.eq_nil_or_concat ls).resolve_left hne
    rw [List.concat_eq_append] at hlast ⊢
    have hlast : last.all isBlank = false := hlast last (by rw [List.getLast?_concat]; rfl)
    rw [Rows.behind_append, Rows.behind, if_neg (Bool.eq_false_iff.mp hlast)]
    exact List.append_ne_nil_of_right_ne_nil _ (List.cons_ne_nil _ _)
  · have hsame : Same (a.doc spacing) (.concat [.text openBraces, .text a.opening.opening,
        .concat ([.text (Text.trim l)] ++ ((ls.map Text.trim).map fun l =>
          .indent (.concat [.hardline, .text l])) ++ [.hardline]),
        .text a.closing.closing, .text closeBraces]) :=
      (same_join _).trans (.cons (same_ofText _) (.cons (same_ofText _)
        (.cons (same_statementDoc _ _ hlines hmap) (.cons (same_ofText _)
          (.cons (same_ofText _) (.refl _))))))
    refine ⟨fun mode after => ?_, fun page levels mode after o => ?_⟩
    · rw [hsame.fits]
      funext room
      show fitsAllThen mode _ _ (room - openBraces.length - a.opening.opening.length) = _
      rw [fitsAllThen, fitsThen, fits_statementLines mode _ _ hmap]
    · rw [hsame.print]
      show Output.write closeBraces (Output.write a.closing.closing (printAllThen page levels mode
        _ _ (Output.write a.opening.opening (Output.write openBraces o)))) = _
      rw [print_statementLines, (feedLines_eq page levels hne hlast (inked_write hl)).1]

/-! ## Rows of statements -/

/-- A row of a statement, one level below the action. -/
def statementRow (r : Bool × Text) : Row := ⟨r.1, 1, Word.ofText r.2⟩

/-- Rows of a statement, as lines. -/
def rowsText (page : Page) (levels : Nat) (rs : List (Bool × Text)) : Text :=
  rs.flatMap fun r => (statementRow r).feed page levels ++ r.2

theorem isKeys_nil (source : Text) : Splice.IsKeys source [] := ⟨[], List.nodup_nil, rfl⟩

theorem within_ofText (t : Text) : (Word.ofText t).Within 0 := fun i hi =>
  absurd (Word.mem_slots.mpr hi) (by rw [Word.slots_ofText]; exact List.not_mem_nil)

/-- The rows of a text are those of its word. -/
theorem Word.rows_ofText (t : Text) : (ofText t).rows = (Text.rows t).map (Prod.map id ofText) := by
  have hspell : Text.rows t = (ofText t).rows.map (Prod.map id (spell [])) := by
    rw [← Splice.rows_spell (isKeys_nil []) (within_ofText t), spell, restore_ofText]
  rw [hspell, List.map_map, eq_comm]
  refine (List.map_congr_left fun r hr => ?_).trans (List.map_id _)
  -- a part of a text has no slots
  obtain ⟨u, hu⟩ := exists_ofText (w := r.2) (by
    rw [List.eq_nil_iff_forall_not_mem]
    intro i hi
    exact absurd ((isInfix_of_mem_rows hr).subset (mem_slots.mp hi)) (by simp [ofText]))
  obtain ⟨gap, w⟩ := r
  obtain rfl : w = ofText u := hu
  simp [spell]

theorem isRow_ofText {t : Text} {r : Bool × Text} (h : r ∈ Text.rows t) : (Word.ofText r.2).IsRow :=
  Word.isRow_of_mem_rows (r := (r.1, Word.ofText r.2)) (by
    rw [Word.rows_ofText]
    exact List.mem_map_of_mem h)

theorem ofText_rowsText (page : Page) (levels : Nat) (rs : List (Bool × Text)) :
    Word.ofText (rowsText page levels rs) = Row.lines page levels (rs.map statementRow) := by
  induction rs with
  | nil => rfl
  | cons r rs ih =>
    rw [List.map_cons, Row.lines_cons, ← ih]
    simp [rowsText, Word.ofText, statementRow]

/-- A row is printed with something that is not blank at its end. -/
theorem inked_row {t : Text} (h : (Word.ofText t).IsRow) (o : Output) :
    Inked (o.write t).chars := by
  have := h.inked (f := fun _ => []) (by simp [Word.slots_ofText]) o.chars
  rwa [Word.restore_ofText] at this

/-- **Rows of a statement are printed as lines.** -/
theorem chars_feedRows (page : Page) (levels : Nat) (h : ∀ r ∈ rs, (Word.ofText r.2).IsRow)
    {o : Output} (ho : Inked o.chars) :
    (feedRows page levels rs o).chars = (rowsText page levels rs).reverse ++ o.chars ∧
      Inked (feedRows page levels rs o).chars := by
  induction rs generalizing o with
  | nil => exact ⟨rfl, ho⟩
  | cons r rs ih =>
    obtain ⟨hr, hrs⟩ := List.forall_mem_cons.mp h
    obtain ⟨hchars, hinked⟩ := ih hrs (inked_row hr ((statementRow r).turn page levels o))
    refine ⟨hchars.trans ?_, hinked⟩
    rw [Output.write, Row.chars_turn levels ho]
    simp [rowsText]

/-- **The rows of a statement are printed as a statement with the same rows.** -/
theorem exists_statement (page : Page) (levels : Nat) {s : Text} (hrs : rs ≠ [])
    (hrows : Text.rows s = (false, first) :: rs) :
    OverLines (first ++ rowsText page levels rs) ∧
      Text.rows (first ++ rowsText page levels rs) = Text.rows s ∧ ∀ o : Output,
        (feedRows page levels rs (o.write first)).chars =
          (first ++ rowsText page levels rs).reverse ++ o.chars ∧
        Inked (feedRows page levels rs (o.write first)).chars := by
  have hisRow : ∀ r ∈ (false, first) :: rs, (Word.ofText r.2).IsRow := by
    rw [← hrows]
    exact fun r hr => isRow_ofText hr
  obtain ⟨hfirst, hrest⟩ := List.forall_mem_cons.mp hisRow
  have hword : Word.ofText (first ++ rowsText page levels rs) =
      Word.ofText first ++ Row.lines page levels (rs.map statementRow) := by
    rw [← ofText_rowsText, Word.ofText, List.map_append]
    rfl
  have hchars (o : Output) := chars_feedRows page levels hrest (inked_row hfirst o)
  refine ⟨⟨⟨?_, ?_⟩, ?_⟩, ?_, fun o => ?_⟩
  · obtain ⟨c, t, rfl⟩ := List.exists_cons_of_ne_nil (l := first)
      fun hnil => hfirst.ne_nil (by rw [hnil]; rfl)
    rintro _ ⟨⟩
    exact hfirst.tight.head (.char c) rfl
  · obtain ⟨hchars, hinked⟩ := hchars ⟨[], 0⟩
    obtain ⟨c, t, he, hc⟩ := hinked
    intro a ha
    have hrev : (first ++ rowsText page levels rs).reverse = c :: t := by
      rw [← he, hchars]
      simp [Output.write]
    rw [← List.head?_reverse, hrev] at ha
    rwa [← Option.some.inj ha]
  · obtain ⟨r, rs, rfl⟩ := List.exists_cons_of_ne_nil hrs
    simp [rowsText, Row.feed]
  · have hinj : Function.Injective (Prod.map (id : Bool → Bool) Word.ofText) :=
      Function.Injective.prodMap Function.injective_id Word.ofText_injective
    refine List.map_injective_iff.mpr hinj ?_
    rw [← Word.rows_ofText, hword, Row.rows_lines page levels hfirst, hrows, List.map_cons,
      List.map_map]
    · rfl
    · intro r hr
      obtain ⟨r', hr', rfl⟩ := List.mem_map.mp hr
      exact hrest r' hr'
  · refine ⟨?_, (hchars o).2⟩
    rw [(hchars o).1]
    simp [Output.write]

/-! ## Actions -/

namespace Action

theorem rigid_doc (a : Action) (spacing : Bool) : (a.doc spacing).rigid = true := by
  have hpad (b : Bool) : (Doc.ofText (if b then [' '] else [])).rigid = true := rigid_ofText _
  have hstatement (padStart padEnd : Bool) :
      (statementDoc a.statement padStart padEnd).rigid = true := by
    unfold statementDoc
    split
    · rfl
    · refine rigid_join fun d hd => ?_
      simp only [List.mem_cons, List.not_mem_nil, or_false] at hd
      obtain rfl | rfl | rfl := hd <;> exact rigid_ofText _
    · refine rigid_join fun d hd => ?_
      rw [List.cons_append, List.mem_cons, List.mem_append, List.mem_map, List.mem_singleton] at hd
      obtain rfl | ⟨l, -, rfl⟩ | rfl := hd
      · exact rigid_ofText _
      · refine rigid_nest (rigid_join fun d hd => ?_)
        simp only [List.mem_cons, List.not_mem_nil, or_false] at hd
        obtain rfl | rfl := hd
        · rfl
        · exact rigid_ofText _
      · rfl
  refine rigid_join fun d hd => ?_
  simp only [List.mem_cons, List.not_mem_nil, or_false] at hd
  obtain rfl | rfl | rfl | rfl | rfl := hd
  exacts [rigid_ofText _, rigid_ofText _, hstatement _ _, rigid_ofText _, rigid_ofText _]

/-- An action whose statement goes over lines forces a break: it is not written on one line. -/
theorem forcesBreak_doc (h : OverLines a.statement) (spacing : Bool) :
    (a.doc spacing).forcesBreak = true := by
  obtain ⟨l, rs, -, -, -, hdoc⟩ := Action.print_doc h
  by_contra hforces
  have hflat := (straight_of_unforced _ (Bool.eq_false_iff.mpr hforces)).fits fun _ => false
  rw [(hdoc spacing).1] at hflat
  have := congrFun hflat (openBraces.length + a.opening.opening.length + (Text.trim l).length)
  simp only [atBreak, decide_eq_false_iff_not] at this
  omega

/-- What stands between statement and braces: a space, where one is asked for. -/
def pad (b : Bool) : Text := if b then [' '] else []

theorem statementLines_of_line (htrimmed : a.statement.Trimmed) (hne : a.statement ≠ [])
    (hline : '\n' ∉ a.statement) : statementLines a.statement = [a.statement] := by
  have hlast : ([a.statement] : List Text).getLast? ≠ some [] := by simpa using hne
  rw [statementLines, Text.lines_of_notMem hline, if_neg hlast, List.map_singleton,
    Text.trim_of_trimmed htrimmed]

theorem flat_doc_of_line (htrimmed : a.statement.Trimmed) (hne : a.statement ≠ [])
    (hline : '\n' ∉ a.statement) (spacing : Bool) : (a.doc spacing).flat = openBraces ++
      ((a.opening.opening ++ (pad (spacing || a.opening == .trim) ++ (a.statement ++
        (pad (spacing || a.closing == .trim) ++ a.closing.closing)))) ++ closeBraces) := by
  simp [Action.doc, statementDoc, statementLines_of_line htrimmed hne hline, pad]

theorem forcesBreak_ofText (t : Text) : (ofText t).forcesBreak = false := by
  unfold ofText
  split <;> rfl

/-- An action on one line forces no break. -/
theorem forcesBreak_doc_of_line (htrimmed : a.statement.Trimmed) (hne : a.statement ≠ [])
    (hline : '\n' ∉ a.statement) (spacing : Bool) : (a.doc spacing).forcesBreak = false := by
  have hjoin {ds : List Doc} (h : ∀ d ∈ ds, d.forcesBreak = false) :
      (join ds).forcesBreak = false := by
    rw [forcesBreak_join fun d hd _ => h d hd]
    exact List.any_eq_false.mpr fun d hd => Bool.eq_false_iff.mp (h d hd)
  rw [Action.doc, statementDoc, statementLines_of_line htrimmed hne hline]
  refine hjoin fun d hd => ?_
  simp only [List.mem_cons, List.not_mem_nil, or_false] at hd
  obtain rfl | rfl | rfl | rfl | rfl := hd
  iterate 2 exact forcesBreak_ofText _
  · refine hjoin fun d hd => ?_
    simp only [List.mem_cons, List.not_mem_nil, or_false] at hd
    obtain rfl | rfl | rfl := hd <;> exact forcesBreak_ofText _
  iterate 2 exact forcesBreak_ofText _

/-- An action that forces no break is written on the line. -/
theorem print_doc_of_unforced {spacing : Bool} (h : (a.doc spacing).forcesBreak = false)
    (page : Page)
    (levels : Nat) (mode : Mode) (after : Int → Bool) :
    printThen page levels mode (a.doc spacing) after = Output.write (a.doc spacing).flat := by
  rw [print_of_rigid page mode .flat after after _ levels (a.rigid_doc spacing)]
  exact (straight_of_unforced _ h).print page levels after

/-- **Actions whose statements have the same rows** are printed alike. -/
theorem same_doc_of_rows {a' : Action} (h : OverLines a.statement) (h' : OverLines a'.statement)
    (hrows : Text.rows a'.statement = Text.rows a.statement) (hopening : a'.opening = a.opening)
    (hclosing : a'.closing = a.closing) (spacing : Bool) :
    Same (a'.doc spacing) (a.doc spacing) := by
  obtain ⟨l, rs, -, -, hl, hdoc⟩ := Action.print_doc h
  obtain ⟨l', rs', -, -, hl', hdoc'⟩ := Action.print_doc h'
  rw [hrows, hl] at hl'
  obtain ⟨hfirst, rfl⟩ := List.cons.inj hl'
  have hfirst : Text.trim l = Text.trim l' := congrArg Prod.snd hfirst
  refine ⟨fun mode after => ?_, fun page levels mode after => ?_⟩
  · rw [(hdoc spacing).1, (hdoc' spacing).1, hopening, hfirst]
  · funext o
    rw [(hdoc spacing).2, (hdoc' spacing).2, hopening, hclosing, hfirst]

end Action

/-- What an action spells, without white space. -/
theorem ReadsAs.solid_eq {t : Text} (h : ReadsAs t a) : Text.solid t = openBraces ++
    (a.opening.opening ++ (Text.solid a.statement ++ (a.closing.closing ++ closeBraces))) := by
  obtain ⟨inner, rfl, -, rfl⟩ := h
  obtain ⟨b, b', hb, hb', hinner⟩ := Action.ofInner_spec inner
  generalize Action.ofInner inner = a at hinner
  have hsolid {w : Text} (hw : Text.IsSolid w) : Text.solid w = w :=
    List.filter_eq_self.mpr fun c hc => by rw [hw c hc]; rfl
  rw [hinner]
  simp only [Text.solid_append, Text.solid_of_isBlank hb, Text.solid_of_isBlank hb',
    hsolid a.opening.isSolid_opening, hsolid a.closing.isSolid_closing,
    hsolid isSolid_closeBraces, hsolid (w := openBraces) (by decide), List.nil_append,
    List.append_assoc]

/-- The statement of an action that is read. -/
theorem ReadsAs.statement {t : Text} (h : ReadsAs t a) : a.statement.Trimmed ∧
    a.keyword = Keyword.leading? a.statement ∧ ¬ closeBraces <:+: a.statement := by
  obtain ⟨inner, -, hinner, rfl⟩ := h
  exact ⟨Action.trimmed_statement inner, rfl, fun hi =>
    hinner ((hi.trans (Action.statement_isInfix inner)).trans (List.prefix_append _ _).isInfix)⟩

/-- The statement says nothing. -/
theorem exists_rewritten_nil {t : Text} (h : ReadsAs t a) (hnil : a.statement = [])
    (spacing : Bool) :
    ∃ a', Rewritten spacing t a (a.doc spacing).flat a' ∧ (a.doc spacing).forcesBreak = false := by
  have hsolid := h.solid_eq
  obtain ⟨o, c, s, keyword⟩ := a
  obtain rfl : s = [] := hnil
  have hreads : ReadsAs (Action.doc ⟨o, c, [], keyword⟩ spacing).flat
      (.ofInner (o.opening ++ c.closing)) := by
    refine ⟨_, ?_, ?_, rfl⟩
    · cases o <;> cases c <;> rfl
    · cases o <;> cases c <;> decide
  refine ⟨_, ⟨hreads, ?_, ?_, ?_, ?_⟩, ?_⟩
  · rw [show (Action.ofInner (o.opening ++ c.closing)).doc spacing =
      Action.doc ⟨o, c, [], keyword⟩ spacing by cases o <;> cases c <;> rfl]
    exact .refl _
  · cases o <;> cases c <;> rfl
  · cases o <;> cases c <;> rfl
  · rw [hsolid]
    cases o <;> cases c <;> rfl
  · cases o <;> cases c <;> rfl

/-- The statement is one line. -/
theorem rewritten_line {t : Text} (h : ReadsAs t a) {spacing : Bool} (hsteady : a.Steady spacing)
    (hne : a.statement ≠ []) (hline : '\n' ∉ a.statement) :
    Rewritten spacing t a (a.doc spacing).flat a := by
  obtain ⟨htrimmed, hkeyword, hbraces⟩ := h.statement
  have hpad {b : Bool} (hb : b = true) : Action.pad b ≠ [] := by simp [Action.pad, hb]
  have hblank (b : Bool) : Text.isBlank (Action.pad b) = true := by cases b <;> rfl
  have hopen : a.opening = .plain → ∀ d ∈
      (Action.pad (spacing || a.opening == .trim) ++ a.statement).head?, d ∉ openers := fun ho =>
    head_append_isBlank (by decide) (hblank _) fun hpadding =>
      (hsteady.opening ho).resolve_left fun hspacing => hpad (by rw [hspacing.1]; rfl) hpadding
  have hclose : a.closing = .plain → ∀ d ∈
      (a.statement ++ Action.pad (spacing || a.closing == .trim)).getLast?, d ∉ closers := fun hc =>
    last_append_isBlank (by decide) (hblank _) fun hpadding =>
      (hsteady.closing hc).resolve_left fun hspacing => hpad (by rw [hspacing]; rfl) hpadding
  have hreads : ReadsAs (a.doc spacing).flat a := by
    refine ⟨_, Action.flat_doc_of_line htrimmed hne hline spacing, ?_, ?_⟩
    · exact Action.not_closeBraces_set (hblank _) (hblank _) hbraces hclose
    · rw [Action.ofInner_set (hblank _) (hblank _) htrimmed hne hopen hclose, ← hkeyword]
  exact ⟨hreads, .refl _, rfl, rfl, by rw [hreads.solid_eq, h.solid_eq]⟩

/-- The statement goes over lines. -/
theorem exists_rewritten_lines {t : Text} (h : ReadsAs t a) {spacing : Bool}
    (hsteady : a.Steady spacing) (hline : '\n' ∈ a.statement) (page : Page) (levels : Nat) :
    ∃ t' a', Rewritten spacing t a t' a' ∧ ∀ mode after o,
      (printThen page levels mode (a.doc spacing) after o).chars = t'.reverse ++ o.chars := by
  obtain ⟨htrimmed, -, hbraces⟩ := h.statement
  have hover : OverLines a.statement := ⟨htrimmed, hline⟩
  obtain ⟨l, rs, -, hne, hrows, hdoc⟩ := Action.print_doc hover
  obtain ⟨hover', hrows', hchars⟩ := exists_statement page levels hne hrows
  generalize Text.trim l ++ rowsText page levels rs = s at hover' hrows' hchars
  have hsqueeze : Text.squeeze s = Text.squeeze a.statement :=
    Text.squeeze_eq_of_even_eq hover'.trimmed htrimmed (by
      rw [Markup.Html.even_rows, hrows', ← Markup.Html.even_rows])
  have hhead : s.head? = a.statement.head? := by
    rw [← Text.head?_squeeze hover'.trimmed.head, hsqueeze, Text.head?_squeeze htrimmed.head]
  have hsne : s ≠ [] := List.ne_nil_of_mem hover'.newline
  have hb : Text.isBlank ('\n' :: page.indentation levels) = true := by
    rw [Text.isBlank_cons, isBlank_indentation]
    rfl
  have hopen : a.opening = .plain → ∀ d ∈ ([] ++ s).head?, d ∉ openers := fun ho => by
    rw [List.nil_append, hhead]
    exact (hsteady.opening ho).resolve_left fun hspacing => hspacing.2 hline
  have hclose : a.closing = .plain →
      ∀ d ∈ (s ++ '\n' :: page.indentation levels).getLast?, d ∉ closers := fun _ =>
    last_append_isBlank (by decide) hb fun hnil => absurd hnil (List.cons_ne_nil _ _)
  have hreads : ReadsAs (openBraces ++ ((a.opening.opening ++ ([] ++ (s ++
      ('\n' :: page.indentation levels ++ a.closing.closing)))) ++ closeBraces))
      ⟨a.opening, a.closing, s, Keyword.leading? s⟩ := by
    refine ⟨_, rfl, ?_, (Action.ofInner_set rfl hb hover'.trimmed hsne hopen hclose).symm⟩
    refine Action.not_closeBraces_set rfl hb ?_ hclose
    rwa [← Text.infix_squeeze isSolid_closeBraces, hsqueeze, Text.infix_squeeze isSolid_closeBraces]
  have hsame : Same (Action.doc ⟨a.opening, a.closing, s, Keyword.leading? s⟩ spacing)
      (a.doc spacing) := by
    exact Action.same_doc_of_rows hover hover' hrows' (by rfl) (by rfl) spacing
  refine ⟨_, _, ⟨hreads, hsame, ?_, hsqueeze, ?_⟩, fun mode after o => ?_⟩
  · rw [Action.forcesBreak_doc hover, Action.forcesBreak_doc hover']
  · rw [hreads.solid_eq, h.solid_eq, ← Text.solid_squeeze s, hsqueeze, Text.solid_squeeze]
  · obtain ⟨hchars, hinked⟩ := hchars ((o.write openBraces).write a.opening.opening)
    rw [(hdoc spacing).2]
    generalize feedRows page levels rs _ = o' at hchars hinked ⊢
    rw [newline_of_inked_eq page levels hinked]
    simp [Output.write, hchars, Render.indentation_reverse]

/-- **A printed action reads as one that is printed the same**, wherever it is printed. -/
theorem exists_rewritten {t : Text} (h : ReadsAs t a) {spacing : Bool} (hsteady : a.Steady spacing)
    (page : Page) (levels : Nat) : ∃ t' a', Rewritten spacing t a t' a' ∧ ∀ mode after o,
      (printThen page levels mode (a.doc spacing) after o).chars = t'.reverse ++ o.chars := by
  by_cases hline : '\n' ∈ a.statement
  · exact exists_rewritten_lines h hsteady hline page levels
  have hwrite (hforces : (a.doc spacing).forcesBreak = false) (mode : Mode) (after : Int → Bool)
      (o : Output) : (printThen page levels mode (a.doc spacing) after o).chars =
        (a.doc spacing).flat.reverse ++ o.chars := by
    rw [Action.print_doc_of_unforced hforces]
    rfl
  by_cases hnil : a.statement = []
  · obtain ⟨a', ha', hforces⟩ := exists_rewritten_nil h hnil spacing
    exact ⟨_, a', ha', hwrite hforces⟩
  · exact ⟨_, a, rewritten_line h hsteady hnil hline,
      hwrite (Action.forcesBreak_doc_of_line h.statement.1 hnil hline spacing)⟩

end Print

end TemplateFormat
