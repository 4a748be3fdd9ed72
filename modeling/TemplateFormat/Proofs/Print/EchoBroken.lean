import TemplateFormat.Proofs.Print.EchoFlat

/-!
# Nodes that are printed over lines

A node that is printed over lines is read back as one that is printed over lines in the same places:
its body starts a line there, and so does its closing action. The children of its body are in their
places again: a blank line is kept behind the last one exactly where the first run left one.

Results:
* `Node.print_children`: the children of a container in their places.
* `Node.keeps_eq`: the blank line at the end of a body, the second time.
* `Node.exists_broken_block`: what is read back for a block over lines.
-/

namespace TemplateFormat

open Doc Render

/-- A document that is alone comes with a line break, whether it fits or not. -/
theorem Dressed.of_alone {flat flat' : Int → Bool} {kept : Bool} {dd x : Doc}
    (h : Dressed flat kept true dd x) : Dressed flat' kept true dd x :=
  ⟨h.akin, h.fits, fun hkept page levels o => by rw [h.print hkept, Bool.true_or, Bool.true_or]⟩

namespace Node

variable {page : Page} {source stem : Text} {spacing : Bool} {n m : Node}
    {ns ms children : List Node}
  {before tail after : Text} {first : Word} {rest : List Row}

/-! ## Children in their places -/

/-- A line break behind the child with a number is not lost on a long line only. -/
def aloneAt (spacing : Bool) (stem before tail after : Text) (ns : List Node) (i : Nat) : Bool :=
  ((ns[i]?.map fun n => n.breaksAfter (beforeAt before ns i) (afterAt tail after ns i)
    (n.sheet spacing stem))).getD true

/-- The document of the child with a number. -/
def sheetAt (spacing : Bool) (stem : Text) (ns : List Node) (i : Nat) : Doc :=
  ((ns[i]?.map fun n => (n.sheet spacing stem).propagate)).getD .empty

/-- Whether the child with a number fits on the line: it counts for actions only. -/
def FlatAt (spacing : Bool) (stem : Text) (ns : List Node) (flat : Nat → Int → Bool) : Prop :=
  ∀ (i : Nat) (n : Node), ns[i]? = some n →
    flat i = fitsThen .flat (n.sheet spacing stem).propagate atBreak ∨
      ∀ before after d, n.breaksAfter before after d = true

/-- **The children of a container in their places.** -/
theorem print_children (hquiet : Quiet tail after ns) (hafter : after = openBraces ∨ after = [])
    (hentire : ∀ n ∈ ns, n.Entire)
    (hrows : rows ns tail = (false, first) :: rest.map Row.flush) {flat : Nat → Int → Bool}
    (hflat : FlatAt spacing stem ns flat) {base levels levels' : Nat} {o o' : Output} {tight : Bool}
    (h : Settles page base levels flat (sheetAt spacing stem ns) first rest o tight levels' o') :
    printRows page base (fun i => ((inPlaceAll before tail after ns
        (sheetAll spacing stem ns)).getD i .empty).propagate) levels first rest o =
      settle page levels' ((lastWord first rest).keeps (fun i =>
      blankLineFollows (afterAt tail after ns i))
        (aloneAt spacing stem before tail after ns) tight) o' := by
  have hslots : rowSlots first rest = List.range ns.length :=
    rowSlots_of_rows (c := ⟨ns, tail, default⟩) hrows
  refine h _ _ _ (closes_container hquiet hafter hrows hslots) fun i hi => ?_
  have hi := List.mem_range.mp (hslots ▸ hi)
  have hn := List.getElem?_eq_getElem hi
  have hdressed := dressed_inPlace (shown_sheet spacing stem
    (hentire _ (List.getElem_mem hi))) (beforeAt before ns i) (afterAt tail after ns i)
  rw [getD_sheets hn, aloneAt, sheetAt, hn]
  rcases hflat i _ hn with hflat | halone
  · rw [hflat]
    exact hdressed
  · rw [halone] at hdressed
    show Dressed (flat i) _ (breaksAfter _ _ _ _) _ _
    rw [halone]
    exact hdressed.of_alone

/-- The children that are read back fit on the line where the children do. -/
theorem flatAt_of_echoes (h : List.Forall₂ (Echoes spacing) ns ms) :
    FlatAt spacing stem ms fun i => fitsThen .flat (sheetAt spacing stem ns i) atBreak := by
  intro i m hm
  obtain ⟨n, hn, hnm⟩ := exists_right_of_getElem? h.flip hm
  have hsheet : sheetAt spacing stem ns i = (n.sheet spacing stem).propagate := by
    rw [sheetAt, hn]
    rfl
  show fitsThen .flat (sheetAt spacing stem ns i) atBreak = _ ∨ _
  rw [hsheet]
  cases n with
  | action info t act =>
    obtain ⟨info', t', act', rfl, -, hact⟩ := hnm
    refine .inl ?_
    rw [sheet, sheet, propagate_of_rigid _ (act.rigid_doc spacing),
      propagate_of_rigid _ (act'.rigid_doc spacing), hact.same.fits]
  | raw info t => exact hnm.elim
  | block info frame children =>
    obtain ⟨info', frame', children', rfl, -⟩ := hnm
    exact .inr fun _ _ _ => rfl
  | chain info branches =>
    obtain ⟨info', branches', rfl, -⟩ := hnm
    exact .inr fun _ _ _ => rfl

theorem flatAt_self (ns : List Node) :
    FlatAt spacing stem ns fun i => fitsThen .flat (sheetAt spacing stem ns i) atBreak := by
  refine fun i n hn => .inl ?_
  show fitsThen .flat (sheetAt spacing stem ns i) atBreak = _
  rw [sheetAt, hn]
  rfl

/-! ## The end of a body -/

/-- The white space at the end of a body: a blank line or none, and the indentation of the closing
action. -/
def bodyEnd (page : Page) (levels : Nat) (gap : Bool) : Text :=
  (if gap then ['\n'] else []) ++ '\n' :: page.indentation levels

theorem isBlank_bodyEnd (page : Page) (levels : Nat) (gap : Bool) :
    Text.isBlank (bodyEnd page levels gap) = true :=
  Row.isBlank_feed page levels ⟨gap, 0, []⟩

/-- **The blank line at the end of a body is read back.** -/
theorem blankLineFollows_bodyEnd (page : Page) (levels : Nat) (gap : Bool) :
    blankLineFollows (bodyEnd page levels gap ++ openBraces) = gap := by
  have hspaces : (page.indentation levels ++ openBraces).dropWhile isSpace = openBraces := by
    rw [List.dropWhile_append_of_pos fun c hc => isSpace_of_mem_indentation hc]
    rfl
  have hend : afterLineEnd? (page.indentation levels ++ openBraces) = none := by
    rw [afterLineEnd?, hspaces]
    rfl
  have hstart : Text.trimStart (page.indentation levels ++ openBraces) = openBraces := by
    rw [Text.trimStart_append (Render.isBlank_indentation page levels)
      (by rintro _ ⟨⟩; decide)]
  have hfeed (t : Text) : afterLineEnd? ('\n' :: t) = some t := rfl
  cases gap with
  | true =>
    rw [bodyEnd, if_pos rfl, List.singleton_append, List.cons_append, List.cons_append,
      blankLineFollows, hfeed, Option.bind_some, hfeed]
    exact congrArg (Text.startsWith openBraces) hstart
  | false =>
    rw [bodyEnd, if_neg Bool.false_ne_true, List.nil_append, List.cons_append, blankLineFollows,
      hfeed, Option.bind_some, hend]

/-- The closing action behind it starts a line. -/
theorem endsWithNewLine_bodyEnd (page : Page) (levels : Nat) (gap : Bool) (t : Text) :
    endsWithNewLine (t ++ bodyEnd page levels gap) = true := by
  have hcut : t ++ bodyEnd page levels gap =
      (t ++ if gap then ['\n'] else []) ++ '\n' :: page.indentation levels :=
    (List.append_assoc ..).symm
  have hblank : Text.isBlank ('\n' :: page.indentation levels) = true :=
      isBlank_bodyEnd page levels false
  rw [hcut, endsWithNewLine, Text.lastLine_append List.mem_cons_self,
    Text.isBlank_lastLine_of_isBlank hblank]
  simp

/-- Behind the last row stands the end of the body, and before it a line break. -/
theorem exists_last_row (page : Page) (base : Nat) (first : Word) (rest : List Row) : ∃ u k,
    Word.ofText ('\n' :: page.indentation base) ++ (first ++ Row.lines page base rest) =
      u ++ Word.ofText ('\n' :: page.indentation k) ++ lastWord first rest := by
  rcases List.eq_nil_or_concat rest with rfl | ⟨init, r, rfl⟩
  · exact ⟨[], base, by rw [Row.lines, List.flatMap_nil, List.append_nil]; rfl⟩
  · refine ⟨Word.ofText ('\n' :: page.indentation base) ++ (first ++ (Row.lines page base init ++
      Word.ofText (if r.gap then ['\n'] else []))), base + r.level, ?_⟩
    rw [List.concat_eq_append, Row.lines, List.flatMap_append, List.flatMap_singleton, lastWord,
      List.getLast?_concat, Row.feed, Word.ofText, Word.ofText, Word.ofText, Word.ofText,
      List.map_append]
    simp only [List.append_assoc]
    rfl

variable {tail' : Text}

/-- **The child at the end of a body**, written row by row: the end of the body stands behind it,
and a line break before it, if it is all of its row. -/
theorem exists_last_child {base levels : Nat} {gap : Bool} {i : Nat} (hi : i + 1 = ms.length)
    (hword : aliasWord 0 ms ++ Word.ofText tail' =
      Word.ofText ('\n' :: page.indentation base) ++ (first ++ Row.lines page base rest) ++
        Word.ofText (bodyEnd page levels gap))
    (hlast : (lastWord first rest).getLast? = some (.slot i)) : ∃ m, ms[i]? = some m ∧
      afterAt tail' openBraces ms i = bodyEnd page levels gap ++ openBraces ∧
        (lastWord first rest = [.slot i] → endsWithNewLine m.info.lead = true) := by
  obtain ⟨u, k, hrow⟩ := exists_last_row page base first rest
  have hinit : (lastWord first rest).dropLast ++ [.slot i] = lastWord first rest :=
    List.dropLast_append_getLast? _ hlast
  rw [hrow, ← hinit, ← List.append_assoc, List.append_assoc, List.singleton_append] at hword
  obtain ⟨j, m, hj, hm, hu, hv⟩ := exists_of_aliasWord hword
  obtain rfl : i = j := by omega
  refine ⟨m, hm, ?_, fun halone => ?_⟩
  · rw [List.drop_of_length_le (by omega), aliasWord, List.nil_append] at hv
    rw [afterAt_eq (by omega), List.drop_of_length_le (by omega), behind,
      Word.ofText_injective hv]
  · rw [halone, List.dropLast_singleton, List.append_nil] at hu
    obtain ⟨t, ht⟩ := suffix_lead hu.symm
    rw [← ht]
    exact endsWithNewLine_bodyEnd page k false t

/-- What is read back for a child at the end of a body is alone on its line, if the child is. -/
theorem aloneAt_of_echoes (hquiet : Quiet tail openBraces ns)
    (hrows : rows ns tail = (false, first) :: rest.map Row.flush)
    (h : List.Forall₂ (Echoes spacing) ns ms) {levels : Nat} {gap : Bool} {i : Nat}
    (hi : i + 1 = ns.length) (hkept : blankLineFollows (afterAt tail openBraces ns i) = true)
    (hm : ms[i]? = some m)
    (hafter : afterAt tail' openBraces ms i = bodyEnd page levels gap ++ openBraces)
    (hlead : lastWord first rest = [.slot i] → endsWithNewLine m.info.lead = true)
    (halone : aloneAt spacing stem closeBraces tail openBraces ns i = true) :
    aloneAt spacing stem closeBraces tail' openBraces ms i = true := by
  obtain ⟨n, hn, hnm⟩ := exists_right_of_getElem? h.flip hm
  rw [aloneAt, hm, Option.map_some, Option.getD_some]
  rw [aloneAt, hn, Option.map_some, Option.getD_some] at halone
  cases n with
  | raw info t => exact hnm.elim
  | block info frame children =>
    obtain ⟨info', frame', children', rfl, -⟩ := hnm
    rfl
  | chain info branches =>
    obtain ⟨info', branches', rfl, -⟩ := hnm
    rfl
  | action info t act =>
    obtain ⟨info', t', act', rfl, -, hact⟩ := hnm
    rw [breaksAfter, sheet] at halone ⊢
    rw [hact.forces]
    -- an action that is alone on its line is all of the last row
    rcases Bool.or_eq_true_iff.mp halone with halone | hforces
    · rw [aloneOnLine, Bool.and_eq_true, beforeAt_closeBraces hn] at halone
      have hline := hlead (lastWord_of_alone hquiet (.inl rfl) hrows hn hi hkept halone.1)
      rw [aloneOnLine, beforeAt_closeBraces hm, isBlank_lastLine_closeBraces, hline, hafter]
      cases gap <;> rfl
    · rw [hforces, Bool.or_true]

/-- **The blank line at the end of a body**, the second time: it is kept exactly where the first run
left one. -/
theorem keeps_eq (hquiet : Quiet tail openBraces ns)
    (hrows : rows ns tail = (false, first) :: rest.map Row.flush)
    (h : List.Forall₂ (Echoes spacing) ns ms) {base levels : Nat} {tight gap : Bool}
    (hgap : gap = (lastWord first rest).keeps
      (fun i => blankLineFollows (afterAt tail openBraces ns i))
      (aloneAt spacing stem closeBraces tail openBraces ns) tight)
    (hword : aliasWord 0 ms ++ Word.ofText tail' =
      Word.ofText ('\n' :: page.indentation base) ++ (first ++ Row.lines page base rest) ++
        Word.ofText (bodyEnd page levels gap)) :
    (lastWord first rest).keeps (fun i => blankLineFollows (afterAt tail' openBraces ms i))
      (aloneAt spacing stem closeBraces tail' openBraces ms) tight = gap := by
  rw [Word.keeps] at hgap ⊢
  split
  · rename_i i hlast
    rw [hlast] at hgap
    have hi : i + 1 = ns.length :=
      eq_of_lastWord (rowSlots_of_rows (c := ⟨ns, tail, default⟩) hrows) hlast
    obtain ⟨m, hm, hafter, hlead⟩ := exists_last_child (h.length_eq ▸ hi) hword hlast
    rw [hafter, blankLineFollows_bodyEnd]
    cases gap with
    | false => rfl
    | true =>
      obtain ⟨hkept, halone⟩ := (Bool.and_eq_true_iff.mp hgap.symm)
      rw [Bool.true_and]
      rcases Bool.or_eq_true_iff.mp halone with halone | htight
      · rw [aloneAt_of_echoes hquiet hrows h hi hkept hm hafter hlead halone, Bool.true_or]
      · rw [htight, Bool.or_true]
  · rename_i hnone
    split at hgap
    · rename_i i hlast
      exact absurd hlast (hnone i)
    · exact hgap.symm

/-! ## Children that are read back -/

/-- Wherever the node is printed, what is read back there is printed the same. -/
def Reprints (page : Page) (spacing : Bool) (stem : Text) (n : Node) : Prop :=
  Repeats page (Echoes spacing n) (n.sheet spacing stem).propagate
    fun m => (m.sheet spacing stem).propagate

theorem sheetAt_eq {i : Nat} (hn : ns[i]? = some n) :
    sheetAt spacing stem ns i = (n.sheet spacing stem).propagate := by
  rw [sheetAt, hn]
  rfl

/-- **The children of a container, read back**: the rows are printed, and they are the rows of what
is read back, whatever white space stands around them. -/
theorem exists_children_again (page : Page) {c : Container}
    (hrows : c.word.rows = (false, first) :: rest.map Row.flush)
    (ih : ∀ n ∈ c.children, Reprints page spacing stem n) (flat : Nat → Int → Bool)
    (base levels : Nat) (o : Output) : ∃ (t : Text) (tight : Bool) (levels' : Nat) (o' : Output),
      o'.chars = t.reverse ++ o.chars ∧ Inked o'.chars ∧
      Settles page base levels flat (sheetAt spacing stem c.children) first rest o tight levels'
      o' ∧
      ∀ b b' : Text, Text.isBlank b = true → Text.isBlank b' = true → ∃ ns tail,
        aliasWord 0 ns ++ Word.ofText tail =
          Word.ofText b ++ (first ++ Row.lines page base rest) ++ Word.ofText b' ∧
        List.Forall₂ (Echoes spacing) c.children ns ∧ rows ns tail = c.word.rows ∧
        spellAll ns ++ tail = b ++ t ++ b' ∧
        Settles page base levels flat (sheetAt spacing stem ns) first rest o tight levels' o' := by
  have hslots := rowSlots_of_rows hrows
  have hisRow : ∀ r ∈ c.word.rows, r.2.IsRow := fun r hr => Word.isRow_of_mem_rows hr
  rw [hrows, List.forall_mem_cons, List.forall_mem_map] at hisRow
  obtain ⟨hfirst, hrest⟩ := hisRow
  obtain ⟨cs, tight, levels', o', hechoes, hchars, hinked, hsettles, hsettles'⟩ :=
    exists_again (Q := fun i m => ∀ n, c.children[i]? = some n → n.Echoes spacing m)
      (d := sheetAt spacing stem c.children) (e := fun m => (m.sheet spacing stem).propagate) page
      base flat hfirst hrest (by rw [hslots]; exact List.nodup_range) (fun i hi => by
        have hn := List.getElem?_eq_getElem (List.mem_range.mp (hslots ▸ hi))
        obtain ⟨hexists, hfits, hends⟩ := ih _ (List.mem_of_getElem? hn)
        rw [sheetAt_eq hn]
        refine ⟨fun levels after o => ?_, fun m hm => hfits m (hm _ hn), fun m hm =>
          hends m (hm _ hn)⟩
        obtain ⟨m, hm, hprint⟩ := hexists levels after o
        exact ⟨m, fun n hn' => by rwa [← Option.some.inj (hn.symm.trans hn')], hprint⟩) levels o
  refine ⟨_, tight, levels', o', hchars, hinked, hsettles, fun b b' hb hb' => ?_⟩
  have hword : Word.slots (Word.ofText b ++ (first ++ Row.lines page base rest) ++ Word.ofText b') =
      List.range c.children.length := by
    rw [Word.slots_append, Word.slots_append, Word.slots_ofText, Word.slots_ofText, List.nil_append,
      List.append_nil, Word.slots_append, slots_lines, ← hslots]
    rfl
  obtain ⟨ns, tail, haliasWord, hns, hleads, htext⟩ := exists_children (c := cs) (fun i n hn =>
    hechoes i (by
      rw [hslots, List.mem_range]
      exact (List.getElem?_eq_some_iff.mp hn).1) n hn) hword
  refine ⟨ns, tail, haliasWord, hns, ?_, ?_, fun kept alone dd hcloses hdressed => ?_⟩
  · rw [rows, haliasWord, Word.rows_append_blank (by rwa [Word.all_isBlank_ofText]),
      Word.rows_blank_append (by rwa [Word.all_isBlank_ofText]),
      Row.rows_lines page base hfirst hrest,
      hrows]
  · rw [htext, Word.restore_append, Word.restore_append, Word.restore_ofText, Word.restore_ofText]
  · refine hsettles' kept alone dd hcloses fun i hi => ?_
    have hm := List.getElem?_eq_getElem (hns.length_eq ▸ List.mem_range.mp (hslots ▸ hi))
    obtain ⟨lead, hlead⟩ := hleads i _ hm
    have hsheet : sheetAt spacing stem ns i = ((cs i).sheet spacing stem).propagate := by
      rw [sheetAt_eq hm, hlead, sheet_setLead]
    have hdressed := hdressed i hi
    rwa [hsheet] at hdressed

/-! ## Bodies -/

/-- The end of a body is a blank line, if one is kept, and the new line of the closing action. -/
theorem chars_bodyEnd (levels levels' : Nat) (gap : Bool) {o : Output} (h : Inked o.chars) :
    ((settle page levels' gap o).newline page levels true).chars =
      (bodyEnd page levels gap).reverse ++ o.chars := by
  cases gap with
  | false =>
    rw [settle, if_neg Bool.false_ne_true, newline_of_inked page levels h, bodyEnd,
      if_neg Bool.false_ne_true, List.nil_append, List.reverse_cons, indentation_reverse]
    simp
  | true =>
    rw [settle, if_pos rfl, newline_of_inked_eq page levels' h,
      newline_of_feed page levels' levels h,
      bodyEnd, if_pos rfl, List.reverse_append, List.reverse_cons, indentation_reverse]
    simp

/-- A body with line breaks around it that are not forced. -/
structure Edged (p : Line × Doc × Line) : Prop where
  leading : p.1.isForced = false
  body : p.2.1.isEmpty = false
  trailing : p.2.2.isForced = false

theorem print_laid {docs : List Doc} {d : Doc} (h : Laid docs first rest d) (base : Nat) :
    printThen page base .broken d.propagate atBreak =
      printRows page base (fun i => (docs.getD i .empty).propagate) base first rest := by
  rw [h.same.print, print_rowsDoc]

/-- **A body is printed row by row**, and so is every body with the same rows. -/
theorem exists_parts (spacing : Bool) {c : Container} (hc : c.Regular source stem after)
    (hne : c.word.rows ≠ []) :
    ∃ first rest, c.word.rows = (false, first) :: rest.map Row.flush ∧
      ∀ c' : Container, c'.keys stem = c.keys stem → c'.word.rows = c.word.rows →
        (∀ n ∈ c'.children, n.Entire) → Edged (parts spacing stem c') ∧ ∀ page base,
          printThen page base .broken (parts spacing stem c').2.1.propagate atBreak =
            printRows page base (fun i => ((inPlaceAll closeBraces c'.tail openBraces c'.children
              (sheetAll spacing stem c'.children)).getD i .empty).propagate) base first rest := by
  obtain ⟨first, rest, hrows, hlaid⟩ := exists_laid hc.keys hc.fresh hc.plain hne
  refine ⟨first, rest, hrows, fun c' hkeys hword hentire => ?_⟩
  have hlen : (c.keys stem).length = c'.children.length := by
    rw [← hkeys]
    exact List.length_map _
  obtain ⟨-, body, hparts, hbody⟩ := hlaid c' _ hkeys hword fun i hi =>
    closed_sheets spacing stem hentire closeBraces c'.tail openBraces (hlen ▸ hi)
  rw [parts, hparts]
  exact ⟨⟨(isForced_edges c'.word).1, hbody.isEmpty, (isForced_edges c'.word).2⟩, fun page base =>
    print_laid hbody base⟩

/-- **A body over lines**, from its children: what is read back for it is printed the same. -/
theorem exists_broken_body {c : Container} (hc : c.Regular source stem openBraces)
    (hne : c.word.rows ≠ []) (ih : ∀ n ∈ c.children, Reprints page spacing stem n)
    (base levels : Nat) {o : Output} (ho : Inked o.chars) :
    Edged (parts spacing stem c) ∧ ∃ ns tail, List.Forall₂ (Echoes spacing) c.children ns ∧
      rows ns tail = c.word.rows ∧ endsWithNewLine (spellAll ns ++ tail) = true ∧
      ((printThen page base .broken (parts spacing stem c).2.1.propagate atBreak
        (o.newline page base true)).newline page levels true).chars =
          (spellAll ns ++ tail).reverse ++ o.chars ∧
      ∀ span, Edged (parts spacing stem ⟨ns, tail, span⟩) ∧
        printThen page base .broken (parts spacing stem ⟨ns, tail, span⟩).2.1.propagate atBreak
            (o.newline page base true) =
          printThen page base .broken (parts spacing stem c).2.1.propagate atBreak
            (o.newline page base true) := by
  obtain ⟨first, rest, hrows, hparts⟩ := exists_parts spacing hc hne
  obtain ⟨hedged, hprint⟩ := hparts c rfl rfl hc.entire
  obtain ⟨t, tight, levels', o', hchars, hinked, hsettles, hagain⟩ := exists_children_again
    page hrows ih (fun i => fitsThen .flat (sheetAt spacing stem c.children i) atBreak) base base
      (o.newline page base true)
  have hbody := (congrFun (hprint page base) _).trans
    (print_children hc.quiet (.inl rfl) hc.entire hrows (flatAt_self _) hsettles)
  generalize hgap : (lastWord first rest).keeps
    (fun i => blankLineFollows (afterAt c.tail openBraces c.children i))
    (aloneAt spacing stem closeBraces c.tail openBraces c.children) tight = gap at hbody
  obtain ⟨ns, tail, hword, hns, hrows', htext, hsettles'⟩ := hagain ('\n' :: page.indentation base)
    (bodyEnd page levels gap) (isBlank_bodyEnd page base false) (isBlank_bodyEnd page levels gap)
  refine ⟨hedged, ns, tail, hns, hrows', ?_, ?_, fun span => ?_⟩
  · rw [htext]
    exact endsWithNewLine_bodyEnd page levels gap _
  · rw [hbody, chars_bodyEnd levels levels' gap hinked, hchars, newline_of_inked page base ho,
      htext]
    simp [indentation_reverse]
  · have hentire : ∀ m ∈ ns, m.Entire := fun m hm => by
      obtain ⟨n, hn, hnm⟩ := exists_left_of_mem hns m hm
      exact hnm.entire (hc.entire n hn)
    obtain ⟨hedged', hprint'⟩ := hparts ⟨ns, tail, span⟩ (placeholder_eq hns stem) hrows' hentire
    refine ⟨hedged', ?_⟩
    rw [hbody, hprint', print_children (hc.quiet.of_rows hns.length_eq.symm hrows') (.inl rfl)
      hentire (hrows'.trans hrows) (flatAt_of_echoes hns) hsettles',
      keeps_eq hc.quiet hrows hns hgap.symm hword]

end Node

/-! ## Actions -/

/-- **An action is read back** wherever it is printed. -/
theorem Leaf.exists_broken {l : Leaf} (h : l.Regular spacing) (page : Page) (levels : Nat) :
    ∃ l', l.Echoes spacing l' ∧ ∀ after o,
      (printThen page levels .broken (l.sheet spacing).propagate after o).chars =
        l'.text.reverse ++ o.chars := by
  obtain ⟨t', a', ha', hprint⟩ := exists_rewritten h.reads h.steady page levels
  refine ⟨⟨l.id, t', l.span, a'⟩, ⟨ha', rfl⟩, fun after o => ?_⟩
  rw [(l.akin_sheet spacing).print]
  exact hprint .broken after o

namespace Node

/-- **A closing action**, if there is one. -/
theorem exists_broken_stop {frame : Frame} (h : ∀ l ∈ frame.stop, l.Regular spacing) (page : Page)
    (levels : Nat) : ∃ stop : Option Leaf, Option.Rel (Leaf.Echoes spacing) frame.stop stop ∧
      Akin ((stop.map (Leaf.sheet spacing)).getD .empty).propagate
      (frame.stopSheet spacing).propagate ∧
      ∀ after o, (printThen page levels .broken (frame.stopSheet spacing).propagate after o).chars =
        ((stop.map Leaf.text).getD []).reverse ++ o.chars := by
  rw [Frame.stopSheet]
  cases hstop : frame.stop with
  | none => exact ⟨none, .none, .refl _, fun _ _ => rfl⟩
  | some l =>
    obtain ⟨l', hl', hprint⟩ := Leaf.exists_broken (h l hstop) page levels
    exact ⟨some l', .some hl', hl'.akin, hprint⟩

/-- A block over lines, from its body. -/
theorem print_inside {info : Info} {frame : Frame}
    (h : Edged (parts spacing stem (.ofBlock info frame children))) (levels : Nat)
    (after : Int → Bool) (o : Output) :
    printThen page levels .broken (inside spacing stem info frame children).propagate after o =
      printThen page levels .broken (frame.stopSheet spacing).propagate after
        ((printThen page (Printer.bodyLevels frame.keyword levels) .broken
          (parts spacing stem (.ofBlock info frame children)).2.1.propagate atBreak
          ((printThen page levels .broken (frame.start.sheet spacing).propagate atBreak
            o).newline page (Printer.bodyLevels frame.keyword levels) true)).newline
          page levels true) := by
  generalize hp : parts spacing stem (.ofBlock info frame children) = p at h
  obtain ⟨k, body, k'⟩ := p
  rw [inside_of_parts hp, Printer.print_blockBody page levels h.body h.leading h.trailing]

/-- The block is read back where the first one was printed over lines, and is printed over these
lines again. -/
structure BlockBroken (page : Page) (spacing : Bool) (stem : Text) (levels : Nat)
    (after : Int → Bool) (o : Output) (info : Info) (frame : Frame) (children : List Node)
    (info' : Info) (frame' : Frame) (children' : List Node) : Prop where
  echoes : (block info frame children).Echoes spacing (block info' frame' children')
  endsWithNewLine : endsWithNewLine (frame'.content children') = true
  chars : (printThen page levels .broken (inside spacing stem info frame children).propagate after
    o).chars = (block info' frame' children').text.reverse ++ o.chars
  again :
    printThen page levels .broken (inside spacing stem info' frame' children').propagate after o =
    printThen page levels .broken (inside spacing stem info frame children).propagate after o

/-- **A block over lines**, from its children. -/
theorem exists_broken_block {info : Info} {frame : Frame}
    (h : (block info frame children).Regular source stem spacing)
    (ih : ∀ n ∈ children, Reprints page spacing stem n) (levels : Nat) (after : Int → Bool)
    (o : Output) : ∃ info' frame' children',
      BlockBroken page spacing stem levels after o info frame children info' frame' children' := by
  obtain ⟨hstart, hstop, hc, -⟩ := h
  obtain ⟨start, hstart', hstartChars⟩ := Leaf.exists_broken hstart page levels
  obtain ⟨stop, hstop', hstopAkin, hstopChars⟩ := exists_broken_stop hstop page levels
  obtain ⟨u, hu⟩ := hstart'.reads.last
  have hinked : Inked (printThen page levels .broken (frame.start.sheet spacing).propagate atBreak
      o).chars := by
    rw [hstartChars, hu]
    exact ⟨'}', u.reverse ++ o.chars, by simp, by decide⟩
  by_cases hrows : rows children frame.tail = []
  · have hblank := isBlank_of_rows hc hrows
    obtain rfl : children = [] := Container.children_eq_nil hblank
    have htail : Text.isBlank (bodyEnd page levels false) = true :=
        isBlank_bodyEnd page levels false
    have hblank' : Text.isBlank ((Container.ofBlock info
        ⟨frame.keyword, start, bodyEnd page levels false, stop, frame.branch⟩ []).aliased stem) =
        true :=
      htail
    refine ⟨info, ⟨frame.keyword, start, bodyEnd page levels false, stop, frame.branch⟩, [],
      ⟨⟨info, _, [], rfl, rfl, ⟨rfl, rfl, hstart', hstop'⟩, ?_, rfl⟩, ?_, ?_, ?_⟩⟩
    · rw [hrows]
      exact Word.rows_eq_nil_iff.mpr (by rwa [aliasWord, List.nil_append, Word.all_isBlank_ofText])
    · exact endsWithNewLine_bodyEnd page levels false []
    · rw [inside_of_blank hblank, Printer.print_blockBody_empty, hstopChars,
        newline_of_inked page levels hinked, hstartChars, text, bodyEnd]
      simp [indentation_reverse, spellAll]
    · rw [inside_of_blank hblank, inside_of_blank hblank', Printer.print_blockBody_empty,
        Printer.print_blockBody_empty, hstart'.akin.print]
      exact congrFun (hstopAkin.print ..) _
  · obtain ⟨hedged, ns, tail, hns, hrows', hnewline, hchars, hagain⟩ :=
      exists_broken_body hc hrows ih
      (Printer.bodyLevels frame.keyword levels) levels hinked
    obtain ⟨hedged', hagain⟩ := hagain (Container.ofBlock info
      ⟨frame.keyword, start, tail, stop, frame.branch⟩ ns).span
    refine ⟨info, ⟨frame.keyword, start, tail, stop, frame.branch⟩, ns,
      ⟨⟨info, _, ns, rfl, rfl, ⟨rfl, rfl, hstart', hstop'⟩, hrows', echoesAll_iff.mpr hns⟩,
      hnewline,
        ?_, ?_⟩⟩
    · rw [print_inside hedged, hstopChars, hchars, hstartChars, text]
      simp
    · rw [print_inside hedged, print_inside hedged', hstart'.akin.print]
      exact (congrFun (hstopAkin.print ..) _).trans (congrArg _ (congrArg _ hagain))

end Node

end TemplateFormat
