import TemplateFormat.Proofs.Print.Echo

/-!
# Nodes that are printed on one line

A node that forces no break can be printed on one line. What is read back there is on one line too,
and is printed on that line again (`Node.exists_flat`): the rows of its blocks are one row each,
with a space around it where there was white space on the line before.

Results:
* `Node.Regular`: the nodes that are read back as they should.
* `Node.exists_children`: the children of a container that is written with slots for them.
* `Node.exists_flat`: what is read back for a node on one line.
-/

namespace TemplateFormat

open Doc Render

/-- The content of a container keeps its structure when it is printed: its placeholders are found,
no tag of it opens a preformatted element, no action begins in its literals, and its children are
closed. -/
structure Container.Regular (source stem after : Text) (c : Container) : Prop where
  keys : Splice.IsKeys source (c.keys stem)
  fresh : c.word.Fresh source
  plain : Markup.Html.Unformatted (c.aliased stem)
  quiet : Node.Quiet c.tail after c.children
  entire : ∀ n ∈ c.children, n.Entire

/-- The text reads as the action, and still does when it is printed; no raw region begins in it. -/
structure Action.Regular (spacing : Bool) (t : Text) (a : Action) : Prop where
  reads : ReadsAs t a
  steady : a.Steady spacing
  unopened : Region.Unopened (Text.solid t)

/-- The action reads as itself, and still does when it is printed. -/
def Leaf.Regular (spacing : Bool) (l : Leaf) : Prop := l.action.Regular spacing l.text

namespace Node

mutual

/-- The node keeps its structure when it is printed. -/
def Regular (source stem : Text) (spacing : Bool) : Node → Prop
  | .action _ t act => act.Regular spacing t
  | .raw _ _ => False
  | .block info frame children => frame.start.Regular spacing ∧
      (∀ l ∈ frame.stop, l.Regular spacing) ∧
        (Container.ofBlock info frame children).Regular source stem openBraces ∧
          RegularAll source stem spacing children
  | .chain _ branches => IsChain branches ∧ (∀ n ∈ branches, n.info.lead = []) ∧
      RegularAll source stem spacing branches

/-- The nodes keep their structure when they are printed. -/
def RegularAll (source stem : Text) (spacing : Bool) : List Node → Prop
  | [] => True
  | n :: ns => Regular source stem spacing n ∧ RegularAll source stem spacing ns

end

variable {source stem : Text} {spacing : Bool} {n m : Node} {ns ms children : List Node}

/-! ## Children -/

/-- **The children of a container that is written with slots for them.** -/
theorem exists_children {c : Nat → Node}
    (hc : ∀ (i : Nat) (n : Node), children[i]? = some n → n.Echoes spacing (c i)) {w : Word}
    (hslots : w.slots = List.range children.length) : ∃ ns tail,
      aliasWord 0 ns ++ Word.ofText tail = w ∧ List.Forall₂ (Echoes spacing) children ns ∧
        (∀ (i : Nat) (n : Node), ns[i]? = some n → ∃ lead, n = (c i).setLead lead) ∧
          spellAll ns ++ tail = w.restore fun i => (c i).text := by
  have hslots' : w.slots = List.range' 0 ((List.range children.length).map c).length := by
    rw [hslots, List.length_map, List.length_range, List.range_eq_range']
  obtain ⟨ns, tail, hword, hns⟩ := exists_recut hslots'
  have hlen : ns.length = children.length := by
    rw [← hns.length_eq, List.length_map, List.length_range]
  have hat (i : Nat) (n : Node) (hn : ns[i]? = some n) : ∃ lead, n = (c i).setLead lead := by
    obtain ⟨hi, -⟩ := List.getElem?_eq_some_iff.mp hn
    obtain ⟨n', hn', lead, hlead⟩ := exists_right_of_getElem? hns (i := i) (a := c i) (by
      rw [List.getElem?_map, List.getElem?_range (hlen ▸ hi)]
      rfl)
    obtain rfl := Option.some.inj (hn.symm.trans hn')
    exact ⟨lead, hlead⟩
  refine ⟨ns, tail, hword, List.forall₂_iff_get.mpr ⟨hlen.symm, fun i hi hi' => ?_⟩, hat, ?_⟩
  · obtain ⟨lead, hlead⟩ := hat i _ (List.getElem?_eq_getElem hi')
    rw [List.get_eq_getElem, List.get_eq_getElem, hlead]
    exact (hc i _ (List.getElem?_eq_getElem hi)).setLead lead
  · rw [← hword]
    refine (Container.restore_word (f := fun i => (c i).text) ⟨ns, tail, default⟩ fun i n hn =>
      ?_).symm
    obtain ⟨lead, rfl⟩ := hat i n hn
    exact (text_setLead lead (c i)).symm

end Node

/-! ## Actions -/

/-- An action on one line. -/
theorem newline_notMem_flat {t : Text} {a : Action} (h : ReadsAs t a) {spacing : Bool}
    (hforces : (a.doc spacing).forcesBreak = false) : '\n' ∉ (a.doc spacing).flat := by
  obtain ⟨htrimmed, -, -⟩ := h.statement
  have hline : '\n' ∉ a.statement := fun hn => by
    rw [Action.forcesBreak_doc ⟨htrimmed, hn⟩] at hforces
    exact absurd hforces (by decide)
  have hmarks (d : Delimiter) : '\n' ∉ d.opening ∧ '\n' ∉ d.closing := by cases d <;> decide
  have hpad (b : Bool) : '\n' ∉ Action.pad b := by cases b <;> decide
  by_cases hnil : a.statement = []
  · simp [Action.doc, statementDoc, statementLines, hnil, Text.lines, Text.splitOn, hmarks,
      openBraces,
      closeBraces]
  · rw [Action.flat_doc_of_line htrimmed hnil hline]
    simp [hmarks, hpad, hline, openBraces, closeBraces]

namespace Leaf

variable {spacing : Bool} {l : Leaf}

/-- **An action that is printed on one line** is read back as one. -/
theorem exists_flat (h : l.Regular spacing) (hforces : (l.sheet spacing).forcesBreak = false) :
    ∃ l', l.Echoes spacing l' ∧ (l'.sheet spacing).forcesBreak = false ∧
      l'.text = (l.sheet spacing).flat ∧ (l'.sheet spacing).flat = (l.sheet spacing).flat ∧
        '\n' ∉ l'.text := by
  have hunforced : (l.action.doc spacing).forcesBreak = false := hforces
  obtain ⟨t', a', ha', hprint⟩ := exists_rewritten h.reads h.steady {} 0
  have htext : t' = (l.action.doc spacing).flat := by
    have hchars := hprint .flat (fun _ => true) ⟨[], 0⟩
    rw [Action.print_doc_of_unforced hunforced] at hchars
    simpa [Output.write, eq_comm] using hchars
  have hforces' : (a'.doc spacing).forcesBreak = false := ha'.forces.trans hunforced
  refine ⟨⟨l.id, t', l.span, a'⟩, ⟨ha', rfl⟩, hforces', ?_, ?_, ?_⟩
  · rw [sheet, flat_group]
    exact htext
  · rw [sheet, sheet, flat_group, flat_group]
    exact Straight.text_eq (straight_of_unforced _ hforces') (straight_of_unforced _ hunforced)
      ha'.same
  · rw [show (Leaf.mk l.id t' l.span a').text = t' from rfl, htext]
    exact newline_notMem_flat h.reads hunforced

end Leaf

/-! ## One row -/

theorem anyForces_docs (d : Nat → Doc) (w : Word) :
    anyForces (w.docs d) = w.slots.any fun i => (d i).forcesBreak := by
  induction w with
  | nil => rfl
  | cons s w ih =>
    cases s with
    | char c => exact ih
    | slot i => exact congrArg (_ || ·) ih

theorem flatMap_docs (d : Nat → Doc) (w : Word) :
    (w.docs d).flatMap Doc.flat = w.restore fun i => (d i).flat := by
  induction w with
  | nil => rfl
  | cons s w ih =>
    cases s with
    | char c =>
      show (Doc.text [c]).flat ++ (Word.docs d w).flatMap Doc.flat = _
      rw [ih, flat_text]
      rfl
    | slot i => exact congrArg ((d i).flat ++ ·) ih

/-- **What is spliced on one line** is its only row. -/
theorem Laid.flat_eq {docs : List Doc} {first : Word} {d : Doc} (h : Laid docs first [] d)
    (hd : d.forcesBreak = false) :
    d.flat = first.restore fun i => (docs.getD i .empty).flat := by
  have hforces := h.forces
  rw [hd] at hforces
  have hrow : (rowsDoc (fun i => (docs.getD i .empty).propagate) first []).forcesBreak = false := by
    rw [rowsDoc, List.flatMap_nil, List.append_nil, forcesBreak, anyForces_docs]
    simp only [forcesBreak_propagate]
    exact hforces.symm
  have htext := Straight.text_eq (straight_of_unforced _ ((forcesBreak_propagate d).trans hd))
    (straight_of_unforced _ hrow) h.same
  rw [flat_propagate] at htext
  rw [htext, rowsDoc, List.flatMap_nil, List.append_nil, flat_concat, flatMap_docs]
  simp only [flat_propagate]

/-- The line breaks around a body are soft or normal ones. -/
theorem edges_cases (w : Word) : (leadingEdge w = .soft ∨ leadingEdge w = .normal) ∧
    (trailingEdge w = .soft ∨ trailingEdge w = .normal) := by
  unfold leadingEdge trailingEdge
  constructor <;> split <;> simp

theorem isForced_edges (w : Word) :
    (leadingEdge w).isForced = false ∧ (trailingEdge w).isForced = false := by
  obtain ⟨h | h, h' | h'⟩ := edges_cases w <;> rw [h, h'] <;> decide

/-- **A row with spaces around it**: the spaces are its edges. -/
theorem edges_row {first : Word} (h : first.IsRow) {k k' : Line} (hk : k = .soft ∨ k = .normal)
    (hk' : k' = .soft ∨ k' = .normal) :
    let w := Word.ofText (Doc.line k).flat ++ (first ++ Word.ofText (Doc.line k').flat)
    .char '\n' ∉ w ∧ w.rows = [(false, first)] ∧ leadingEdge w = k ∧ trailingEdge w = k' := by
  have hspace {k : Line} (hk : k = .soft ∨ k = .normal) :
      (Word.ofText (Doc.line k).flat).all Symbol.isBlank = true ∧
        .char '\n' ∉ Word.ofText (Doc.line k).flat := by
    obtain rfl | rfl := hk <;> simp [flat_line, Item.flat, Word.ofText, Symbol.isBlank, isBlank]
  have hhead (w : Word) : (first ++ w).head?.any Symbol.isBlank = false := by
    obtain ⟨x, first, rfl⟩ := List.exists_cons_of_ne_nil h.ne_nil
    exact h.tight.head x rfl
  have hlast (w : Word) : (w ++ first).getLast?.any Symbol.isBlank = false := by
    obtain ⟨first, x, rfl⟩ := (List.eq_nil_or_concat first).resolve_left h.ne_nil
    rw [List.concat_eq_append, ← List.append_assoc, List.getLast?_concat]
    exact h.tight.last x (by rw [List.concat_eq_append, List.getLast?_concat]; rfl)
  have hline : .char '\n' ∉
      Word.ofText (Doc.line k).flat ++ (first ++ Word.ofText (Doc.line k').flat) := by
    simp [(hspace hk).2, (hspace hk').2, h.line]
  refine ⟨hline, ?_, ?_, ?_⟩
  · rw [Word.rows_blank_append (hspace hk).1, Word.rows_append_blank (hspace hk').1,
      Word.rows_of_line h.line h.all_isBlank, Rows.inner_of_tight h.tight]
  · rw [leadingEdge]
    obtain rfl | rfl := hk
    · exact if_neg fun hc => absurd hc.2 (Bool.eq_false_iff.mp (hhead _))
    · exact if_pos ⟨hline, rfl⟩
  · rw [trailingEdge]
    obtain rfl | rfl := hk'
    · refine if_neg fun hc => absurd hc.2 (Bool.eq_false_iff.mp ?_)
      rw [show Word.ofText (Doc.line .soft).flat = [] from rfl, List.append_nil]
      exact hlast _
    · refine if_pos ⟨hline, ?_⟩
      rw [← List.append_assoc, show Word.ofText (Doc.line .normal).flat = [.char ' '] from rfl,
        List.getLast?_concat]
      rfl

namespace Node

/-- The second node is read back where the first one was printed on one line, and is printed on that
line again. -/
structure EchoesFlat (spacing : Bool) (stem : Text) (n m : Node) : Prop where
  echoes : n.Echoes spacing m
  unforced : (m.sheet spacing stem).forcesBreak = false
  text_eq : m.text = (n.sheet spacing stem).flat
  flat_eq : (m.sheet spacing stem).flat = (n.sheet spacing stem).flat
  line : '\n' ∉ m.text

/-- **A closing action on one line.** -/
theorem exists_flat_stop {frame : Frame} (h : ∀ l ∈ frame.stop, l.Regular spacing)
    (hforces : (frame.stopSheet spacing).forcesBreak = false) : ∃ stop : Option Leaf,
      Option.Rel (Leaf.Echoes spacing) frame.stop stop ∧
        ((stop.map (Leaf.sheet spacing)).getD .empty).forcesBreak = false ∧
        (stop.map Leaf.text).getD [] = (frame.stopSheet spacing).flat ∧
        ((stop.map (Leaf.sheet spacing)).getD .empty).flat = (frame.stopSheet spacing).flat ∧
        '\n' ∉ (stop.map Leaf.text).getD [] := by
  rw [Frame.stopSheet] at hforces ⊢
  cases hstop : frame.stop with
  | none => exact ⟨none, .none, rfl, flat_empty.symm, rfl, List.not_mem_nil⟩
  | some l =>
    rw [hstop] at h hforces
    obtain ⟨l', hl', hrest⟩ := Leaf.exists_flat (h l rfl) hforces
    exact ⟨some l', .some hl', hrest⟩

theorem isEmpty_stopSheet {frame : Frame} (h : (frame.stopSheet spacing).isEmpty = true) :
    (frame.stopSheet spacing).forcesBreak = false := by
  rw [Frame.stopSheet] at h ⊢
  cases hstop : frame.stop with
  | none => rfl
  | some l =>
    rw [hstop] at h
    exact absurd h (Bool.eq_false_iff.mp (l.action.ends_doc spacing).1.isEmpty)

theorem forcesBreak_of_inPlace {d : Doc} (h : d.isEmpty = false) {n : Node} {before after : Text}
    (hforces : (n.inPlace before after d).forcesBreak = false) : d.forcesBreak = false := by
  have hkept := forcesBreak_kept h after
  cases n with
  | action info t act =>
    rw [inPlace, forcesBreak, Bool.or_eq_false_iff, hkept] at hforces
    exact hforces.2
  | raw info t => exact hkept.symm.trans hforces
  | chain info branches => exact hkept.symm.trans hforces
  | block info frame children =>
    rw [inPlace] at hforces
    split at hforces
    · exact hforces
    · exact hkept.symm.trans hforces

/-- A document that is not alone on its line forces no break that it does not force itself. -/
theorem forcesBreak_inPlace {d : Doc} (h : d.isEmpty = false) {before after : Text}
    (halone : aloneOnLine before after = false) (n : Node) :
    (n.inPlace before after d).forcesBreak = d.forcesBreak := by
  have hkept := forcesBreak_kept h after
  cases n with
  | action info t act =>
    rw [inPlace, forcesBreak, halone, hkept, Bool.false_or]
  | raw info t => exact hkept
  | chain info branches => exact hkept
  | block info frame children =>
    rw [inPlace]
    split
    · rfl
    · exact hkept

theorem flat_inPlace (n : Node) (before after : Text) (d : Doc) :
    (n.inPlace before after d).flat = d.flat := by
  have hkept : (Doc.join [d, keptBlankLine after]).flat = d.flat := by
    rw [keptBlankLine]
    split <;> simp
  cases n with
  | action info t act => rw [inPlace, flat_group, hkept]
  | raw info t => exact hkept
  | chain info branches => exact hkept
  | block info frame children =>
    rw [inPlace]
    split
    · rfl
    · exact hkept

/-- The block is read back where it was printed on one line. -/
structure BlockFlat (spacing : Bool) (stem : Text) (info : Info) (frame : Frame)
    (children : List Node)
    (info' : Info) (frame' : Frame) (children' : List Node) : Prop where
  echoes : (block info frame children).Echoes spacing (block info' frame' children')
  unforced : (inside spacing stem info' frame' children').forcesBreak = false
  text_eq : (block info' frame' children').text = (inside spacing stem info frame children).flat
  flat_eq : (inside spacing stem info' frame' children').flat =
    (inside spacing stem info frame children).flat
  line : '\n' ∉ (block info' frame' children').text

variable {info : Info} {frame : Frame}

theorem isEmpty_sheet (spacing : Bool) (l : Leaf) : (l.sheet spacing).isEmpty = false :=
  (l.action.ends_doc spacing).1.isEmpty

theorem inside_of_blank
    (h : Text.isBlank ((Container.ofBlock info frame children).aliased stem) = true) :
    inside spacing stem info frame children = Printer.blockBody frame.keyword
      (.soft, .empty, .soft) (frame.start.sheet spacing) (frame.stopSheet spacing) := by
  rw [inside, Printer.bodyParts, if_pos h]

/-- A block without rows has nothing but white space in it. -/
theorem isBlank_of_rows {c : Container} {after : Text} (h : c.Regular source stem after)
    (hrows : c.word.rows = []) : Text.isBlank (c.aliased stem) = true := by
  rw [← c.spell_word, Splice.isBlank_spell h.keys (c.within_keys stem)]
  exact Word.rows_eq_nil_iff.mp hrows

/-- A block without a body. -/
theorem exists_flat_nil (h : (block info frame children).Regular source stem spacing)
    (hforces : (inside spacing stem info frame children).forcesBreak = false)
    (hrows : rows children frame.tail = []) : ∃ info' frame' children',
      BlockFlat spacing stem info frame children info' frame' children' := by
  obtain ⟨hstart, hstop, hc, -⟩ := h
  have hblank := isBlank_of_rows hc hrows
  obtain rfl : children = [] := Container.children_eq_nil hblank
  have hforcesOf {f : Frame} : (Printer.blockBody f.keyword (.soft, .empty, .soft)
      (f.start.sheet spacing) (f.stopSheet spacing)).forcesBreak =
        ((f.start.sheet spacing).forcesBreak || (false || (f.stopSheet spacing).forcesBreak)) :=
    Printer.forcesBreak_blockBody rfl rfl (fun _ => rfl) (isEmpty_sheet spacing f.start)
      isEmpty_stopSheet
  rw [inside_of_blank hblank, hforcesOf, Bool.false_or, Bool.or_eq_false_iff] at hforces
  obtain ⟨start, hstart', hstartForces, hstartText, hstartFlat, hstartLine⟩ :=
    Leaf.exists_flat hstart hforces.1
  obtain ⟨stop, hstop', hstopForces, hstopText, hstopFlat, hstopLine⟩ :=
    exists_flat_stop hstop hforces.2
  have hblank' : Text.isBlank ((Container.ofBlock info
      ⟨frame.keyword, start, [], stop, frame.branch⟩ []).aliased stem) = true := rfl
  refine ⟨info, ⟨frame.keyword, start, [], stop, frame.branch⟩, [], ⟨?_, ?_, ?_, ?_, ?_⟩⟩
  · exact ⟨info, _, [], rfl, rfl, ⟨rfl, rfl, hstart', hstop'⟩, hrows.symm, rfl⟩
  · rw [inside_of_blank hblank', hforcesOf]
    exact Bool.or_eq_false_iff.mpr ⟨hstartForces, hstopForces⟩
  · rw [inside_of_blank hblank, Printer.flat_blockBody, text, hstartText, hstopText]
    simp [flat_line, Item.flat, spellAll, Doc.isEmpty]
  · rw [inside_of_blank hblank, inside_of_blank hblank', Printer.flat_blockBody,
      Printer.flat_blockBody, Frame.stopSheet, hstartFlat, hstopFlat]
  · rw [text]
    simp [spellAll, hstartLine, hstopLine]

/-- The slots of the rows are those of the children. -/
theorem rowSlots_of_rows {c : Container} {first : Word} {rest : List Row}
    (h : c.word.rows = (false, first) :: rest.map Row.flush) :
    rowSlots first rest = List.range c.children.length := by
  rw [← c.slots_word, ← Word.flatMap_slots_rows c.word, h, List.flatMap_cons, List.flatMap_map]
  rfl

/-- The parts of a body, with its children in their places. -/
def parts (spacing : Bool) (stem : Text) (c : Container) : Line × Doc × Line :=
  Printer.bodyParts stem c (inPlaceAll closeBraces c.tail openBraces c.children
    (sheetAll spacing stem c.children))

/-- A row is the only one, if no line break comes behind it; no child is alone on its line then. -/
theorem aloneOnLine_of_line {lead after : Text} (h : '\n' ∉ lead) :
    aloneOnLine (closeBraces ++ lead) after = false := by
  rw [aloneOnLine, isBlank_lastLine_closeBraces, endsWithNewLine,
    Bool.eq_false_iff.mpr fun hany => h ((any_newline_iff lead).mp hany)]
  rfl

theorem EchoesFlat.setLead {n m : Node} (h : EchoesFlat spacing stem n m) (lead : Text) :
    EchoesFlat spacing stem n (m.setLead lead) := by
  obtain ⟨hechoes, hforces, htext, hflat, hline⟩ := h
  refine ⟨hechoes.setLead lead, ?_, ?_, ?_, ?_⟩
  · rwa [sheet_setLead]
  · rwa [text_setLead]
  · rwa [sheet_setLead]
  · rwa [text_setLead]

/-- In its place in a body, what is read back on one line is printed on the line as the child was. -/
theorem EchoesFlat.flat_sheets {ns ms : List Node} {i : Nat} {n m : Node}
    (h : EchoesFlat spacing stem n m) (hn : ns[i]? = some n) (hm : ms[i]? = some m)
    (hentire : m.Entire) (hlead : '\n' ∉ m.info.lead) (tail tail' : Text) :
    ((inPlaceAll closeBraces tail' openBraces ms (sheetAll spacing stem ms)).getD i
        .empty).forcesBreak = false ∧
      ((inPlaceAll closeBraces tail' openBraces ms (sheetAll spacing stem ms)).getD i .empty).flat =
        ((inPlaceAll closeBraces tail openBraces ns (sheetAll spacing stem ns)).getD i
          .empty).flat := by
  rw [getD_sheets hm, getD_sheets hn, flat_inPlace, flat_inPlace, beforeAt_closeBraces hm,
    forcesBreak_inPlace (closed_sheet spacing stem hentire).isEmpty (aloneOnLine_of_line hlead)]
  exact ⟨h.unforced, h.flat_eq⟩

/-- **A body on one line**, from its children. -/
theorem exists_flat_body (spacing : Bool) {c : Container} (hc : c.Regular source stem openBraces)
    (hrows : c.word.rows ≠ []) : ∃ k body k', parts spacing stem c = (k, body, k') ∧
      k.isForced = false ∧ k'.isForced = false ∧ body.isEmpty = false ∧
      (body.forcesBreak = false → ((∀ n ∈ c.children, (n.sheet spacing stem).forcesBreak = false) →
        ∃ ms, List.Forall₂ (EchoesFlat spacing stem) c.children ms) →
      ∃ ns tail, List.Forall₂ (Echoes spacing) c.children ns ∧ rows ns tail = c.word.rows ∧
        '\n' ∉ spellAll ns ++ tail ∧
        spellAll ns ++ tail = (Doc.line k).flat ++ (body.flat ++ (Doc.line k').flat) ∧
        ∀ span, ∃ body', parts spacing stem ⟨ns, tail, span⟩ = (k, body', k') ∧
          body'.isEmpty = false ∧ body'.forcesBreak = false ∧ body'.flat = body.flat) := by
  obtain ⟨first, rest, hfirst, hlaid⟩ := exists_laid hc.keys hc.fresh hc.plain hrows
  have hlen : (c.keys stem).length = c.children.length := List.length_map _
  obtain ⟨-, body, hparts, hbody⟩ := hlaid c _ rfl rfl fun i hi =>
    closed_sheets spacing stem hc.entire closeBraces c.tail openBraces (hlen ▸ hi)
  obtain ⟨hk, hk'⟩ := edges_cases c.word
  obtain ⟨hleading, htrailing⟩ := isForced_edges c.word
  refine ⟨_, body, _, hparts, hleading, htrailing, hbody.isEmpty, fun hforces ih => ?_⟩
  have hunforced := hbody.forces
  rw [hforces, eq_comm, Bool.or_eq_false_iff, Bool.not_eq_false', List.isEmpty_iff] at hunforced
  obtain ⟨rfl, hunforced⟩ := hunforced
  have hisRow : first.IsRow := Word.isRow_of_mem_rows (w := c.word) (r := (false, first)) (by
    rw [hfirst]
    exact List.mem_cons_self)
  have hslots : first.slots = List.range c.children.length := by
    rw [← rowSlots_of_rows hfirst, rowSlots, List.flatMap_nil, List.append_nil]
  -- what is read back for the children
  obtain ⟨ms, hms⟩ := ih fun n hn => by
    obtain ⟨i, hi, rfl⟩ := List.getElem_of_mem hn
    have hdoc := List.any_eq_false.mp hunforced i (by rw [hslots]; exact List.mem_range.mpr hi)
    rw [getD_sheets (List.getElem?_eq_getElem hi)] at hdoc
    exact forcesBreak_of_inPlace (closed_sheet spacing stem (hc.entire _ hn)).isEmpty
      (Bool.eq_false_iff.mpr hdoc)
  have hat (i : Nat) (n : Node) (hn : c.children[i]? = some n) :
      EchoesFlat spacing stem n (ms.getD i default) := by
    obtain ⟨m, hm, hnm⟩ := exists_right_of_getElem? hms hn
    rwa [List.getD_eq_getElem?_getD, hm]
  obtain ⟨hline, hrow, hleads, htrails⟩ := edges_row hisRow hk hk'
  have hslots' : Word.slots (Word.ofText (Doc.line (leadingEdge c.word)).flat ++
      (first ++ Word.ofText (Doc.line (trailingEdge c.word)).flat)) =
        List.range c.children.length := by
    rw [Word.slots_append, Word.slots_append, Word.slots_ofText, Word.slots_ofText, List.nil_append,
      List.append_nil, hslots]
  obtain ⟨ns, tail, hword, hns, hlead, htext⟩ :=
    exists_children (fun i n hn => (hat i n hn).echoes) hslots'
  have hflat : first.restore (fun i => ((ms.getD i default).text)) = body.flat := by
    rw [hbody.flat_eq hforces]
    refine Word.restore_congr fun i hi => ?_
    obtain hi := List.mem_range.mp (hslots ▸ hi)
    have hn := List.getElem?_eq_getElem hi
    rw [getD_sheets hn, flat_inPlace, (hat i _ hn).text_eq]
  have hlen' : ns.length = c.children.length := hns.length_eq.symm
  refine ⟨ns, tail, hns, ?_, ?_, ?_, fun span => ?_⟩
  · rw [rows, hword, hrow, hfirst]
    rfl
  · rw [htext, Word.mem_restore, not_or]
    refine ⟨hline, ?_⟩
    rintro ⟨i, hi, hmem⟩
    have hi := List.mem_range.mp (hslots' ▸ Word.mem_slots.mpr hi)
    exact (hat i _ (List.getElem?_eq_getElem hi)).line hmem
  · rw [htext, Word.restore_append, Word.restore_append, Word.restore_ofText, Word.restore_ofText,
      hflat]
  · have hentire : ∀ n ∈ ns, n.Entire := fun m hm => by
      obtain ⟨n, hn, hnm⟩ := exists_left_of_mem hns m hm
      exact hnm.entire (hc.entire n hn)
    obtain ⟨-, body', hparts', hbody'⟩ := hlaid ⟨ns, tail, span⟩ _ (placeholder_eq hns stem) (by
        rw [Container.word, hword, hrow, hfirst]
        rfl)
      fun i hi => closed_sheets spacing stem hentire closeBraces tail openBraces
        (by rw [hlen']; exact hlen ▸ hi)
    rw [Container.word, hword, hleads, htrails] at hparts'
    have hdoc (i : Nat) (hi : i ∈ first.slots) :
        ((inPlaceAll closeBraces tail openBraces ns (sheetAll spacing stem ns)).getD i
          .empty).forcesBreak = false ∧
        ((inPlaceAll closeBraces tail openBraces ns (sheetAll spacing stem ns)).getD i
        .empty).flat =
          ((inPlaceAll closeBraces c.tail openBraces c.children
            (sheetAll spacing stem c.children)).getD i .empty).flat := by
      have hi := List.mem_range.mp (hslots ▸ hi)
      have hn := List.getElem?_eq_getElem hi
      have hm := List.getElem?_eq_getElem (hlen'.symm ▸ hi)
      obtain ⟨lead, hlead⟩ := hlead i _ hm
      have hflat : EchoesFlat spacing stem c.children[i] ns[i] := by
        rw [hlead]
        exact (hat i _ hn).setLead lead
      refine hflat.flat_sheets hn hm (hentire _ (List.getElem_mem _)) (fun hmem => ?_) c.tail tail
      have hword' := hword ▸ hline
      rw [aliasWord_at 0 hm] at hword'
      exact hword' (by simp [Word.ofText, hmem])
    have hforces' : body'.forcesBreak = false := by
      rw [hbody'.forces]
      exact Bool.or_eq_false_iff.mpr ⟨rfl, List.any_eq_false.mpr fun i hi =>
        Bool.eq_false_iff.mp (hdoc i hi).1⟩
    refine ⟨body', hparts', hbody'.isEmpty, hforces', ?_⟩
    rw [hbody'.flat_eq hforces', hbody.flat_eq hforces]
    exact Word.restore_congr fun i hi => (hdoc i hi).2

theorem inside_of_parts {info : Info} {frame : Frame} {children : List Node} {k k' : Line}
    {body : Doc} (h : parts spacing stem (.ofBlock info frame children) = (k, body, k')) :
    inside spacing stem info frame children = Printer.blockBody frame.keyword (k, body, k')
      (frame.start.sheet spacing) (frame.stopSheet spacing) := by
  rw [inside, ← h]
  rfl

/-- **A block on one line**, from its children. -/
theorem exists_flat_block (h : (block info frame children).Regular source stem spacing)
    (hforces : (inside spacing stem info frame children).forcesBreak = false)
    (ih : (∀ n ∈ children, (n.sheet spacing stem).forcesBreak = false) →
      ∃ ms, List.Forall₂ (EchoesFlat spacing stem) children ms) : ∃ info' frame' children',
        BlockFlat spacing stem info frame children info' frame' children' := by
  by_cases hrows : rows children frame.tail = []
  · exact exists_flat_nil h hforces hrows
  obtain ⟨hstart, hstop, hc, -⟩ := h
  obtain ⟨k, body, k', hparts, hk, hk', hshown, hbody⟩ := exists_flat_body spacing hc hrows
  have hforcesOf {f : Frame} {body : Doc} (hshown : body.isEmpty = false) :
      (Printer.blockBody f.keyword (k, body, k') (f.start.sheet spacing)
        (f.stopSheet spacing)).forcesBreak = ((f.start.sheet spacing).forcesBreak ||
          (body.forcesBreak || (f.stopSheet spacing).forcesBreak)) :=
    Printer.forcesBreak_blockBody hk hk' (fun hempty => absurd hempty (Bool.eq_false_iff.mp hshown))
      (isEmpty_sheet spacing f.start) isEmpty_stopSheet
  rw [inside_of_parts hparts, hforcesOf hshown, Bool.or_eq_false_iff,
    Bool.or_eq_false_iff] at hforces
  obtain ⟨hforcesStart, hforcesBody, hforcesStop⟩ := hforces
  obtain ⟨start, hstart', hstartForces, hstartText, hstartFlat, hstartLine⟩ :=
    Leaf.exists_flat hstart hforcesStart
  obtain ⟨stop, hstop', hstopForces, hstopText, hstopFlat, hstopLine⟩ :=
    exists_flat_stop hstop hforcesStop
  obtain ⟨ns, tail, hns, hrows', hline, htext, hparts'⟩ := hbody hforcesBody ih
  obtain ⟨body', hparts', hshown', hforces', hflat'⟩ := hparts'
    (Container.ofBlock info ⟨frame.keyword, start, tail, stop, frame.branch⟩ ns).span
  have hinside : inside spacing stem info ⟨frame.keyword, start, tail, stop, frame.branch⟩ ns = _ :=
    inside_of_parts hparts'
  have hcontent : (block info ⟨frame.keyword, start, tail, stop, frame.branch⟩ ns).text =
      start.text ++ ((spellAll ns ++ tail) ++ (stop.map Leaf.text).getD []) := by
    rw [text]
    simp only [List.append_assoc]
  refine ⟨info, ⟨frame.keyword, start, tail, stop, frame.branch⟩, ns, ⟨?_, ?_, ?_, ?_, ?_⟩⟩
  · exact ⟨info, _, ns, rfl, rfl, ⟨rfl, rfl, hstart', hstop'⟩, hrows', echoesAll_iff.mpr hns⟩
  · rw [hinside, hforcesOf hshown']
    exact Bool.or_eq_false_iff.mpr ⟨hstartForces, Bool.or_eq_false_iff.mpr ⟨hforces', hstopForces⟩⟩
  · rw [hcontent, inside_of_parts hparts, Printer.flat_blockBody, hstartText, hstopText, htext,
      if_neg (Bool.eq_false_iff.mp hshown)]
    simp only [List.append_assoc]
  · rw [hinside, inside_of_parts hparts, Printer.flat_blockBody, Printer.flat_blockBody,
      Frame.stopSheet, hstartFlat, hstopFlat, hflat', if_neg (Bool.eq_false_iff.mp hshown),
      if_neg (Bool.eq_false_iff.mp hshown')]
  · rw [hcontent]
    simp only [List.mem_append, not_or] at hline ⊢
    exact ⟨hstartLine, hline, hstopLine⟩

/-- A text on one line does not end with a new line. -/
theorem endsWithNewLine_of_line {t : Text} (h : '\n' ∉ t) : endsWithNewLine t = false := by
  rw [endsWithNewLine, Bool.eq_false_iff.mpr fun hany => h ((any_newline_iff t).mp hany)]
  rfl

theorem newline_notMem_content (h : '\n' ∉ (block info frame children).text) :
    '\n' ∉ frame.content children := by
  rintro hmem
  rw [Frame.content, List.mem_append] at hmem
  rw [text] at h
  simp only [List.mem_append] at h
  tauto

/-- A block that is read back where it was printed on one line. -/
theorem BlockFlat.echoesFlat {info' : Info} {frame' : Frame} {children' : List Node}
    (h : BlockFlat spacing stem info frame children info' frame' children') :
    EchoesFlat spacing stem (block info frame children) (block info' frame' children') := by
  have hsheet : ((block info frame children).sheet spacing stem).flat =
      (inside spacing stem info frame children).flat := by
    rw [sheet_block]
    split
    · rfl
    · exact flat_group ..
  have hsheet' : ((block info' frame' children').sheet spacing stem).flat =
      (inside spacing stem info' frame' children').flat := by
    rw [sheet_block]
    split
    · rfl
    · exact flat_group ..
  refine ⟨h.echoes, ?_, h.text_eq.trans hsheet.symm, hsheet'.trans (h.flat_eq.trans hsheet.symm),
    h.line⟩
  rw [sheet_block]
  split
  · exact h.unforced
  · rw [forcesBreak, h.unforced, endsWithNewLine_of_line (newline_notMem_content h.line)]
    rfl

/-- A chain on one line. -/
theorem chainBreaks_of_line {branches : List Node} (h : ∀ n ∈ branches, '\n' ∉ n.text) :
    Printer.chainBreaks branches = false := by
  rw [Printer.chainBreaks]
  split
  · rename_i hlast
    exact endsWithNewLine_of_line (newline_notMem_content (h _ (List.mem_of_getLast? hlast)))
  · rfl

/-- The branches of a chain start with texts. -/
theorem IsChain.startsText {branches : List Node} (h : IsChain branches) :
    ∀ n ∈ branches, (n.sheet spacing stem).StartsText := by
  obtain ⟨first, mid, last, rfl, hfirst, hmid, hlast⟩ := h
  intro n hn
  simp only [List.mem_cons, List.mem_append, List.not_mem_nil, or_false] at hn
  obtain rfl | hn | rfl := hn
  exacts [hfirst.ends.1, (hmid n hn).ends.1, hlast.ends.1]

theorem forcesBreak_branches {branches : List Node} (h : IsChain branches) :
    (Doc.join (branches.map (sheet spacing stem))).forcesBreak =
      branches.any fun n => (n.sheet spacing stem).forcesBreak := by
  rw [forcesBreak_join, List.any_map]
  · rfl
  · intro d hd hempty
    obtain ⟨n, hn, rfl⟩ := List.mem_map.mp hd
    exact absurd hempty (Bool.eq_false_iff.mp (h.startsText n hn).isEmpty)

/-- The texts of branches that are read back. -/
theorem EchoesFlat.branches (h : List.Forall₂ (EchoesFlat spacing stem) ns ms)
    (hleads : ∀ m ∈ ms, m.info.lead = []) :
    spellAll ms = ns.flatMap (fun n => (n.sheet spacing stem).flat) ∧
      ms.flatMap (fun m => (m.sheet spacing stem).flat) =
        ns.flatMap (fun n => (n.sheet spacing stem).flat) ∧ '\n' ∉ spellAll ms := by
  induction h with
  | nil => exact ⟨rfl, rfl, List.not_mem_nil⟩
  | cons h _ ih =>
    obtain ⟨hlead, hleads⟩ := List.forall_mem_cons.mp hleads
    obtain ⟨htext, hflat, hline⟩ := ih hleads
    rw [spellAll, hlead, List.nil_append, List.flatMap_cons, List.flatMap_cons, htext, hflat,
      h.text_eq, h.flat_eq]
    refine ⟨rfl, rfl, ?_⟩
    rw [List.mem_append, not_or, ← h.text_eq, ← htext]
    exact ⟨h.line, hline⟩

mutual

/-- **What is read back for a node on one line**, by induction on the node. -/
theorem exists_flat : ∀ {n : Node}, n.Regular source stem spacing →
    (n.sheet spacing stem).forcesBreak = false → ∃ m, EchoesFlat spacing stem n m
  | .action info t act, h, hforces => by
    obtain ⟨l, hl, hlforces, hltext, hlflat, hline⟩ :=
      Leaf.exists_flat (l := ⟨0, t, info.span, act⟩) h hforces
    refine ⟨.action info l.text l.action, ⟨⟨info, _, _, rfl, rfl, hl.toRewritten⟩, hlforces, ?_, ?_,
      hline⟩⟩
    · rw [sheet]
      exact hltext.trans (flat_group ..)
    · rw [sheet, sheet]
      exact (flat_group _ false).symm.trans (hlflat.trans (flat_group ..))
  | .raw _ _, h, _ => h.elim
  | .block info frame children, h, hforces => by
    have hinside : (inside spacing stem info frame children).forcesBreak = false := by
      rw [sheet_block] at hforces
      split at hforces
      · exact hforces
      · rw [forcesBreak, Bool.or_eq_false_iff] at hforces
        exact hforces.2
    obtain ⟨info', frame', children', hblock⟩ := exists_flat_block h hinside fun hunforced =>
      exists_flatAll h.2.2.2 hunforced
    exact ⟨_, hblock.echoesFlat⟩
  | .chain info branches, h, hforces => by
    rw [sheet_chain, forcesBreak, Bool.or_eq_false_iff, forcesBreak_branches h.1] at hforces
    obtain ⟨ms, hms⟩ := exists_flatAll h.2.2 fun n hn =>
      Bool.eq_false_iff.mpr (List.any_eq_false.mp hforces.2 n hn)
    replace hms : List.Forall₂ (EchoesFlat spacing stem) branches (ms.map (setLead [])) :=
      List.forall₂_map_right_iff.mpr (hms.imp fun _ _ hm => hm.setLead [])
    have hleads : ∀ m ∈ ms.map (setLead []), m.info.lead = [] := fun m hm => by
      obtain ⟨m, -, rfl⟩ := List.mem_map.mp hm
      exact lead_setLead [] m
    generalize ms.map (setLead []) = ms at hms hleads
    have hechoes := hms.imp fun _ _ hm => hm.echoes
    have hall {P : Node → Prop} (hP : ∀ {n m}, EchoesFlat spacing stem n m → P m) : ∀ m ∈ ms, P m :=
      fun m hm => by
        obtain ⟨n, -, hnm⟩ := exists_left_of_mem hms m hm
        exact hP hnm
    have hbreaks : Printer.chainBreaks ms = false := chainBreaks_of_line (hall fun hm => hm.line)
    obtain ⟨htext, hflat, hline⟩ := EchoesFlat.branches hms hleads
    refine ⟨.chain info ms, ⟨⟨info, ms, rfl, rfl, hleads, echoesAll_iff.mpr hechoes⟩, ?_, ?_, ?_,
      ?_⟩⟩
    · rw [sheet_chain, forcesBreak, hbreaks, forcesBreak_branches (isChain_of_echoes hechoes h.1)]
      exact List.any_eq_false.mpr fun m hm => Bool.eq_false_iff.mp
        (hall (fun hm => hm.unforced) m hm)
    · rw [sheet_chain, flat_group, flat_join, List.flatMap_map, text, htext]
    · rw [sheet_chain, sheet_chain, flat_group, flat_group, flat_join, flat_join, List.flatMap_map,
        List.flatMap_map, hflat]
    · rwa [text]

/-- What is read back for nodes on one line. -/
theorem exists_flatAll : ∀ {ns : List Node}, RegularAll source stem spacing ns →
    (∀ n ∈ ns, (n.sheet spacing stem).forcesBreak = false) →
      ∃ ms, List.Forall₂ (EchoesFlat spacing stem) ns ms
  | [], _, _ => ⟨[], .nil⟩
  | n :: ns, h, hforces => by
    obtain ⟨hn, hns⟩ := List.forall_mem_cons.mp hforces
    obtain ⟨m, hm⟩ := exists_flat h.1 hn
    obtain ⟨ms, hms⟩ := exists_flatAll h.2 hns
    exact ⟨m :: ms, .cons hm hms⟩

end

end Node

end TemplateFormat
