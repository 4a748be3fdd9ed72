import TemplateFormat.Proofs.Print.Rewritten
import TemplateFormat.Proofs.Print.InPlace

/-!
# Bodies between actions

A block is its opening action, its body and its closing action. In broken mode the body starts on a
new line, one level further in unless the block is a definition, and the closing action starts
another line. Whether the block fits there depends on its opening action alone. In flat mode all of
it is written on the line.

Results:
* `Printer.print_blockBody`, `Printer.fits_blockBody`: a block in broken mode.
* `Printer.forcesBreak_blockBody`, `Printer.flat_blockBody`: a block on one line.
* `Node.closed_sheet`: the document of a node starts and ends with texts.
-/

namespace TemplateFormat

open Doc Render

namespace Printer

/-- The level of the body of a block. -/
def bodyLevels (keyword : Keyword) (levels : Nat) : Nat :=
  if keyword = .defineKw then levels else levels + 1

/-- The body of a block behind its line break. -/
def bodyDoc (keyword : Keyword) (leading : Line) (body : Doc) : Doc :=
  if body.isEmpty then .empty
  else if keyword = .defineKw then .join [.line leading, body]
  else .nest (.join [.line leading, body])

variable {keyword : Keyword} {leading trailing : Line} {start body stop : Doc}

theorem blockBody_eq : blockBody keyword (leading, body, trailing) start stop =
    .join [start, bodyDoc keyword leading body, .line trailing, stop] := rfl

theorem same_blockBody : Same (blockBody keyword (leading, body, trailing) start stop).propagate
    (.concat [start.propagate, (bodyDoc keyword leading body).propagate, .line trailing,
      stop.propagate]) := by
  rw [blockBody_eq, ← join_propagateAll]
  exact same_join _

theorem same_bodyDoc (h : body.isEmpty = false) : Same (bodyDoc keyword leading body).propagate
    (if keyword = .defineKw then .concat [.line leading, body.propagate]
      else .indent (.concat [.line leading, body.propagate])) := by
  have hinner : Same (Doc.join [.line leading, body]).propagate
      (.concat [.line leading, body.propagate]) := by
    rw [← join_propagateAll]
    exact same_join _
  rw [bodyDoc, if_neg (Bool.eq_false_iff.mp h)]
  split
  · exact hinner
  · rw [propagate_nest]
    exact (same_nest _).trans hinner.indent

/-! ## In broken mode -/

theorem lineBreak_broken (page : Page) (levels : Nat) {kind : Line} (h : kind.isForced = false)
    (o : Output) : lineBreak page levels .broken kind o = o.newline page levels true := by
  cases kind <;> first | rfl | exact absurd h (by decide)

/-- **A block in broken mode**: its body and its closing action start lines. -/
theorem print_blockBody (page : Page) (levels : Nat) (hbody : body.isEmpty = false)
    (hleading : leading.isForced = false) (htrailing : trailing.isForced = false)
    (after : Int → Bool) (o : Output) :
    printThen page levels .broken
        (blockBody keyword (leading, body, trailing) start stop).propagate after o =
      printThen page levels .broken stop.propagate after
        ((printThen page (bodyLevels keyword levels) .broken body.propagate atBreak
          ((printThen page levels .broken start.propagate atBreak o).newline page
            (bodyLevels keyword levels) true)).newline page levels true) := by
  have hsame : Same (bodyDoc keyword leading body).propagate _ := same_bodyDoc hbody
  have hfits : fitsThen .broken (bodyDoc keyword leading body).propagate atBreak = atBreak := by
    rw [hsame.fits]
    split <;> exact fits_line leading (fitsAllThen .broken [body.propagate] atBreak)
  have hprint (o : Output) : printThen page levels .broken (bodyDoc keyword leading body).propagate
      atBreak o = printThen page (bodyLevels keyword levels) .broken body.propagate atBreak
        (o.newline page (bodyLevels keyword levels) true) := by
    rw [hsame.print, bodyLevels]
    split
    · exact congrArg (printThen page levels .broken body.propagate atBreak)
        (lineBreak_broken page levels hleading o)
    · exact congrArg (printThen page (levels + 1) .broken body.propagate atBreak)
        (lineBreak_broken page (levels + 1) hleading o)
  rw [same_blockBody.print]
  show printThen page levels .broken stop.propagate after (lineBreak page levels .broken trailing
    (printThen page levels .broken (bodyDoc keyword leading body).propagate
      (fitsThen .broken (.line trailing) (fitsThen .broken stop.propagate after))
      (printThen page levels .broken start.propagate
        (fitsThen .broken (bodyDoc keyword leading body).propagate
          (fitsThen .broken (.line trailing) (fitsThen .broken stop.propagate after))) o))) = _
  rw [fits_line, hfits, hprint, lineBreak_broken page levels htrailing]

/-- A block without a body. -/
theorem print_blockBody_empty (page : Page) (levels : Nat) (after : Int → Bool) (o : Output) :
    printThen page levels .broken
        (blockBody keyword (.soft, .empty, .soft) start stop).propagate after o =
      printThen page levels .broken stop.propagate after
        ((printThen page levels .broken start.propagate atBreak o).newline page levels true) := by
  rw [same_blockBody.print, bodyDoc, if_pos (by rfl)]
  show printThen page levels .broken stop.propagate after (Output.newline page levels true
    (printThen page levels .broken start.propagate
      (fitsThen .broken (.line .soft) (fitsThen .broken stop.propagate after)) o)) = _
  rw [fits_line]

/-- **Whether a block fits** in broken mode depends on its opening action. -/
theorem fits_blockBody (after : Int → Bool) : fitsThen .broken
    (blockBody keyword (leading, body, trailing) start stop).propagate after =
      fitsThen .broken start.propagate atBreak := by
  rw [same_blockBody.fits]
  show fitsThen .broken start.propagate (fitsThen .broken (bodyDoc keyword leading body).propagate
    (fitsThen .broken (.line trailing) (fitsThen .broken stop.propagate after))) = _
  rw [fits_line]
  congr 1
  cases hbody : body.isEmpty with
  | true =>
    rw [bodyDoc, if_pos hbody]
    rfl
  | false =>
    rw [(same_bodyDoc hbody).fits]
    split <;> exact fits_line leading (fitsAllThen .broken [body.propagate] atBreak)

/-! ## On one line -/

theorem forcesBreak_bodyDoc (hleading : leading.isForced = false)
    (hbody : body.isEmpty = true → body.forcesBreak = false) :
    (bodyDoc keyword leading body).forcesBreak = body.forcesBreak := by
  have hinner : (Doc.join [.line leading, body]).forcesBreak = body.forcesBreak := by
    rw [forcesBreak_join (by
      rintro d hd hempty
      simp only [List.mem_cons, List.not_mem_nil, or_false] at hd
      obtain rfl | rfl := hd
      exacts [absurd hempty (by simp [isEmpty]), hbody hempty])]
    simp [forcesBreak, hleading]
  rw [bodyDoc]
  split
  · rename_i hempty
    exact (hbody hempty).symm
  · rename_i hshown
    split
    · exact hinner
    · rw [nest, if_neg, forcesBreak, hinner]
      rw [isEmpty_iff_items, items_join]
      simp

/-- What forces a break in a block. -/
theorem forcesBreak_blockBody (hleading : leading.isForced = false)
    (htrailing : trailing.isForced = false)
    (hbody : body.isEmpty = true → body.forcesBreak = false)
    (hstart : start.isEmpty = false) (hstop : stop.isEmpty = true → stop.forcesBreak = false) :
    (blockBody keyword (leading, body, trailing) start stop).forcesBreak =
      (start.forcesBreak || (body.forcesBreak || stop.forcesBreak)) := by
  have hbodyDoc : (bodyDoc keyword leading body).forcesBreak = body.forcesBreak :=
    forcesBreak_bodyDoc hleading hbody
  rw [blockBody_eq, forcesBreak_join]
  · simp [hbodyDoc, forcesBreak, htrailing]
  · intro d hd hempty
    simp only [List.mem_cons, List.not_mem_nil, or_false] at hd
    obtain rfl | rfl | rfl | rfl := hd
    · exact absurd hempty (by simp [hstart])
    · rw [hbodyDoc]
      refine hbody ?_
      by_contra hshown
      rw [isEmpty_iff_items, bodyDoc, if_neg hshown] at hempty
      split at hempty <;> simp at hempty
    · exact absurd hempty (by simp [isEmpty])
    · exact hstop hempty

/-- **A block on one line.** -/
theorem flat_blockBody : (blockBody keyword (leading, body, trailing) start stop).flat =
    start.flat ++ ((if body.isEmpty then [] else (Doc.line leading).flat ++ body.flat) ++
      ((Doc.line trailing).flat ++ stop.flat)) := by
  have hbodyDoc : (bodyDoc keyword leading body).flat =
      if body.isEmpty then [] else (Doc.line leading).flat ++ body.flat := by
    rw [bodyDoc]
    split
    · exact flat_empty
    · split <;> simp
  rw [blockBody_eq, flat_join]
  simp [hbodyDoc]

end Printer

/-! ## Both ends of a document -/

/-- The document starts with a text. -/
def Doc.StartsText (d : Doc) : Prop := ∃ t, d.items.head? = some (.text t)

/-- The document ends with a text. -/
def Doc.EndsText (d : Doc) : Prop := ∃ t, d.items.getLast? = some (.text t)

theorem Doc.StartsText.items_ne_nil {d : Doc} (h : d.StartsText) : d.items ≠ [] := by
  obtain ⟨t, ht⟩ := h
  rintro hnil
  rw [hnil] at ht
  exact absurd ht (by simp)

theorem Doc.StartsText.isEmpty {d : Doc} (h : d.StartsText) : d.isEmpty = false :=
  Bool.eq_false_iff.mpr fun hempty => h.items_ne_nil ((isEmpty_iff_items d).mp hempty)

theorem Doc.EndsText.items_ne_nil {d : Doc} (h : d.EndsText) : d.items ≠ [] := by
  obtain ⟨t, ht⟩ := h
  rintro hnil
  rw [hnil] at ht
  exact absurd ht (by simp)

theorem Doc.EndsText.isEmpty {d : Doc} (h : d.EndsText) : d.isEmpty = false :=
  Bool.eq_false_iff.mpr fun hempty => h.items_ne_nil ((isEmpty_iff_items d).mp hempty)

theorem Doc.startsText_join {d : Doc} (h : d.StartsText) (ds : List Doc) :
    (join (d :: ds)).StartsText := by
  obtain ⟨t, ht⟩ := h
  exact ⟨t, by rw [items_join, List.flatMap_cons, List.head?_append_of_ne_nil _
    (StartsText.items_ne_nil ⟨t, ht⟩), ht]⟩

theorem Doc.endsText_join {e : Doc} (h : e.EndsText) (ds : List Doc) :
    (join (ds ++ [e])).EndsText := by
  obtain ⟨t, ht⟩ := h
  exact ⟨t, by rw [items_join, List.flatMap_append, List.flatMap_singleton,
    List.getLast?_append_of_ne_nil _ (EndsText.items_ne_nil ⟨t, ht⟩), ht]⟩

/-- **Documents between two that start and end with texts.** -/
theorem Doc.closed_between {d e : Doc} (hd : d.StartsText) (he : e.EndsText) (ds : List Doc) :
    (join (d :: (ds ++ [e]))).Closed := by
  refine ⟨startsText_join hd _, ?_, fun es hes => ?_⟩
  · obtain ⟨t, ht⟩ := endsText_join he (d :: ds)
    rw [← List.cons_append, ht]
    simp
  · have hfilter : (d :: (ds ++ [e])).filter (fun d => !d.isEmpty) =
        d :: (ds.filter (fun d => !d.isEmpty) ++ [e]) := by
      rw [List.filter_cons_of_pos (by simp [hd.isEmpty]), List.filter_append,
        List.filter_cons_of_pos (by simp [he.isEmpty]), List.filter_nil]
    obtain ⟨m, ms, hms⟩ := List.exists_cons_of_ne_nil
      (List.append_ne_nil_of_right_ne_nil (ds.filter fun d => !d.isEmpty) (List.cons_ne_nil e []))
    rw [join, hfilter, hms] at hes
    rw [← concat.inj hes, ← hms, ← hfilter]
    intro f hf
    simpa using (List.mem_filter.mp hf).2

theorem Doc.ends_ofText {t : Text} (h : t ≠ []) :
    (ofText t).StartsText ∧ (ofText t).EndsText := by
  have htext : (ofText t).items = [.text t] := by
    rw [ofText, if_neg (by simpa using h), items_text h]
  exact ⟨⟨t, by rw [htext]; rfl⟩, ⟨t, by rw [htext]; rfl⟩⟩

/-- Braces stand at both ends of a printed action. -/
theorem Action.ends_doc (a : Action) (spacing : Bool) :
    (a.doc spacing).StartsText ∧ (a.doc spacing).EndsText ∧ (a.doc spacing).Closed := by
  have hstart := (ends_ofText (t := openBraces) (by decide)).1
  have hend := (ends_ofText (t := closeBraces) (by decide)).2
  exact ⟨startsText_join hstart _, endsText_join hend [_, _, _, _],
    closed_between hstart hend [_, _, _]⟩

/-! ## Nodes -/

namespace Node

/-- The document of a block without its group. -/
def inside (spacing : Bool) (stem : Text) (info : Info) (frame : Frame) (children : List Node) :
    Doc :=
  Printer.blockBody frame.keyword (Printer.bodyParts stem (.ofBlock info frame children)
    (inPlaceAll closeBraces frame.tail openBraces children (sheetAll spacing stem children)))
    (frame.start.sheet spacing) (frame.stopSheet spacing)

variable {spacing : Bool} {stem : Text} {info : Info} {frame : Frame}
    {children branches : List Node}

theorem sheet_block (info : Info) (frame : Frame) (children : List Node) :
    (block info frame children).sheet spacing stem =
      if frame.branch then inside spacing stem info frame children
      else .group (inside spacing stem info frame children)
        (endsWithNewLine (frame.content children)) := by
  rw [sheet]
  rfl

theorem sheet_chain (info : Info) (branches : List Node) :
    (chain info branches).sheet spacing stem =
    .group (.join (branches.map (sheet spacing stem))) (Printer.chainBreaks branches) := by
  rw [sheet, sheetAll_eq_map]

/-- The node is printed between braces of its own: a block or a chain that is closed, or an action.
-/
def Entire : Node → Prop
  | .action _ _ _ => True
  | .raw _ _ => False
  | .block _ frame _ => frame.stop.isSome = true ∧ frame.branch = false
  | .chain _ branches => IsChain branches

theorem startsText_inside (spacing : Bool) (stem : Text) (info : Info) (frame : Frame)
    (children : List Node) : (inside spacing stem info frame children).StartsText := by
  obtain ⟨t, ht⟩ := (frame.start.action.ends_doc spacing).1
  rw [inside, Printer.blockBody]
  exact startsText_join ⟨t, by rw [Leaf.sheet, items_group, ht]⟩ _

theorem endsText_inside (spacing : Bool) (stem : Text) (info : Info) {frame : Frame}
    (h : frame.stop.isSome = true) (children : List Node) :
    (inside spacing stem info frame children).EndsText := by
  obtain ⟨l, hl⟩ := Option.isSome_iff_exists.mp h
  obtain ⟨t, ht⟩ := (l.action.ends_doc spacing).2.1
  rw [inside, Printer.blockBody, Frame.stopSheet, hl]
  exact endsText_join (e := l.sheet spacing) ⟨t, by rw [Leaf.sheet, items_group, ht]⟩ [_, _, _]

/-- A branch starts with a text, and the last one ends with a text. -/
theorem IsBranch.ends {first last : Bool} {n : Node} (h : n.IsBranch first last) :
    (n.sheet spacing stem).StartsText ∧ (last = true → (n.sheet spacing stem).EndsText) := by
  cases n with
  | block info frame children =>
    obtain ⟨hbranch, -, hstop⟩ := h
    rw [sheet_block, if_pos hbranch]
    exact ⟨startsText_inside .., fun hlast => endsText_inside _ _ _ (hstop.trans hlast) _⟩
  | _ => exact h.elim

/-- **The document of a node** starts and ends with texts. -/
theorem closed_sheet (spacing : Bool) (stem : Text) {n : Node} (h : n.Entire) :
    (n.sheet spacing stem).Closed := by
  have hgroup {d : Doc} (broken : Bool) (hs : d.StartsText) (he : d.EndsText) :
      (Doc.group d broken).Closed := by
    obtain ⟨t, ht⟩ := he
    refine ⟨?_, ?_, fun ds hds => absurd hds (by simp)⟩
    · rw [items_group]
      exact hs
    · rw [items_group, ht]
      simp
  cases n with
  | action info t act =>
    rw [sheet]
    exact (act.ends_doc spacing).2.2
  | raw info t => exact h.elim
  | block info frame children =>
    rw [sheet_block, if_neg (Bool.eq_false_iff.mp h.2)]
    exact hgroup _ (startsText_inside ..) (endsText_inside _ _ _ h.1 _)
  | chain info branches =>
    obtain ⟨first, mid, last, rfl, hfirst, -, hlast⟩ := h
    rw [sheet_chain, List.map_cons, List.map_append, List.map_singleton]
    exact hgroup _ (startsText_join hfirst.ends.1 _)
      (endsText_join (hlast.ends.2 rfl) (first.sheet spacing stem :: mid.map (sheet spacing stem)))

theorem shown_sheet (spacing : Bool) (stem : Text) {n : Node} (h : n.Entire) :
    n.Shown (n.sheet spacing stem) := by
  have hempty := (closed_sheet spacing stem h).isEmpty
  cases n with
  | action info t act =>
    refine ⟨hempty, ?_⟩
    rw [sheet]
    exact act.rigid_doc spacing
  | raw info t => exact h.elim
  | block info frame children => exact ⟨hempty, h.2⟩
  | chain info branches => exact hempty

/-- The document of a node in its place. -/
theorem closed_inPlace {d : Doc} (h : d.Closed) (n : Node) (before after : Text) :
    (n.inPlace before after d).Closed := by
  have hshown : d.isEmpty = false := h.isEmpty
  obtain ⟨t, ht⟩ := h.head
  have hkept : (Doc.join [d, keptBlankLine after]).Closed := by
    rw [keptBlankLine]
    split
    · rw [join_of_shown (by simp [hshown, softline, isEmpty]) (by simp)]
      refine ⟨⟨t, ?_⟩, ?_, fun es hes => ?_⟩
      · rw [items_concat, List.flatMap_cons, List.head?_append_of_ne_nil _ h.items_ne_nil, ht]
      · simp [softline]
      · rw [← concat.inj hes]
        simp [hshown, softline, isEmpty]
    · rwa [show Doc.join [d, .empty] = d by simp [join, hshown, isEmpty]]
  cases n with
  | action info t act =>
    exact ⟨by rw [inPlace, items_group]; exact hkept.head,
      by rw [inPlace, items_group]; exact hkept.last, fun ds hds => absurd hds (by simp [inPlace])⟩
  | raw info t => exact hkept
  | chain info branches => exact hkept
  | block info frame children =>
    rw [inPlace]
    split
    · exact h
    · exact hkept

theorem getD_sheets {before tail after : Text} {ns : List Node} {i : Nat} {n : Node}
    (hn : ns[i]? = some n) :
    (inPlaceAll before tail after ns (sheetAll spacing stem ns)).getD i .empty =
      n.inPlace (beforeAt before ns i) (afterAt tail after ns i) (n.sheet spacing stem) :=
  getD_inPlaceAll hn (by rw [sheetAll_eq_map, List.getElem?_map, hn]; rfl)

/-- The documents of siblings in their places. -/
theorem closed_sheets (spacing : Bool) (stem : Text) {ns : List Node} (h : ∀ n ∈ ns, n.Entire)
    (before tail after : Text) {i : Nat} (hi : i < ns.length) :
    ((inPlaceAll before tail after ns (sheetAll spacing stem ns)).getD i .empty).Closed := by
  rw [getD_sheets (List.getElem?_eq_getElem hi)]
  exact closed_inPlace (closed_sheet spacing stem (h _ (List.getElem_mem hi))) _ _ _

end Node

end TemplateFormat
