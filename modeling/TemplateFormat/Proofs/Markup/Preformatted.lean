import TemplateFormat.Proofs.Markup.Indentation
import TemplateFormat.Proofs.Markup.LineStructure

/-!
# The layout of a preformatted element

Between its opening and its closing tag, each on a line of its own, a preformatted element has lines
without tags. The first line opens the element, each line in it is kept behind a literal break, and
the line of the closing tag is kept as well. `Layout.inside` is the layout between two lines of the
element.

Results:
* `Layout.addLine_inside`, `Layout.addLines_inside`: the lines of the element.
* `Html.items_preformatted`: what is laid out for a whole element.
-/

namespace TemplateFormat

namespace Markup

/-- The name of the element. -/
def preName : Name := ⟨"pre".toList, by decide, List.all_eq_true.mp (by decide)⟩

/-- The lines of an element with the lines `ls` in it, and the empty line behind its last line feed.
-/
def preLines (ls : List Text) : List Text :=
  tagText false preName.text [] :: (ls ++ [tagText true preName.text [], []])

namespace Layout

/-- The layout before the lines `ls`, at byte `offset`, in a preformatted element. -/
def inside (parts : List Doc) (offset : Nat) (ls : List Text) : Layout :=
  { before parts 1 offset ls with preformatted := some preName.text }

/-- A line that is kept. -/
def keptLine (parts : List Doc) (line : Text) : List Doc :=
  .ofText (Text.trimEnd line) :: .line .literal :: parts

/-- **A line of the element** without a tag is kept. -/
theorem addLine_inside {line : Text} (hline : '<' ∉ line) (parts : List Doc) (offset : Nat)
    (ls : List Text) : (inside parts offset (line :: ls)).addLine line line =
      inside (keptLine parts line) (offset + Text.bytes line + 1) ls := by
  have htags : tagsFrom offset (Text.unlines (line :: ls)) =
      [] ++ tagsFrom (offset + Text.bytes line) (ls.flatMap ('\n' :: ·)) := by
    rw [Text.unlines_cons_eq, tagsFrom_append hline]
    rfl
  obtain ⟨hhere, hrest⟩ := span_line htags (by simp)
  unfold addLine inside before
  simp only [hhere, hrest]
  rfl

theorem addLines_cons (s : Layout) (l : Text) (ls : List Text) :
    s.addLines (l :: ls) = (s.addLine l l).addLines ls := rfl

theorem addLines_append (s : Layout) (ls ms : List Text) :
    s.addLines (ls ++ ms) = (s.addLines ls).addLines ms := List.foldl_append

/-- The lines of the element, by induction on them. -/
theorem addLines_inside {ls : List Text} (hls : ∀ l ∈ ls, '<' ∉ l) (parts : List Doc)
    (offset : Nat) (last : List Text) : ∃ offset',
      (inside parts offset (ls ++ last)).addLines ls =
        inside (ls.foldl keptLine parts) offset' last := by
  induction ls generalizing parts offset with
  | nil => exact ⟨offset, rfl⟩
  | cons l ls ih =>
    obtain ⟨offset', hrest⟩ := ih (fun m hm => hls m (List.mem_cons_of_mem l hm)) (keptLine parts l)
      (offset + Text.bytes l + 1)
    refine ⟨offset', ?_⟩
    rw [addLines_cons, List.cons_append, addLine_inside (hls l List.mem_cons_self)]
    exact hrest

/-- The first line opens the element. -/
theorem addLine_preOpening (ls : List Text) :
    (before [] 0 0 (tagText false preName.text [] :: ls)).addLine (tagText false preName.text [])
        (tagText false preName.text []) =
      inside [.ofText (tagText false preName.text [])] 6 ls := by
  have htags : tagsFrom 0 (Text.unlines (tagText false preName.text [] :: ls)) =
      [⟨0, 5, preName.text, false, true⟩] ++ tagsFrom 5 (ls.flatMap ('\n' :: ·)) := by
    rw [Text.unlines_cons_eq, tagsFrom_tagText false preName .nil]
    rfl
  obtain ⟨hhere, hrest⟩ := span_line htags (by simp)
  have hbytes : Text.bytes (tagText false preName.text []) = 5 := by decide
  unfold addLine before
  simp only [hbytes, hhere, hrest]
  rfl

/-- The line of the closing tag is kept, and closes the element. -/
theorem addLine_preClosing (parts : List Doc) (offset : Nat) (ls : List Text) :
    (inside parts offset (tagText true preName.text [] :: ls)).addLine
        (tagText true preName.text []) (tagText true preName.text []) =
      before (keptLine parts (tagText true preName.text [])) 0 (offset + 7) ls := by
  have htags : tagsFrom offset (Text.unlines (tagText true preName.text [] :: ls)) =
      [⟨offset, offset + 6, preName.text, true, false⟩] ++
        tagsFrom (offset + 6) (ls.flatMap ('\n' :: ·)) := by
    rw [Text.unlines_cons_eq, tagsFrom_tagText true preName .nil]
    rfl
  obtain ⟨hhere, hrest⟩ := span_line htags (by simp)
  have hbytes : Text.bytes (tagText true preName.text []) = 6 := by decide
  unfold addLine inside before
  simp only [hbytes, hhere, hrest]
  rfl

end Layout

namespace Html

open Layout

/-- Nothing in the element is written over. -/
theorem calm_preLines {ls : List Text} (hls : ∀ l ∈ ls, '<' ∉ l) :
    Calm (Text.unlines (preLines ls)) := by
  have hbody : '<' ∉ ls.flatMap ('\n' :: ·) := by
    rw [List.mem_flatMap]
    rintro ⟨l, hl, hmem⟩
    exact hls l hl ((List.mem_cons.mp hmem).resolve_left (by decide))
  have htail : Calm ('\n' :: (tagText true preName.text [] ++ ['\n'])) :=
    calm_append (s := ['\n']) (by decide)
      (calm_tagText true preName (by decide) .nil (by decide) (calm_append (s := ['\n'])
        (by decide) trivial))
  have htext : Text.unlines (preLines ls) = tagText false preName.text [] ++
      (ls.flatMap ('\n' :: ·) ++ '\n' :: (tagText true preName.text [] ++ ['\n'])) := by
    rw [preLines, Text.unlines_cons_eq, List.flatMap_append]
    rfl
  rw [htext]
  exact calm_tagText false preName (by decide) .nil (by decide) (calm_append hbody htail)

theorem reverse_foldl_keptLine (ls : List Text) (parts : List Doc) :
    (ls.foldl keptLine parts).reverse =
      parts.reverse ++ ls.flatMap fun l => [.line .literal, .ofText (Text.trimEnd l)] := by
  induction ls generalizing parts with
  | nil => simp
  | cons l ls ih =>
    rw [List.foldl_cons, ih, keptLine, List.flatMap_cons]
    simp

/-- The items of a line that is kept. -/
def keptItems (line : Text) : List Item :=
  .line .literal :: (Doc.ofText (Text.trimEnd line)).items

/-- **What is laid out for a preformatted element.** -/
theorem items_formatLines_preLines {ls : List Text} (hls : ∀ l ∈ ls, '<' ∉ l ∧ '\n' ∉ l) :
    (formatLines (Text.unlines (preLines ls))).items =
      .text (tagText false preName.text []) ::
        (ls ++ [tagText true preName.text []]).flatMap keptItems ++ [.line .hard] := by
  have htagless := fun l hl => (hls l hl).1
  have hlines : Text.lines (Text.unlines (preLines ls)) = preLines ls := by
    refine Text.lines_unlines (by simp [preLines]) fun l hl => ?_
    rw [preLines, List.mem_cons, List.mem_append] at hl
    rcases hl with rfl | hl | hl
    · decide
    · exact (hls l hl).2
    · revert l
      decide
  obtain ⟨offset, hinside⟩ := addLines_inside htagless [.ofText (tagText false preName.text [])] 6
    [tagText true preName.text [], []]
  have hstart : ({ tags := tags (Text.unlines (preLines ls)) } : Layout) =
      before [] 0 0 (preLines ls) := rfl
  have hparts : ((before [] 0 0 (preLines ls)).addLines (preLines ls)).parts =
      (ls ++ [tagText true preName.text []]).foldl keptLine
        [.ofText (tagText false preName.text [])] := by
    rw [preLines, addLines_cons, addLine_preOpening, addLines_append, hinside, addLines_cons,
      addLine_preClosing, List.foldl_append]
    rfl
  unfold formatLines
  simp only [mask_eq_self (calm_preLines htagless), foldl_zip_self, hlines, hstart, hparts]
  rw [Doc.items_join, List.reverse_cons, reverse_foldl_keptLine, List.flatMap_append,
    List.flatMap_append, List.flatMap_assoc, List.reverse_singleton, List.flatMap_singleton,
    List.flatMap_singleton, Doc.items_ofText, Doc.items_text (tagText_ne_nil _ _ _)]
  have hitems : (fun l => [Doc.line .literal, .ofText (Text.trimEnd l)].flatMap Doc.items) =
      keptItems := by
    funext l
    rw [List.flatMap_cons, List.flatMap_singleton, Doc.items_line]
    rfl
  rw [hitems]
  rfl

theorem keptItems_of_endsCut {l m : Text} (h : Text.EndsCut l m) : keptItems l = keptItems m := by
  obtain ⟨b, hb, rfl⟩ := h
  rw [keptItems, keptItems, Text.trimEnd_append_isBlank hb]

/-- A line without white space at its end has lost none. -/
theorem eq_of_endsCut {l m : Text} (h : Text.EndsCut l m)
    (hlast : m.getLast?.any isBlank = false) : l = m := by
  obtain ⟨b, hb, rfl⟩ := h
  rcases List.eq_nil_or_concat b with rfl | ⟨b, c, rfl⟩
  · exact (List.append_nil l).symm
  · rw [List.concat_eq_append, Text.isBlank_append, Bool.and_eq_true] at hb
    have hc : isBlank c = false := by simpa using hlast
    rw [Text.isBlank_cons, hc] at hb
    exact absurd hb.2 (by decide)

/-- The lines of the element with other line ends. -/
theorem exists_preLines {ls ns : List Text} (h : List.Forall₂ Text.EndsCut ns (preLines ls)) :
    ∃ ms, ns = preLines ms ∧ List.Forall₂ Text.EndsCut ms ls := by
  obtain ⟨first, ns, hfirst, hns, rfl⟩ := List.forall₂_cons_right_iff.mp h
  obtain ⟨closing, rest, hclosing, hrest, hdrop⟩ :=
    List.forall₂_cons_right_iff.mp (List.forall₂_drop_append ns ls _ hns)
  obtain ⟨last, none, hlast, hnone, rfl⟩ := List.forall₂_cons_right_iff.mp hrest
  obtain rfl := List.forall₂_nil_right_iff.mp hnone
  refine ⟨ns.take ls.length, ?_, List.forall₂_take_append ns ls _ hns⟩
  conv_lhs => rw [← List.take_append_drop ls.length ns, hdrop]
  rw [eq_of_endsCut hfirst (by decide), eq_of_endsCut hclosing (by decide),
    eq_of_endsCut hlast rfl]
  rfl

/-- Lines with other line ends are kept alike, and have no tags if these have none. -/
theorem keptItems_congr {ls ms : List Text} (h : List.Forall₂ Text.EndsCut ms ls)
    (hls : ∀ l ∈ ls, '<' ∉ l) :
    ms.flatMap keptItems = ls.flatMap keptItems ∧ ∀ m ∈ ms, '<' ∉ m := by
  induction h with
  | nil => exact ⟨rfl, by simp⟩
  | @cons m l ms ls hm _ ih =>
    obtain ⟨hkept, htagless⟩ := ih fun k hk => hls k (List.mem_cons_of_mem l hk)
    refine ⟨by rw [List.flatMap_cons, List.flatMap_cons, keptItems_of_endsCut hm, hkept], ?_⟩
    obtain ⟨b, -, rfl⟩ := hm
    exact List.forall_mem_cons.mpr
      ⟨fun hmem => hls _ List.mem_cons_self (List.mem_append_left b hmem), htagless⟩

/-- **What is spliced for a preformatted element.** -/
theorem items_preformatted {t : Text} {ls : List Text} (hls : ∀ l ∈ ls, '<' ∉ l)
    (ht : Text.lines t = preLines ls) :
    (format false t).stripHardline.mergeText.items = .text (tagText false preName.text []) ::
      (ls ++ [tagText true preName.text []]).flatMap keptItems := by
  obtain ⟨ms, hlines, hcut⟩ := exists_preLines (ht ▸ Text.lines_replace_crlf t)
  obtain ⟨hkept, htagless⟩ := keptItems_congr hcut hls
  have hms : ∀ m ∈ ms, '<' ∉ m ∧ '\n' ∉ m := by
    intro m hm
    have hline : m ∈ Text.lines (Text.replace ['\r', '\n'] ['\n'] t) := by
      rw [hlines]
      exact List.mem_cons_of_mem _ (List.mem_append_left _ hm)
    exact ⟨htagless m hm, Text.not_mem_line hline⟩
  have hitems := items_formatLines_preLines hms
  have hembedded : false = true → '\n' ∈ Text.replace ['\r', '\n'] ['\n'] t := by simp
  rw [← hlines, Text.unlines_lines, ← format_eq_formatLines hembedded] at hitems
  obtain ⟨is, his, hlays⟩ := lays_format false t
  have hsame := List.append_cancel_right (his.symm.trans hitems)
  have hstrip : (format false t).stripHardline.items = is := by
    rw [Doc.items_stripHardline, his, dropForced_concat is rfl]
  rw [Doc.items_mergeText _ (hstrip ▸ hlays.apart), hstrip, hsame, List.flatMap_append, hkept,
    ← List.flatMap_append]

end Html

end Markup

end TemplateFormat
