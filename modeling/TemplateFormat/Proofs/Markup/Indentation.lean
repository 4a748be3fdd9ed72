import TemplateFormat.Proofs.Markup.Layout
import TemplateFormat.Proofs.Markup.Levels
import TemplateFormat.Proofs.Markup.Rows
import TemplateFormat.Proofs.Span

/-!
# The canonical layout of an element tree

The formatter lays out the lines of a forest one by one. Before each line it holds the number of
open elements and the tags that are still to come (`Layout.before`), and one line leaves such a
layout behind (`addLine_row`): the line itself is put at the level that is counted for it, without
the white space around it. By induction on the lines, the layout holds the lines at the levels of
`walk`, which are the depths in the tree (`walk_rows`).

Results:
* `Layout.addLine_row`: one line of a forest.
* `Layout.addLines_rows`, `Layout.parts_addLines`: all lines of a forest.
* `Html.format_forest`: the canonical layout of a forest.
-/

namespace TemplateFormat

namespace Markup

/-- The lines hold the rows, with white space around them. -/
abbrev Hold (rs : List Row) (ls : List Text) : Prop :=
  List.Forall₂ (fun r line => Text.trim line = r.body) rs ls

/-! ## One line -/

theorem Row.start_of_mem_tags {r : Row} {offset : Nat} {tag : Tag} (h : tag ∈ r.tags offset) :
    tag.start = offset ∧ tag.stop = offset + Text.bytes r.body := by
  cases r with
  | text line => exact absurd h (by simp [tags])
  | void tag => rw [List.mem_singleton.mp h]; exact ⟨rfl, rfl⟩
  | opening name => rw [List.mem_singleton.mp h]; exact ⟨rfl, rfl⟩
  | closing name => rw [List.mem_singleton.mp h]; exact ⟨rfl, rfl⟩

/-- What the tags of a line do is what is counted for a row. -/
structure LineTags.Counts (s : LineTags) (r : Row) (depth : Nat) : Prop where
  level : depth - s.leadingCloses = r.level depth
  next : (depth + s.delta).toNat = r.next depth
  preformatted : s.preformatted = none

theorem LineTags.counts_ofLine (r : Row) {a : Text} (ha : Text.isBlank a = true) (b : Text)
    (offset depth : Nat) :
    (ofLine (a ++ r.body ++ b) offset (r.tags (offset + Text.bytes a)) false).Counts r depth := by
  have hbetween : Text.takeBytes (offset + Text.bytes a - offset - 0)
      (Text.dropBytes 0 (a ++ r.body ++ b)) = a := by
    rw [Nat.add_sub_cancel_left, Nat.sub_zero, List.append_assoc]
    exact (congrArg _ (Text.dropBytes_append [] _)).trans (Text.takeBytes_append a _)
  cases r with
  | text line => exact ⟨rfl, rfl, rfl⟩
  | void tag => exact ⟨rfl, rfl, rfl⟩
  | opening name =>
    have hpre : preformattedElements.contains (Text.lowerAscii name.text) = false :=
      Bool.eq_false_iff.mpr fun h => name.not_preformatted (List.contains_iff_mem.mp h)
    refine ⟨rfl, rfl, ?_⟩
    simp only [ofLine, Row.tags, List.foldl_cons, List.foldl_nil, add, hpre]
    rfl
  | closing name =>
    simp only [ofLine, Row.tags, List.foldl_cons, List.foldl_nil, add, hbetween, ha]
    refine ⟨rfl, ?_, rfl⟩
    show ((depth : Int) + (0 - 1)).toNat = depth - 1
    omega

/-- The tags before an offset are those of a line that ends there. -/
theorem span_tags {ts : List Tag} {stop : Nat} (hts : ∀ tag ∈ ts, tag.start < stop) (rest : Text) :
    ((ts ++ tagsFrom stop rest).takeWhile fun tag => decide (tag.start < stop)) = ts ∧
      ((ts ++ tagsFrom stop rest).dropWhile fun tag => decide (tag.start < stop)) =
        tagsFrom stop rest := by
  have hts' : ∀ tag ∈ ts, decide (tag.start < stop) = true :=
    fun tag htag => decide_eq_true (hts tag htag)
  rw [List.takeWhile_append_of_pos hts', List.dropWhile_append_of_pos hts']
  cases hrest : tagsFrom stop rest with
  | nil => exact ⟨List.append_nil ts, rfl⟩
  | cons tag tags =>
    have hle := le_start_of_mem_tagsFrom (hrest ▸ List.mem_cons_self : tag ∈ tagsFrom stop rest)
    have hno : decide (tag.start < stop) = false := decide_eq_false (Nat.not_lt.mpr hle)
    simp [hno]

namespace Layout

/-- The layout before the lines `ls`, at byte `offset`, with no tag or preformatted element that
goes on. -/
def before (parts : List Doc) (depth offset : Nat) (ls : List Text) : Layout where
  parts := parts
  depth := depth
  tags := tagsFrom offset (Text.unlines ls)
  offset := offset

/-- The lines so far with one more line at a level. -/
def addPart (parts : List Doc) (level : Nat) (line : Text) : List Doc :=
  if parts.isEmpty then [.ofText line] else lineDoc level line :: parts

/-- A line outside of preformatted elements, if no tag goes on before it or after it. -/
theorem markupLine_of_ended {s : Layout} {here : List Tag} {stop : Nat} (hspanning : s.spanning = none)
    (hblank : s.pendingBlank = false) (hstop : ∀ tag ∈ here, tag.stop ≤ stop) (line masked : Text)
    (start : Nat) :
    s.markupLine line masked start stop here =
      { s with
        parts := addPart s.parts
          (s.depth - (LineTags.ofLine masked start here false).leadingCloses) line
        depth := (s.depth + (LineTags.ofLine masked start here false).delta).toNat
        preformatted := (LineTags.ofLine masked start here false).preformatted } := by
  unfold markupLine addPart
  simp only [hspanning, hblank, Option.filter_none, Option.isSome_none]
  cases hlast : here.getLast? with
  | none => rfl
  | some tag =>
    have hended : ¬ stop < tag.stop := Nat.not_lt.mpr (hstop tag (List.mem_of_getLast? hlast))
    simp only [if_neg hended]
    rfl

theorem tagsFrom_flatMap (offset : Nat) (ls : List Text) :
    tagsFrom offset (ls.flatMap ('\n' :: ·)) = tagsFrom (offset + 1) (Text.unlines ls) := by
  cases ls with
  | nil => simp [Text.unlines, tagsFrom]
  | cons l ls =>
    rw [List.flatMap_cons, List.cons_append, tagsFrom_cons (by decide), Text.unlines_cons_eq]
    rfl

/-- The tags of a line are those that start before its end. -/
theorem span_line {ts : List Tag} {offset stop : Nat} {line : Text} {ls : List Text}
    (htags : tagsFrom offset (Text.unlines (line :: ls)) =
      ts ++ tagsFrom stop (ls.flatMap ('\n' :: ·))) (hts : ∀ tag ∈ ts, tag.start < stop) :
    ((tagsFrom offset (Text.unlines (line :: ls))).takeWhile
        fun tag => decide (tag.start < stop)) = ts ∧
      ((tagsFrom offset (Text.unlines (line :: ls))).dropWhile
        fun tag => decide (tag.start < stop)) = tagsFrom (stop + 1) (Text.unlines ls) := by
  obtain ⟨hhere, hlater⟩ := span_tags hts (ls.flatMap ('\n' :: ·))
  rw [htags]
  exact ⟨hhere, hlater.trans (tagsFrom_flatMap stop ls)⟩

/-- **One line of a forest**: it is put at its level, and the count goes on behind it. -/
theorem addLine_row {r : Row} {line : Text} (hline : Text.trim line = r.body) (parts : List Doc)
    (depth offset : Nat) (ls : List Text) :
    (before parts depth offset (line :: ls)).addLine line line =
      before (addPart parts (r.level depth) r.body) (r.next depth)
        (offset + Text.bytes line + 1) ls := by
  obtain ⟨a, b, ha, hb, heq⟩ := Text.eq_append_trim line
  rw [hline] at heq
  have hpos : 0 < Text.bytes r.body := by
    obtain ⟨c, t, hc⟩ := List.exists_cons_of_ne_nil r.body_ne_nil
    rw [hc, Text.bytes_cons]
    exact Nat.lt_of_lt_of_le c.utf8Size_pos (Nat.le_add_right ..)
  have hbytes : Text.bytes line = Text.bytes a + Text.bytes r.body + Text.bytes b := by
    rw [heq, Text.bytes_append, Text.bytes_append]
  have htags : tagsFrom offset (Text.unlines (line :: ls)) = r.tags (offset + Text.bytes a) ++
      tagsFrom (offset + Text.bytes line) (ls.flatMap ('\n' :: ·)) := by
    rw [Text.unlines_cons_eq, heq]
    exact tagsFrom_line ha hb offset _
  have hstart : ∀ tag ∈ r.tags (offset + Text.bytes a), tag.start < offset + Text.bytes line := by
    intro tag htag
    rw [(Row.start_of_mem_tags htag).1]
    omega
  obtain ⟨hhere, hrest⟩ := span_line htags hstart
  have hcounts := LineTags.counts_ofLine r ha b offset depth
  rw [← heq] at hcounts
  have hempty : r.body.isEmpty = false := by simp [r.body_ne_nil]
  unfold addLine before
  simp only [hhere, hrest, hline, hempty]
  rw [if_neg (by decide), markupLine_of_ended rfl rfl]
  · simp only [hcounts.level, hcounts.next, hcounts.preformatted]
  · intro tag htag
    rw [(Row.start_of_mem_tags htag).2]
    omega

/-- The layout after lines on which nothing is written over. -/
def addLines (s : Layout) (ls : List Text) : Layout := ls.foldl (fun s line => s.addLine line line) s

theorem foldl_zip_self (ls : List Text) (s : Layout) :
    (ls.zip ls).foldl (fun s l => s.addLine l.1 l.2) s = s.addLines ls := by
  induction ls generalizing s with
  | nil => rfl
  | cons l ls ih => exact ih (s.addLine l l)

/-- **All lines of a forest** but the first, by induction on the lines: each stands at the level
that is counted for it. -/
theorem addLines_rows {rs : List Row} {ls : List Text}
    (h : Hold rs ls) {parts : List Doc}
    (hne : parts ≠ []) (depth offset : Nat) (last : List Text) : ∃ depth' offset',
      (before parts depth offset (ls ++ last)).addLines ls =
        before (((walk depth rs).map fun p => lineDoc p.1 p.2.body).reverse ++ parts) depth' offset'
          last := by
  induction h generalizing parts depth offset with
  | nil => exact ⟨depth, offset, rfl⟩
  | @cons r line rs ls hline _ ih =>
    have hpart : addPart parts (r.level depth) r.body = lineDoc (r.level depth) r.body :: parts :=
      if_neg (by simpa using hne)
    obtain ⟨depth', offset', hrest⟩ := ih (List.cons_ne_nil (lineDoc (r.level depth) r.body) parts)
      (r.next depth) (offset + Text.bytes line + 1)
    refine ⟨depth', offset', ?_⟩
    rw [addLines, List.foldl_cons, List.cons_append, addLine_row hline, hpart]
    rw [addLines] at hrest
    rw [hrest, walk, List.map_cons, List.reverse_cons, List.append_assoc]
    rfl

/-- The documents of all lines of a forest, if no line or a blank line follows. -/
theorem parts_addLines {r : Row} {rs : List Row} {line : Text} {ls last : List Text}
    (h : Hold (r :: rs) (line :: ls))
    (hlast : last = [] ∨ last = [[]]) :
    ((before [] 0 0 (line :: ls ++ last)).addLines (line :: ls ++ last)).parts =
      ((walk (r.next 0) rs).map fun p => lineDoc p.1 p.2.body).reverse ++ [.ofText r.body] := by
  obtain ⟨hfirst, hrest⟩ := List.forall₂_cons.mp h
  obtain ⟨depth, offset, hlayout⟩ := addLines_rows hrest (List.cons_ne_nil (.ofText r.body) [])
    (r.next 0) (0 + Text.bytes line + 1) last
  rw [addLines] at hlayout ⊢
  rw [List.cons_append, List.foldl_cons, addLine_row hfirst, List.foldl_append]
  show (List.foldl _ (List.foldl _ (before [.ofText r.body] _ _ _) ls) last).parts = _
  rw [hlayout]
  rcases hlast with rfl | rfl <;> rfl

end Layout

/-! ## The lines of a forest -/

/-- The line holds the text, with spaces and tabs around it. -/
def Padded (t line : Text) : Prop :=
  ∃ a b : Text, (∀ c ∈ a, isSpace c = true) ∧ (∀ c ∈ b, isSpace c = true) ∧ line = a ++ t ++ b

theorem isBlank_of_spaces {t : Text} (h : ∀ c ∈ t, isSpace c = true) : Text.isBlank t = true :=
  Text.isBlank_iff.mpr fun c hc => isBlank_of_isSpace (h c hc)

theorem Padded.trim_eq {t line : Text} (h : Padded t line) : Text.trim line = Text.trim t := by
  obtain ⟨a, b, ha, hb, rfl⟩ := h
  rw [Text.trim_append_isBlank (isBlank_of_spaces hb), Text.trim_isBlank_append (isBlank_of_spaces ha)]

theorem Padded.newline_notMem {t line : Text} (h : Padded t line) (ht : '\n' ∉ t) : '\n' ∉ line := by
  obtain ⟨a, b, ha, hb, rfl⟩ := h
  rw [List.mem_append, List.mem_append, not_or, not_or]
  exact ⟨⟨fun hm => absurd (ha _ hm) (by decide), ht⟩, fun hm => absurd (hb _ hm) (by decide)⟩

theorem newline_notMem_tagText (closing : Bool) (name : Name) {inside : Text} (h : '\n' ∉ inside) :
    '\n' ∉ tagText closing name.text inside := by
  have hname : '\n' ∉ name.text := fun hm => absurd (name.letters _ hm) (by decide)
  cases closing <;> simp [tagText, hname, h]

theorem Row.newline_notMem_written (r : Row) : '\n' ∉ r.written := by
  cases r with
  | text line => exact line.oneLine
  | void tag => exact newline_notMem_tagText false tag.name tag.oneLine
  | opening name => exact newline_notMem_tagText false name.toName List.not_mem_nil
  | closing name => exact newline_notMem_tagText true name.toName List.not_mem_nil

theorem calm_flatMap {rs : List Row} {ls : List Text}
    (h : Hold rs ls) {last : List Text}
    (hlast : Calm (last.flatMap ('\n' :: ·))) : Calm ((ls ++ last).flatMap ('\n' :: ·)) := by
  induction h with
  | nil => exact hlast
  | cons hline _ ih =>
    rw [List.cons_append, List.flatMap_cons, List.cons_append]
    exact ⟨fun hc => absurd hc (by decide), calm_line hline ih⟩

theorem calm_unlines {rs : List Row} {line : Text} {ls last : List Text}
    (h : Hold rs (line :: ls))
    (hlast : last = [] ∨ last = [[]]) : Calm (Text.unlines (line :: ls ++ last)) := by
  have hend : Calm (last.flatMap ('\n' :: ·)) := by
    rcases hlast with rfl | rfl
    · trivial
    · exact ⟨fun hc => absurd hc (by decide), trivial⟩
  rw [List.cons_append, Text.unlines_cons_eq]
  exact (calm_flatMap h hend).2

/-- The layout of a forest: each line at its depth, and a line feed at its end. -/
def Forest.canonical (page : Page) (f : Forest) : Text :=
  (f.rows 0).flatMap fun p => page.indentation p.1 ++ (p.2.body ++ ['\n'])

namespace Html

open Layout

/-- The lines of a forest, in markup that has these lines: a blank line may follow. -/
theorem formatLines_rows {r : Row} {rs : List Row} {line : Text} {ls last : List Text} {markup : Text}
    (h : Hold (r :: rs) (line :: ls))
    (hlast : last = [] ∨ last = [[]]) (hlines : Text.lines markup = line :: ls ++ last) :
    formatLines markup = .join (Doc.lineDocs r.body
      ((walk (r.next 0) rs).map fun p => (p.1, p.2.body))) := by
  have hmarkup : markup = Text.unlines (line :: ls ++ last) := by rw [← hlines, Text.unlines_lines]
  have hcalm : Calm markup := hmarkup ▸ calm_unlines h hlast
  have hstart : ({ tags := tags markup } : Layout) = before [] 0 0 (line :: ls ++ last) := by
    rw [hmarkup]
    rfl
  unfold formatLines
  simp only [mask_eq_self hcalm, foldl_zip_self, hlines, hstart]
  rw [parts_addLines h hlast, Doc.lineDocs]
  simp [Function.comp_def]

/-- The lines with other line ends are those of the forest too. -/
theorem exists_lines {rs : List Row} {ls last : List Text} {t : Text}
    (h : Hold rs ls) (hlast : last = [] ∨ last = [[]])
    (hlines : Text.lines t = ls ++ last) : ∃ ms, Hold rs ms ∧
      Text.lines (Text.replace ['\r', '\n'] ['\n'] t) = ms ++ last := by
  have hcut := Text.lines_replace_crlf t
  rw [hlines] at hcut
  generalize Text.lines (Text.replace ['\r', '\n'] ['\n'] t) = ns at hcut
  clear hlines
  induction h generalizing ns with
  | nil =>
    refine ⟨[], .nil, ?_⟩
    rcases hlast with rfl | rfl
    · exact List.forall₂_nil_right_iff.mp hcut
    · obtain ⟨n, ns', ⟨b, -, hn⟩, hns, rfl⟩ := List.forall₂_cons_right_iff.mp hcut
      obtain rfl := List.forall₂_nil_right_iff.mp hns
      rw [(List.append_eq_nil_iff.mp hn.symm).1]
      rfl
  | cons hline _ ih =>
    obtain ⟨n, ns', ⟨b, hb, rfl⟩, hns, rfl⟩ := List.forall₂_cons_right_iff.mp hcut
    obtain ⟨ms, hms, rfl⟩ := ih ns' hns
    rw [Text.trim_append_isBlank hb] at hline
    exact ⟨n :: ms, .cons hline hms, rfl⟩

theorem inked_body (r : Row) : Render.Inked r.body.reverse := by
  obtain ⟨c, rest, hrest⟩ := List.exists_cons_of_ne_nil (List.reverse_ne_nil_iff.mpr r.body_ne_nil)
  refine ⟨c, rest, hrest, (Text.trimmed_trim r.written).last c ?_⟩
  show c ∈ r.body.getLast?
  rw [← List.head?_reverse, hrest]
  rfl

/-- A line feed at the end of each line, or before each further line and at the end. -/
theorem flatMap_concat (page : Page) (ps : List (Nat × Text)) :
    (ps.flatMap fun p => '\n' :: (page.indentation p.1 ++ p.2)) ++ ['\n'] =
      '\n' :: ps.flatMap fun p => page.indentation p.1 ++ (p.2 ++ ['\n']) := by
  induction ps with
  | nil => rfl
  | cons p ps ih =>
    rw [List.flatMap_cons, List.append_assoc, ih, List.flatMap_cons]
    simp only [List.cons_append, List.append_assoc, List.nil_append]

theorem newline_notMem_of_padded {ps : List (Nat × Row)} {ls : List Text}
    (h : List.Forall₂ (fun p line => Padded p.2.written line) ps ls) : ∀ l ∈ ls, '\n' ∉ l := by
  induction h with
  | nil => exact fun l hl => absurd hl List.not_mem_nil
  | @cons p line _ _ hline _ ih =>
    intro l hl
    rcases List.mem_cons.mp hl with rfl | hl
    · exact hline.newline_notMem p.2.newline_notMem_written
    · exact ih l hl

/-- The lines of the markup: a line feed at its end is followed by a blank line. -/
theorem lines_unlines_append {ls : List Text} (hne : ls ≠ []) (h : ∀ l ∈ ls, '\n' ∉ l) {last : Text}
    (hlast : last = [] ∨ last = ['\n']) : ∃ blank : List Text,
      (blank = [] ∨ blank = [[]]) ∧ Text.lines (Text.unlines ls ++ last) = ls ++ blank := by
  rcases hlast with rfl | rfl
  · exact ⟨[], Or.inl rfl, by rw [List.append_nil, List.append_nil, Text.lines_unlines hne h]⟩
  · refine ⟨[[]], Or.inr rfl, ?_⟩
    have hblank : ∀ l ∈ ls ++ [[]], '\n' ∉ l := by
      intro l hl
      rcases List.mem_append.mp hl with hl | hl
      · exact h l hl
      · rw [List.mem_singleton.mp hl]
        exact List.not_mem_nil
    have hunlines : Text.unlines ls ++ ['\n'] = Text.unlines (ls ++ [[]]) := by
      obtain ⟨l, ls, rfl⟩ := List.exists_cons_of_ne_nil hne
      rw [List.cons_append, Text.unlines_cons_eq, Text.unlines_cons_eq, List.flatMap_append,
        List.append_assoc]
      rfl
    rw [hunlines, Text.lines_unlines (by simp) hblank]

/-- The lines that the formatter goes through hold the rows of the forest. -/
theorem exists_hold {ps : List (Nat × Row)} (hne : ps ≠ []) {ls : List Text}
    (h : List.Forall₂ (fun p line => Padded p.2.written line) ps ls) {last : Text}
    (hlast : last = [] ∨ last = ['\n']) : ∃ ms blank : List Text,
      Hold (ps.map Prod.snd) ms ∧ (blank = [] ∨ blank = [[]]) ∧
        Text.lines (Text.replace ['\r', '\n'] ['\n'] (Text.unlines ls ++ last)) = ms ++ blank := by
  have hls : ls ≠ [] := by
    rintro rfl
    exact hne (List.forall₂_nil_right_iff.mp h)
  have hold : Hold (ps.map Prod.snd) ls :=
    List.forall₂_map_left_iff.mpr (h.imp fun p line hline => hline.trim_eq)
  obtain ⟨blank, hblank, hlines⟩ := lines_unlines_append hls (newline_notMem_of_padded h) hlast
  obtain ⟨ms, hms, hreplaced⟩ := exists_lines hold hblank hlines
  exact ⟨ms, blank, hms, hblank, hreplaced⟩

/-- **The canonical layout of a forest**: written with each text line and each tag on a line of its
own, in any indentation, it is laid out with each line at its depth. -/
theorem format_forest (page : Page) (f : Forest) (hf : f ≠ .nil) {ls : List Text}
    (hls : List.Forall₂ (fun p line => Padded p.2.written line) (f.rows 0) ls) {last : Text}
    (hlast : last = [] ∨ last = ['\n']) :
    (format false (Text.unlines ls ++ last)).render page = f.canonical page := by
  obtain ⟨ms, blank, hold, hblank, hlines⟩ := exists_hold (f.rows_ne_nil 0 hf) hls hlast
  have hwalk := walk_rows f 0
  obtain ⟨p, ps, hrows⟩ := List.exists_cons_of_ne_nil (f.rows_ne_nil 0 hf)
  rw [hrows] at hwalk hold
  obtain ⟨m, ms, hm, hms, rfl⟩ := List.forall₂_cons_left_iff.mp hold
  -- the levels that are counted are the depths in the tree
  obtain ⟨hfirst, hrest⟩ := List.cons.inj hwalk
  have hdepth : p.1 = 0 := by
    rw [← hfirst]
    cases p.2 <;> rfl
  have hformat := formatLines_rows (List.Forall₂.cons hm hms) hblank hlines
  rw [hrest] at hformat
  have hinked : ∀ q ∈ ps.map (fun p => (p.1, p.2.body)), Render.Inked q.2.reverse := by
    intro q hq
    obtain ⟨p, -, rfl⟩ := List.mem_map.mp hq
    exact inked_body p.2
  unfold format Forest.canonical
  simp only [Bool.false_and, Bool.false_eq_true, if_false]
  rw [hformat, Doc.render_lineDocs page (inked_body p.2) hinked, flatMap_concat, hrows]
  simp [hdepth, Page.indentation, List.flatMap_map]

/-- An element in an element, with text, a void tag and names in both cases. -/
def nestedForest : Forest :=
  let div : ElementName := ⟨⟨['D', 'i', 'v'], by decide, List.all_eq_true.mp (by decide)⟩,
    by decide +kernel, by decide +kernel, by decide +kernel⟩
  let p : ElementName := ⟨⟨['p'], by decide, List.all_eq_true.mp (by decide)⟩,
    by decide +kernel, by decide +kernel, by decide +kernel⟩
  let br : VoidTag := ⟨⟨['B', 'R'], by decide, List.all_eq_true.mp (by decide)⟩,
    by decide +kernel, [' ', '/'], .attributes (by decide) (.char (by decide) .nil), by decide,
    by decide⟩
  .element div
    (.text ⟨['a', ' ', '>'], by decide, by decide, by decide⟩ (.element p (.void br .nil) .nil))
    .nil

/-- Its lines, each with spaces or tabs at one of its ends or at none. -/
theorem format_forest_nested :
    let ls : List Text :=
      ["<Div>\t", "\ta >", "    <p>", "<BR />", " </p> ", "</Div>"].map String.toList
    nestedForest ≠ .nil ∧
      List.Forall₂ (fun p line => Padded p.2.written line) (nestedForest.rows 0) ls ∧
        (format false (Text.unlines ls ++ ['\n'])).render {} =
          "<Div>\n  a >\n  <p>\n    <BR />\n  </p>\n</Div>\n".toList := by
  intro ls
  have hne : nestedForest ≠ .nil := nofun
  have hls : List.Forall₂ (fun p line => Padded p.2.written line) (nestedForest.rows 0) ls :=
    .cons ⟨[], ['\t'], by simp [isSpace], by simp [isSpace], by decide +kernel⟩ <|
    .cons ⟨['\t'], [], by simp [isSpace], by simp [isSpace], by decide +kernel⟩ <|
    .cons ⟨[' ', ' ', ' ', ' '], [], by simp [isSpace], by simp [isSpace], by decide +kernel⟩ <|
    .cons ⟨[], [], by simp [isSpace], by simp [isSpace], by decide +kernel⟩ <|
    .cons ⟨[' '], [' '], by simp [isSpace], by simp [isSpace], by decide +kernel⟩ <|
    .cons ⟨[], [], by simp [isSpace], by simp [isSpace], by decide +kernel⟩ .nil
  have hcanonical : nestedForest.canonical {} =
      "<Div>\n  a >\n  <p>\n    <BR />\n  </p>\n</Div>\n".toList := by decide +kernel
  exact ⟨hne, hls, (format_forest {} nestedForest hne hls (.inr rfl)).trans hcanonical⟩

end Html

end Markup

end TemplateFormat
