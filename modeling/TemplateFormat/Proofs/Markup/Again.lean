import TemplateFormat.Proofs.Markup.LineStructure
import TemplateFormat.Proofs.Markup.Ranked
import TemplateFormat.Proofs.Print.Lines

/-!
# Laying out markup again

Without preformatted elements, what the layout makes of markup depends only on the markup's rows:
each line without the white space at its ends, with those of its characters that are not written
over and are no white space, and the ranks of the tags. A run of blank lines is as good as one, and
blank lines at both ends do not count.

The output has the same rows as the markup, up to its blank lines. So the output is laid out as it
is.

Results:
* `Layout.ranked_addAll`: the layout of the lines, in ranks.
* `Begins.parts_addRows`: the layout of the lines of the output.
* `Html.format_format`: the output is laid out as it is.
-/

namespace TemplateFormat

open Text (solid even)

namespace Markup

/-! ## The layout of the lines, in ranks -/

section Plain

variable {ts : List Tag}

theorem foldl_openBehind_of_plain (h : ∀ tag ∈ ts, tag.opensPreformatted = false) :
    ts.foldl openBehind none = none := by
  induction ts with
  | nil => rfl
  | cons tag ts ih =>
    obtain ⟨htag, hts⟩ := List.forall_mem_cons.mp h
    have hnone : openBehind none tag = none := by simp [openBehind, htag]
    rw [List.foldl_cons, hnone, ih hts]

theorem opensApart_of_plain (h : ∀ tag ∈ ts, tag.opensPreformatted = false)
    (before now : Option Text) :
    opensApart before now ts = true := by
  induction ts generalizing now with
  | nil => rfl
  | cons tag ts ih =>
    obtain ⟨htag, hts⟩ := List.forall_mem_cons.mp h
    rw [opensApart, htag, ih hts]
    rfl

end Plain

namespace Layout

variable {m : Text} {s : Layout} {l : Flagged} {ls : List Flagged}

theorem AtLines.here_subset (h : AtLines m (l :: ls) s) :
    ∀ tag ∈ s.here l.text, tag ∈ Markup.tags m :=
  fun _ htag => (h.mem_tags (List.cons_ne_nil l ls) ((List.takeWhile_prefix _).subset htag)).1

/-- Without tags that open preformatted elements, none is open on any line. -/
theorem AtLines.preformatted_addLine (h : AtLines m (l :: ls) s)
    (hplain : ∀ tag ∈ Markup.tags m, tag.opensPreformatted = false) (hpre : s.preformatted = none) :
    (s.addLine l.text l.masked).preformatted = none := by
  have hhere : ∀ tag ∈ s.here l.text, tag.opensPreformatted = false :=
    fun tag htag => hplain tag (h.here_subset tag htag)
  have hblank : Text.isBlank l.text = true → s.here l.text = [] := by
    intro hblank
    by_contra hne
    exact absurd (hblank.symm.trans (h.not_blank hne)) (by decide)
  rw [Layout.preformatted_addLine l.text l.masked (opensApart_of_plain hhere _ _) hblank, hpre,
    foldl_openBehind_of_plain hhere]

theorem AtLines.met_of_plain (h : AtLines m ls s)
    (hplain : ∀ tag ∈ Markup.tags m, tag.opensPreformatted = false) (hpre : s.preformatted = none) :
    ∀ l ∈ s.met ls, l.1 = false := by
  induction ls generalizing s with
  | nil => simp [met]
  | cons l ls ih =>
    rw [met, hpre]
    exact List.forall_mem_cons.mpr ⟨rfl, ih h.next (h.preformatted_addLine hplain hpre)⟩

theorem AtLines.spans_addLine (h : AtLines m (l :: ls) s) (hs : s.Spans m)
    (hpre : s.preformatted = none) :
    (s.addLine l.text l.masked).Spans m := by
  unfold addLine
  simp only [hpre]
  split
  · exact hs
  · refine spans_markupLine hs (fun tag htag => ?_) (Text.trim l.text) l.masked _ _
    exact at_of_mem_tags (h.here_subset tag htag)

/-- A line without the white space at its ends, and its characters that are not written over and are
no white space. -/
def row (l : Flagged) : Text × Text := (Text.trim l.text, solid l.masked)

/-- The layout of rows. -/
def addRows (s : Layout) (rows : List (Text × Text)) : Layout :=
  rows.foldl (fun s r => s.addRow r.1 r.2) s

/-- **The layout of the lines, in ranks**, by induction on the lines. -/
theorem ranked_addAll (h : AtLines m ls s) (hs : s.Spans m)
    (hplain : ∀ tag ∈ Markup.tags m, tag.opensPreformatted = false) (hpre : s.preformatted = none) :
    (s.addAll ls).ranked m = (s.ranked m).addRows (ls.map row) := by
  induction ls generalizing s with
  | nil => rfl
  | cons l ls ih =>
    have hrest := ih h.next (h.spans_addLine hs hpre) (h.preformatted_addLine hplain hpre)
    rw [h.ranked_addLine hs hpre] at hrest
    exact hrest

end Layout

/-! ## The rows of lines -/

namespace Flagged

theorem length_solid (f : Flagged) : f.solid.length = (Text.solid f.text).length := by
  induction f with
  | nil => rfl
  | cons p f ih =>
    have htext : text (p :: f) = p.1 :: text f := rfl
    rw [htext]
    cases hp : isBlank p.1 with
    | true =>
      have hcons : solid (p :: f) = solid f := by simp [solid, hp]
      rw [hcons, ih, Text.solid_cons_of_blank hp]
    | false =>
      have hcons : solid (p :: f) = p :: solid f := by simp [solid, hp]
      rw [hcons, List.length_cons, ih, Text.solid_cons_of_not_blank hp, List.length_cons]

/-- What is not written over does not depend on white space. -/
theorem solid_masked_solid (f : Flagged) : Text.solid (masked f.solid) = Text.solid (masked f) := by
  induction f with
  | nil => rfl
  | cons p f ih =>
    have hmasked (g : Flagged) : masked (p :: g) = maskChar p.1 p.2 ++ masked g := rfl
    cases hp : isBlank p.1 with
    | true =>
      have hcons : solid (p :: f) = solid f := by simp [solid, hp]
      rw [hcons, ih, hmasked, Text.solid_append, Text.solid_of_isBlank (isBlank_maskChar hp p.2),
        List.nil_append]
    | false =>
      have hcons : solid (p :: f) = p :: solid f := by simp [solid, hp]
      rw [hcons, hmasked, hmasked, Text.solid_append, Text.solid_append, ih]

theorem flatMap_solid_lines (f : Flagged) : f.lines.flatMap solid = f.solid := by
  induction f with
  | nil => rfl
  | cons p f ih =>
    by_cases hp : p.1 = '\n'
    · have hcons : solid (p :: f) = solid f := by
        have hblank : isBlank p.1 = true := by rw [hp]; decide
        simp [solid, hblank]
      rw [lines_newline hp, List.flatMap_cons, ih, hcons]
      rfl
    · obtain ⟨l, ls, hl⟩ := List.exists_cons_of_ne_nil (lines_ne_nil f)
      rw [hl, List.flatMap_cons] at ih
      rw [lines_cons hp hl, List.flatMap_cons]
      show solid ([p] ++ l) ++ ls.flatMap solid = solid ([p] ++ f)
      rw [solid, List.filter_append, List.append_assoc, solid, List.filter_append]
      exact congrArg (List.filter (fun p => !isBlank p.1) [p] ++ ·) ih

end Flagged

/-- The rows of lines, whose characters that are no white space have the given flags. -/
def rows : List Text → Flagged → List (Text × Text)
  | [], _ => []
  | l :: ls, f => (Text.trim l, solid (Flagged.masked (f.take (solid l).length))) ::
      rows ls (f.drop (solid l).length)

theorem map_row (ls : List Flagged) :
    ls.map Layout.row = rows (ls.map Flagged.text) (ls.flatMap Flagged.solid) := by
  induction ls with
  | nil => rfl
  | cons l ls ih =>
    rw [List.map_cons, List.map_cons, List.flatMap_cons, rows, ← l.length_solid, List.take_left,
      List.drop_left, l.solid_masked_solid, ih]
    rfl

/-- **The rows of markup** are those of its lines. -/
theorem map_row_lines (markup : Text) : (flagged markup).lines.map Layout.row =
    rows (Text.lines markup) (flagged markup).solid := by
  rw [map_row, ← Flagged.text_lines, text_flagged, Flagged.flatMap_solid_lines]

theorem rows_cons_of_blank {l : Text} (h : Text.isBlank l = true) (ls : List Text) (f : Flagged) :
    rows (l :: ls) f = ([], []) :: rows ls f := by
  rw [rows, Text.solid_of_isBlank h, Text.trim_of_isBlank h]
  rfl

theorem rows_cons_congr {l l' : Text} (h : Text.trim l = Text.trim l') (f : Flagged) :
    ∃ inked, ∀ ls, rows (l :: ls) f = (Text.trim l, inked) :: rows ls (f.drop (solid l).length) ∧
      rows (l' :: ls) f = (Text.trim l, inked) :: rows ls (f.drop (solid l).length) := by
  have hsolid : solid l = solid l' := by rw [← Text.solid_trim l, h, Text.solid_trim]
  exact ⟨_, fun ls => ⟨rfl, by rw [rows, ← h, ← hsolid]⟩⟩

namespace Layout

/-! ## Blank lines -/

/-- The tags that are left are those that start on later lines. -/
def Settled (s : Layout) : Prop := (s.tags.dropWhile fun tag => tag.start < s.offset) = s.tags

variable {s : Layout}

/-- A blank line is only remembered. -/
theorem addRow_blank (h : s.Settled) :
    s.addRow [] [] = { s with pendingBlank := !s.parts.isEmpty } := by
  have hkeep : (s.tags.dropWhile fun tag => tag.start < s.offset + Text.bytes []) = s.tags := h
  unfold addRow
  simp only [hkeep]
  rfl

theorem settled_addRow (s : Layout) (line inked : Text) : (s.addRow line inked).Settled := by
  have htags : (s.addRow line inked).tags =
      s.tags.dropWhile fun tag => tag.start < s.offset + Text.bytes inked := by
    unfold addRow
    dsimp only
    split <;> rfl
  have hoffset : (s.addRow line inked).offset = s.offset + Text.bytes inked := by
    unfold addRow
    dsimp only
    split <;> rfl
  rw [Settled, htags, hoffset, dropWhile_dropWhile_of_imp fun _ h => h]

theorem addRow_line (s : Layout) {line : Text} (hline : line ≠ []) (inked : Text) :
    (s.addRow line inked).pendingBlank = false ∧ (s.addRow line inked).parts ≠ [] := by
  unfold addRow
  simp only [List.isEmpty_iff, if_neg hline]
  refine ⟨rfl, ?_⟩
  obtain ⟨level, hlevel⟩ := parts_markupLine
    { s with
      tags := s.tags.dropWhile fun tag => tag.start < s.offset + Text.bytes inked
      offset := s.offset + Text.bytes inked }
    line inked s.offset (s.offset + Text.bytes inked)
    (s.tags.takeWhile fun tag => tag.start < s.offset + Text.bytes inked)
  intro hnil
  rw [hnil] at hlevel
  split at hlevel
  · exact absurd hlevel (by simp)
  · split at hlevel <;> exact absurd hlevel (by simp)

/-- Blank lines at the end do not count. -/
theorem parts_addRows_blank (h : s.Settled) {tail : List Text} (htail : ∀ l ∈ tail, l = [])
    (f : Flagged) : (s.addRows (rows tail f)).parts = s.parts := by
  induction tail generalizing s with
  | nil => rfl
  | cons l tail ih =>
    obtain ⟨rfl, hrest⟩ := List.forall_mem_cons.mp htail
    rw [rows_cons_of_blank rfl]
    show ((s.addRow [] []).addRows (rows tail f)).parts = _
    rw [ih (settled_addRow s [] []) hrest, addRow_blank h]

end Layout

/-! ## The lines that are put -/

section Put

variable {pending full : Bool} {ls : List (Bool × Text)} {ps : List Put} {s : Layout}

open Layout (Settled settled_addRow addRow_blank addRow_line parts_addRows_blank)

/-- The blank line before a line, if there is one, brings the state back. -/
theorem addRows_gap {gap : Bool} (hs : s.Settled) (hparts : s.parts ≠ [])
    (hpending : s.pendingBlank = gap) (page : Page) (level : Nat) (text : Text) (tail : List Text)
    (f : Flagged) : Layout.addRows { s with pendingBlank := false }
        (rows ((Put.line gap level text).lines page ++ tail) f) =
      s.addRows (rows ((page.indentation level ++ text) :: tail) f) := by
  cases gap with
  | false =>
    have hsame : { s with pendingBlank := false } = s := by rw [← hpending]
    rw [hsame]
    rfl
  | true =>
    have hsome : (!s.parts.isEmpty) = s.pendingBlank := by
      rw [hpending]
      simpa using hparts
    have hblank : Layout.addRow { s with pendingBlank := false } [] [] = s := by
      rw [addRow_blank (s := { s with pendingBlank := false }) hs]
      show { s with pendingBlank := !s.parts.isEmpty } = s
      rw [hsome]
    show Layout.addRows { s with pendingBlank := false }
      (rows ([] :: (page.indentation level ++ text) :: tail) f) = _
    rw [rows_cons_of_blank rfl]
    show ((Layout.addRow { s with pendingBlank := false } [] []).addRows _) = _
    rw [hblank]

/-- **The lines that are put are laid out like the lines they are put for**, by induction on what is
put. Blank lines that are pending behind the last line have no line in the output yet. -/
theorem Puts.parts_addRows (h : Puts pending full ls ps) (page : Page)
    (hls : ∀ l ∈ ls, l.1 = false) {tail : List Text} (htail : ∀ l ∈ tail, l = [])
    (hs : s.Settled) (hparts : s.parts ≠ []) (hpending : s.pendingBlank = pending) (f : Flagged) :
    (Layout.addRows { s with pendingBlank := false }
        (rows (ps.flatMap (Put.lines page) ++ tail) f)).parts =
      (s.addRows (rows (ls.map Prod.snd) f)).parts := by
  induction h generalizing s f with
  | nil => exact parts_addRows_blank (s := { s with pendingBlank := false }) hs htail f
  | kept raw h ih => exact absurd (hls _ List.mem_cons_self) (by simp)
  | blank hraw h ih =>
    obtain ⟨-, hls⟩ := List.forall_mem_cons.mp hls
    rw [List.map_cons, rows_cons_of_blank hraw]
    show _ = ((s.addRow [] []).addRows _).parts
    have hsome : (!s.parts.isEmpty) = true := by simpa using hparts
    rw [addRow_blank hs, hsome]
    exact ih (s := { s with pendingBlank := true }) hls hs hparts rfl f
  | @line pending level raw hraw ls ps h ih =>
    obtain ⟨-, hls⟩ := List.forall_mem_cons.mp hls
    obtain ⟨inked, hrows⟩ := rows_cons_congr (trim_put page level raw).symm f
    have hne : Text.trim raw ≠ [] := (inked_trim hraw).ne_nil
    obtain ⟨hclear, hfull⟩ := addRow_line s hne inked
    have hrest := ih hls (settled_addRow s (Text.trim raw) inked) hfull hclear
      (f.drop (solid raw).length)
    have hsame : { s.addRow (Text.trim raw) inked with pendingBlank := false } =
        s.addRow (Text.trim raw) inked := by
      rw [← hclear]
    rw [hsame] at hrest
    rw [List.flatMap_cons, List.append_assoc, addRows_gap hs hparts hpending, (hrows _).2,
      List.map_cons, (hrows _).1]
    exact hrest

/-- **The lines of the output are laid out like the lines of the markup.** -/
theorem Begins.parts_addRows {put : Option (Text × List Put)} (h : Begins ls put) (page : Page)
    (hls : ∀ l ∈ ls, l.1 = false) {tail : List Text} (htail : ∀ l ∈ tail, l = [])
    (hs : s.Settled) (hparts : s.parts = []) (hpending : s.pendingBlank = false) (f : Flagged) :
    (s.addRows (rows (putLines page put ++ tail) f)).parts =
      (s.addRows (rows (ls.map Prod.snd) f)).parts := by
  induction h with
  | nil => exact parts_addRows_blank hs htail f
  | blank hraw h ih =>
    obtain ⟨-, hls⟩ := List.forall_mem_cons.mp hls
    have hsame : s.addRow [] [] = s := by
      have hnone : (!s.parts.isEmpty) = s.pendingBlank := by rw [hparts, hpending]; rfl
      rw [addRow_blank hs, hnone]
    rw [ih hls, List.map_cons, rows_cons_of_blank hraw]
    show _ = ((s.addRow [] []).addRows _).parts
    rw [hsame]
  | @first raw hraw ls ps h =>
    obtain ⟨-, hls⟩ := List.forall_mem_cons.mp hls
    obtain ⟨inked, hrows⟩ := rows_cons_congr (trim_trim raw).symm f
    obtain ⟨hclear, hfull⟩ := addRow_line s (inked_trim hraw).ne_nil inked
    have hrest :=
      h.parts_addRows page hls htail (settled_addRow s (Text.trim raw) inked) hfull hclear
      (f.drop (solid raw).length)
    have hsame : { s.addRow (Text.trim raw) inked with pendingBlank := false } =
        s.addRow (Text.trim raw) inked := by
      rw [← hclear]
    rw [hsame] at hrest
    rw [putLines, List.cons_append, (hrows _).2, List.map_cons, (hrows _).1]
    exact hrest

/-! ## White space in the lines that are put -/

/-- Lines that differ in the white space at their ends. -/
theorem even_spaced_cons {l l' : Text} {ls ls' : List Text} (h : Text.trim l = Text.trim l')
    (hls : even (spaced ls) = even (spaced ls')) :
      even (spaced (l :: ls)) = even (spaced (l' :: ls')) := by
  have hline (l : Text) (ls : List Text) : ∃ b, Text.isBlank b = true ∧
      even (spaced (l :: ls)) = even (Text.trim l ++ (b ++ spaced ls)) := by
    obtain ⟨b, b', hb, hb', he⟩ := Text.eq_append_trim l
    refine ⟨b', hb', ?_⟩
    conv_lhs => rw [spaced_cons, Text.even_isBlank_append (b := [' ']) rfl, he]
    rw [List.append_assoc, List.append_assoc, Text.even_isBlank_append hb]
  obtain ⟨b, hb, hl⟩ := hline l ls
  obtain ⟨b', hb', hl'⟩ := hline l' ls'
  rw [hl, hl', ← h]
  refine Text.even_append _ ?_ ?_ ?_
  · exact Text.startsBlank_append (Text.startsBlank_of_isBlank hb) (startsBlank_spaced ls)
  · exact Text.startsBlank_append (Text.startsBlank_of_isBlank hb') (startsBlank_spaced ls')
  · rw [Text.even_isBlank_append hb, Text.even_isBlank_append hb', hls]

theorem even_spaced_blank {l : Text} (h : Text.isBlank l = true) (ls : List Text) :
    even (spaced (l :: ls)) = even (spaced ls) := by
  have hspace : Text.isBlank [' '] = true := by decide
  rw [spaced_cons, Text.even_isBlank_append hspace, Text.even_isBlank_append h]

theorem even_spaced_blanks {tail : List Text} (h : ∀ l ∈ tail, l = []) :
    even (spaced tail) = even [] := by
  induction tail with
  | nil => rfl
  | cons l tail ih =>
    obtain ⟨rfl, htail⟩ := List.forall_mem_cons.mp h
    rw [even_spaced_blank rfl, ih htail]

theorem Puts.even_eq (h : Puts pending full ls ps) (page : Page) {tail : List Text}
    (htail : ∀ l ∈ tail, l = []) : even (spaced (ps.flatMap (Put.lines page) ++ tail)) =
      even (spaced (ls.map Prod.snd)) := by
  induction h with
  | nil => exact even_spaced_blanks htail
  | kept raw h ih => exact even_spaced_cons (trim_trimEnd raw) ih
  | blank hraw h ih => rw [ih, List.map_cons, even_spaced_blank hraw]
  | @line pending level raw hraw ls ps h ih =>
    have hline := even_spaced_cons (trim_put page level raw) ih
    cases pending with
    | false => exact hline
    | true => exact (even_spaced_blank rfl _).trans hline

theorem Begins.even_eq {put : Option (Text × List Put)} (h : Begins ls put) (page : Page)
    {tail : List Text} (htail : ∀ l ∈ tail, l = []) :
    even (spaced (putLines page put ++ tail)) = even (spaced (ls.map Prod.snd)) := by
  induction h with
  | nil => exact even_spaced_blanks htail
  | blank hraw h ih => rw [ih, List.map_cons, even_spaced_blank hraw]
  | first hraw h => exact even_spaced_cons (trim_trim _) (h.even_eq page htail)

/-- No line that is put ends with white space. -/
theorem Puts.last_lines (h : Puts pending full ls ps) (page : Page) :
    ∀ l ∈ ps.flatMap (Put.lines page), ∀ c ∈ l.getLast?, isBlank c = false := by
  induction h with
  | nil => simp
  | kept raw h ih =>
    rw [List.flatMap_cons, List.forall_mem_append]
    exact ⟨List.forall_mem_singleton.mpr (Text.last_trimEnd raw), ih⟩
  | blank hraw h ih => exact ih
  | @line pending level raw hraw ls ps h ih =>
    rw [List.flatMap_cons, List.forall_mem_append]
    refine ⟨?_, ih⟩
    rw [Put.lines, List.forall_mem_append, List.forall_mem_singleton,
      List.getLast?_append_of_ne_nil _ (inked_trim hraw).ne_nil]
    refine ⟨?_, (Text.trimmed_trim raw).last⟩
    cases pending <;> simp

theorem Begins.last_lines {put : Option (Text × List Put)} (h : Begins ls put) (page : Page) :
    ∀ l ∈ putLines page put, ∀ c ∈ l.getLast?, isBlank c = false := by
  induction h with
  | nil => simp [putLines]
  | blank hraw h ih => exact ih
  | first hraw h =>
    exact List.forall_mem_cons.mpr ⟨(Text.trimmed_trim _).last, h.last_lines page⟩

end Put

/-- Line ends are in one form if no line ends with white space. -/
theorem replace_eq_self {t : Text} (h : ∀ l ∈ Text.lines t, ∀ c ∈ l.getLast?, isBlank c = false) :
    Text.replace ['\r', '\n'] ['\n'] t = t := by
  have hcut : ∀ {ls ms : List Text}, List.Forall₂ Text.EndsCut ls ms →
      (∀ l ∈ ms, ∀ c ∈ l.getLast?, isBlank c = false) → ls = ms := by
    intro ls ms hls hms
    induction hls with
    | nil => rfl
    | @cons l m ls ms hl _ ih =>
      obtain ⟨hm, hrest⟩ := List.forall_mem_cons.mp hms
      obtain ⟨b, hb, rfl⟩ := hl
      have hnil : b = [] := by
        by_contra hne
        rw [List.getLast?_append_of_ne_nil _ hne] at hm
        obtain ⟨c, hc⟩ := Option.isSome_iff_exists.mp (List.getLast?_isSome.mpr hne)
        have := Text.isBlank_iff.mp hb c (List.mem_of_getLast? hc)
        exact absurd (this.symm.trans (hm c hc)) (by decide)
      rw [ih hrest, hnil, List.append_nil]
  rw [← Text.unlines_lines (Text.replace ['\r', '\n'] ['\n'] t), hcut (Text.lines_replace_crlf t) h,
    Text.unlines_lines]

/-! ## The output -/

namespace Html

theorem spans_start (markup : Text) : (start markup).Spans (mask markup) := by
  intro x hx
  exact absurd hx (by simp [start])

/-- The layout before the first line, in ranks. -/
theorem ranked_start (markup : Text) :
    (start markup).ranked (mask markup) = { tags := rankedTags (mask markup) } := by
  have hzero : Text.rank (mask markup) 0 = 0 := by
    rw [Text.rank, Text.takeBytes_zero]
    rfl
  rw [Layout.ranked, start, hzero]
  rfl

theorem settled_start (ts : List Tag) : Layout.Settled { tags := ts } := by
  have hnone : (fun tag : Tag => decide (tag.start < 0)) = fun _ => false := by
    funext tag
    simp
  show (ts.dropWhile fun tag => decide (tag.start < 0)) = ts
  rw [hnone]
  cases ts <;> rfl

/-- **The layout of markup without preformatted elements**, in ranks. -/
theorem parts_addAll {markup : Text}
    (h : ∀ tag ∈ tags (mask markup), tag.opensPreformatted = false) :
    ((start markup).addAll (flagged markup).lines).parts =
      (Layout.addRows { tags := rankedTags (mask markup) }
        (rows (Text.lines markup) (flagged markup).solid)).parts := by
  have hranked := Layout.ranked_addAll (atLines_start markup) (spans_start markup) h rfl
  rw [ranked_start, map_row_lines] at hranked
  show (((start markup).addAll (flagged markup).lines).ranked (mask markup)).parts = _
  rw [hranked]

/-- Without tags that open preformatted elements, none is open on any line. -/
theorem metLines_of_plain {markup : Text}
    (h : ∀ tag ∈ tags (mask markup), tag.opensPreformatted = false) :
    ∀ l ∈ metLines markup, l.1 = false :=
  (atLines_start markup).met_of_plain h rfl

theorem opensPreformatted_of_rankedTags {m m' : Text} (heq : rankedTags m = rankedTags m')
    (h : ∀ tag ∈ tags m, tag.opensPreformatted = false) :
    ∀ tag ∈ tags m', tag.opensPreformatted = false := by
  intro tag htag
  have hmem : tag.ranked m' ∈ rankedTags m := heq ▸ List.mem_map_of_mem htag
  obtain ⟨tag', htag', he⟩ := List.mem_map.mp hmem
  have hsame : (tag'.ranked m).opensPreformatted = (tag.ranked m').opensPreformatted := by rw [he]
  exact hsame.symm.trans (h tag' htag')

/-- **The output is laid out as it is**, if no tag of the markup opens a preformatted element. -/
theorem format_format (page : Page) (markup : Text)
    (h : ∀ tag ∈ tags (mask (Text.replace ['\r', '\n'] ['\n'] markup)),
      tag.opensPreformatted = false) :
    (format false ((format false markup).render page)).render page =
      (format false markup).render page := by
  rw [format_eq_formatLines (by simp), format_eq_formatLines (by simp)]
  generalize Text.replace ['\r', '\n'] ['\n'] markup = u at h
  obtain ⟨put, tail, hbegins, htail, hlines⟩ := exists_lines_render page u
  generalize hout : (formatLines u).render page = out at hlines
  have heven : even out = even u := by
    rw [← even_spaced_lines (List.forall₂_same.mpr fun l _ => ⟨[], [], rfl, rfl, by simp⟩), hlines,
      hbegins.even_eq page htail, map_snd_metLines]
    exact even_spaced_lines (List.forall₂_same.mpr fun l _ => ⟨[], [], rfl, rfl, by simp⟩)
  have htags := rankedTags_congr (even_mask_congr heven)
  have hplain := opensPreformatted_of_rankedTags htags.symm h
  have hreplace : Text.replace ['\r', '\n'] ['\n'] out = out := by
    refine replace_eq_self fun l hl => ?_
    rw [hlines] at hl
    rcases List.mem_append.mp hl with hl | hl
    · exact hbegins.last_lines page l hl
    · rw [htail l hl]
      simp
  have hparts : ((start out).addAll (flagged out).lines).parts =
      ((start u).addAll (flagged u).lines).parts := by
    rw [parts_addAll hplain, parts_addAll h, htags, solid_flagged_congr heven, hlines,
      ← map_snd_metLines u]
    exact hbegins.parts_addRows page (metLines_of_plain h) htail (settled_start _) rfl rfl _
  rw [hreplace, formatLines_eq, hparts, ← formatLines_eq, hout]

/-- A tag and a comment that go over several lines, and blank lines. -/
theorem format_format_div : ∃ markup,
    (∀ tag ∈ tags (mask (Text.replace ['\r', '\n'] ['\n'] markup)), tag.opensPreformatted = false) ∧
      (format false markup).render {} =
        "<div\n  class=\"a\">\n  <!-- <p>\n  -->\n\n  b\n</div>\n".toList ∧
      (format false ((format false markup).render {})).render {} =
        (format false markup).render {} :=
  have hplain : ∀ tag ∈ tags (mask (Text.replace ['\r', '\n'] ['\n']
      "\n <div\nclass=\"a\">\n   <!-- <p>\n -->\n\n\nb\n</div>".toList)),
      tag.opensPreformatted = false := by decide +kernel
  ⟨_, hplain, by decide +kernel, format_format {} _ hplain⟩

end Html

end Markup

end TemplateFormat
