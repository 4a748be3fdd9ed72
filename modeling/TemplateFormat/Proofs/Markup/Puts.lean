import TemplateFormat.Proofs.Doc.Ends
import TemplateFormat.Proofs.Markup.Levels
import TemplateFormat.Proofs.Markup.Places

/-!
# What the layout puts for each line

The layout drops the blank lines before the first line, and puts something for each line behind it:
a line inside a preformatted element is kept, another line is put at its level, with a blank line
before it if there were any, and a blank line is only remembered. `Puts` says this of the lines,
each with whether a preformatted element is open when it is met.

The lines that are put are the lines of the output. For this no line break may be left out: the
renderer leaves one out behind a blank line, but a line at a level never follows a blank line that
is kept, because the preformatted element is closed on the line before it, and a tag is not blank.

Results:
* `Render.run_puts`, `Doc.render_puts`: what is put is printed, line by line.
* `Layout.puts_foldl`: what the layout puts for the lines behind the first.
* `Html.exists_begins`: the output, line by line, and the lines of the markup.
-/

namespace TemplateFormat

namespace Markup

/-- What the layout puts behind the first line. -/
inductive Put where
  /-- A line at a level, with a blank line before it or not. -/
  | line (gap : Bool) (level : Nat) (text : Text)
  /-- A line that is kept. -/
  | kept (text : Text)

namespace Put

/-- The documents of a line. -/
def docs : Put → List Doc
  | line gap level text => (if gap then [.hardline] else []) ++ [Layout.lineDoc level text]
  | kept text => [.line .literal, .ofText text]

/-- The lines of the output. -/
def lines (page : Page) : Put → List Text
  | line gap level text => (if gap then [[]] else []) ++ [page.indentation level ++ text]
  | kept text => [text]

end Put

/-- What is put for the lines of the markup behind the first line. Each line comes with whether a
preformatted element is open when it is met. `pending`: blank lines were met since the last line;
`full`: the last line that was put is not blank. -/
inductive Puts : Bool → Bool → List (Bool × Text) → List Put → Prop
  | nil {pending full : Bool} : Puts pending full [] []
  | kept {full : Bool} (raw : Text) {ls : List (Bool × Text)} {ps : List Put}
      (h : Puts false (!Text.isBlank raw) ls ps) :
      Puts false full ((true, raw) :: ls) (.kept (Text.trimEnd raw) :: ps)
  | blank {pending full : Bool} {raw : Text} (hraw : Text.isBlank raw = true)
      {ls : List (Bool × Text)} {ps : List Put} (h : Puts true full ls ps) :
      Puts pending full ((false, raw) :: ls) ps
  | line {pending : Bool} (level : Nat) {raw : Text} (hraw : Text.isBlank raw = false)
      {ls : List (Bool × Text)} {ps : List Put} (h : Puts false true ls ps) :
      Puts pending true ((false, raw) :: ls) (.line pending level (Text.trim raw) :: ps)

/-- What is put for the lines of the markup: the first line that is not blank, if there is one, and
what is put behind it. -/
inductive Begins : List (Bool × Text) → Option (Text × List Put) → Prop
  | nil : Begins [] none
  | blank {raw : Text} (hraw : Text.isBlank raw = true) {ls : List (Bool × Text)}
      {put : Option (Text × List Put)} (h : Begins ls put) : Begins ((false, raw) :: ls) put
  | first {raw : Text} (hraw : Text.isBlank raw = false) {ls : List (Bool × Text)} {ps : List Put}
      (h : Puts false true ls ps) : Begins ((false, raw) :: ls) (some (Text.trim raw, ps))

/-- The documents of what is put. -/
def putDocs : Option (Text × List Put) → List Doc
  | none => []
  | some (first, ps) => .ofText first :: ps.flatMap Put.docs

/-- The lines of what is put. -/
def putLines (page : Page) : Option (Text × List Put) → List Text
  | none => []
  | some (first, ps) => first :: ps.flatMap (Put.lines page)

/-! ## Texts that are not blank -/

theorem isBlank_trim (t : Text) : Text.isBlank (Text.trim t) = Text.isBlank t := by
  obtain ⟨b, b', hb, hb', he⟩ := Text.eq_append_trim t
  conv_rhs =>
    rw [he, Text.isBlank_append, Text.isBlank_append, hb, hb', Bool.true_and, Bool.and_true]

theorem isBlank_trimEnd (t : Text) : Text.isBlank (Text.trimEnd t) = Text.isBlank t := by
  obtain ⟨b, hb, he⟩ := Text.eq_append_trimEnd t
  conv_rhs => rw [he, Text.isBlank_append, hb, Bool.and_true]

theorem trimEnd_of_isBlank {t : Text} (h : Text.isBlank t = true) : Text.trimEnd t = [] := by
  have := Text.trimEnd_append (s := []) h (by simp)
  rwa [List.nil_append] at this

theorem inked_of_last {t : Text} (hne : t ≠ []) (h : ∀ c ∈ t.getLast?, isBlank c = false) :
    Render.Inked t.reverse := by
  obtain ⟨c, s, hs⟩ := List.exists_cons_of_ne_nil (List.reverse_ne_nil_iff.mpr hne)
  refine ⟨c, s, hs, h c ?_⟩
  rw [← List.head?_reverse, hs]
  rfl

theorem inked_trim {t : Text} (h : Text.isBlank t = false) :
    Render.Inked (Text.trim t).reverse := by
  refine inked_of_last (fun hnil => ?_) (Text.trimmed_trim t).last
  rw [← isBlank_trim, hnil] at h
  exact absurd h (by decide)

theorem inked_trimEnd {t : Text} (h : Text.isBlank t = false) :
    Render.Inked (Text.trimEnd t).reverse := by
  refine inked_of_last (fun hnil => ?_) (Text.last_trimEnd t)
  rw [← isBlank_trimEnd, hnil] at h
  exact absurd h (by decide)

end Markup

/-! ## Printing -/

namespace Render

open Markup (Put Puts inked_trim inked_trimEnd trimEnd_of_isBlank)
open Markup.Layout (lineDoc)

/-- The output ends with no space or tab, and with a character of a line if `full`. -/
structure Ready (full : Bool) (o : Output) : Prop where
  settled : o.settled = o.chars
  ne_nil : o.chars ≠ []
  inked : full = true → Inked o.chars

theorem Inked.ready {o : Output} (h : Inked o.chars) (full : Bool) : Ready full o := by
  obtain ⟨c, rest, hchars, hc⟩ := h
  refine ⟨?_, by simp [hchars], fun _ => ⟨c, rest, hchars, hc⟩⟩
  rw [Output.settled, hchars]
  exact List.dropWhile_cons_of_neg (by simp [isSpace_eq_false hc])

theorem indentation_zero (page : Page) : page.indentation 0 = [] := by
  simp [Page.indentation]

/-- A line that is kept starts a new line, whatever came before it. -/
theorem newline_of_ready (page : Page) {full : Bool} {o : Output} (h : Ready full o) :
    (o.newline page 0 false).chars = '\n' :: o.chars := by
  rw [newline_of_settled page 0 false (by rw [h.settled]; exact h.ne_nil), h.settled,
    indentation_zero]
  rfl

/-- A hard line break starts a new line, but not behind a blank line. -/
theorem hardline_of_ready (page : Page) {full : Bool} {o : Output} (h : Ready full o) :
    (o.newline page 0 true).chars =
      if Output.endsBlank o.chars then o.chars else '\n' :: o.chars := by
  rw [newline_of_settled page 0 true (by rw [h.settled]; exact h.ne_nil), h.settled,
    indentation_zero]
  rfl

/-- A blank line, and a line at a level behind it. -/
theorem newline_of_gap (page : Page) (level : Nat) {o : Output} (h : Inked o.chars) :
    ((o.newline page 0 true).newline page level true).chars =
      page.indentation level ++ '\n' :: '\n' :: o.chars := by
  have hfirst : (o.newline page 0 true).chars = '\n' :: o.chars := by
    rw [newline_of_inked page 0 h, indentation_zero]
    rfl
  have hsettled : (o.newline page 0 true).settled = '\n' :: o.chars := by
    rw [Output.settled, hfirst]
    exact List.dropWhile_cons_of_neg (by decide)
  obtain ⟨c, cs, hchars, hc⟩ := h
  have hblank : Output.endsBlank ('\n' :: o.chars) = false := by
    rw [hchars]
    unfold Output.endsBlank
    split
    · rename_i heq
      rw [(List.cons.inj (List.cons.inj heq).2).1] at hc
      exact absurd hc (by decide)
    · rfl
  rw [newline_of_settled page level true (by rw [hsettled]; simp), hsettled, hblank]
  rfl

/-- What is printed for the lines that are put: each behind a line feed. -/
def behind (ls : List Text) : Text := ls.flatMap ('\n' :: ·)

/-- The documents of a line that print something, to be printed. -/
def putCommands (p : Put) : List Command :=
  commands 0 .broken (p.docs.filter fun d => !d.isEmpty)

/-- **A line that is kept is printed as it is.** -/
theorem run_kept (page : Page) {full : Bool} {o : Output} (ho : Ready full o) (raw : Text)
    (rest : List Command) : ∃ o',
      run page (putCommands (.kept (Text.trimEnd raw)) ++ rest) o = run page rest o' ∧
      o'.chars = (behind [Text.trimEnd raw]).reverse ++ o.chars ∧ Ready (!Text.isBlank raw) o' := by
  have hnew := newline_of_ready page ho
  have hline (stack : List Command) : run page (⟨0, .broken, .line .literal⟩ :: stack) o =
      run page stack (o.newline page 0 false) := run_cons page _ _ _
  cases hraw : Text.isBlank raw with
  | true =>
    have hnil : Text.trimEnd raw = [] := trimEnd_of_isBlank hraw
    have hdocs : putCommands (.kept (Text.trimEnd raw)) = [⟨0, .broken, .line .literal⟩] := by
      simp [putCommands, commands, hnil, Put.docs, Doc.ofText, Doc.isEmpty]
    refine ⟨o.newline page 0 false, ?_, ?_, ?_⟩
    · rw [hdocs]
      exact hline rest
    · rw [hnew, hnil]
      rfl
    · refine ⟨?_, by simp [hnew], by simp⟩
      rw [Output.settled, hnew]
      exact List.dropWhile_cons_of_neg (by decide)
  | false =>
    have hinked := inked_trimEnd hraw
    have hdocs : putCommands (.kept (Text.trimEnd raw)) =
        [⟨0, .broken, .line .literal⟩, ⟨0, .broken, .text (Text.trimEnd raw)⟩] := by
      simp [putCommands, commands, Put.docs, Doc.ofText, Doc.isEmpty, hinked.ne_nil]
    refine ⟨(o.newline page 0 false).write (Text.trimEnd raw), ?_, ?_, (hinked.append _).ready _⟩
    · rw [hdocs]
      exact (hline _).trans (run_cons page _ _ _)
    · show (Text.trimEnd raw).reverse ++ (o.newline page 0 false).chars = _
      rw [hnew]
      simp [behind]

/-- **A line at a level is printed there**, behind a line that is not blank. -/
theorem run_put (page : Page) {o : Output} (ho : Inked o.chars) (gap : Bool) (level : Nat)
    {raw : Text} (hraw : Text.isBlank raw = false) (rest : List Command) : ∃ o',
      run page (putCommands (.line gap level (Text.trim raw)) ++ rest) o = run page rest o' ∧
      o'.chars = (behind (Put.lines page (.line gap level (Text.trim raw)))).reverse ++ o.chars ∧
        Inked o'.chars := by
  have hinked := inked_trim hraw
  have hdoc : (lineDoc level (Text.trim raw)).isEmpty = false := Doc.isEmpty_lineDoc _ _
  have hline (o : Output) : run page (⟨0, .broken, lineDoc level (Text.trim raw)⟩ :: rest) o =
      run page rest ((o.newline page level true).write (Text.trim raw)) :=
    run_lineDoc page level hinked.ne_nil rest o
  cases gap with
  | false =>
    have hdocs : putCommands (.line false level (Text.trim raw)) =
        [⟨0, .broken, lineDoc level (Text.trim raw)⟩] := by
      simp [putCommands, commands, Put.docs, hdoc]
    refine ⟨(o.newline page level true).write (Text.trim raw), ?_, ?_, hinked.append _⟩
    · rw [hdocs]
      exact hline o
    · show (Text.trim raw).reverse ++ (o.newline page level true).chars = _
      rw [newline_of_inked page level ho]
      simp [behind, Put.lines, indentation_reverse]
  | true =>
    have hdocs : putCommands (.line true level (Text.trim raw)) =
        [⟨0, .broken, .hardline⟩, ⟨0, .broken, lineDoc level (Text.trim raw)⟩] := by
      simp [putCommands, commands, Put.docs, hdoc, Doc.hardline, Doc.isEmpty]
    refine ⟨((o.newline page 0 true).newline page level true).write (Text.trim raw), ?_, ?_,
      hinked.append _⟩
    · rw [hdocs]
      exact (run_cons page _ _ _).trans (hline _)
    · show (Text.trim raw).reverse ++ ((o.newline page 0 true).newline page level true).chars = _
      rw [newline_of_gap page level ho]
      simp [behind, Put.lines, indentation_reverse]

theorem behind_append (ls ms : List Text) : behind (ls ++ ms) = behind ls ++ behind ms :=
  List.flatMap_append

/-- **What is put is printed, line by line**, by induction on the lines. -/
theorem run_puts (page : Page) (rest : List Command) {pending full : Bool} {ls : List (Bool × Text)}
    {ps : List Put} (h : Puts pending full ls ps) {o : Output} (ho : Ready full o) : ∃ o' full',
      run page (ps.flatMap putCommands ++ rest) o = run page rest o' ∧
      o'.chars = (behind (ps.flatMap (Put.lines page))).reverse ++ o.chars ∧ Ready full' o' := by
  induction h generalizing o with
  | @nil pending full => exact ⟨o, full, rfl, rfl, ho⟩
  | kept raw h ih =>
    obtain ⟨o₁, hrun₁, hchars₁, ho₁⟩ := run_kept page ho raw _
    obtain ⟨o₂, full₂, hrun₂, hchars₂, ho₂⟩ := ih ho₁
    refine ⟨o₂, full₂, ?_, ?_, ho₂⟩
    · rw [List.flatMap_cons, List.append_assoc, hrun₁, hrun₂]
    · rw [hchars₂, hchars₁, List.flatMap_cons, behind_append, List.reverse_append,
        List.append_assoc]
      rfl
  | blank hraw h ih => exact ih ho
  | @line pending level raw hraw ls ps h ih =>
    obtain ⟨o₁, hrun₁, hchars₁, ho₁⟩ := run_put page (ho.inked rfl) pending level hraw _
    obtain ⟨o₂, full₂, hrun₂, hchars₂, ho₂⟩ := ih (ho₁.ready true)
    refine ⟨o₂, full₂, ?_, ?_, ho₂⟩
    · rw [List.flatMap_cons, List.append_assoc, hrun₁, hrun₂]
    · rw [hchars₂, hchars₁, List.flatMap_cons, behind_append, List.reverse_append,
        List.append_assoc]

end Render

namespace Doc

open Render
open Markup (Put Puts Begins putDocs putLines)

theorem propagate_put (p : Put) : ∀ d ∈ p.docs, d.propagate = d := by
  intro d hd
  cases p with
  | line gap level text =>
    rcases List.mem_append.mp hd with hd | hd
    · cases gap with
      | false => exact absurd hd List.not_mem_nil
      | true => rw [List.mem_singleton.mp hd, hardline, propagate]
    · rw [List.mem_singleton.mp hd, propagate_lineDoc]
  | kept text =>
    rcases List.mem_cons.mp hd with rfl | hd
    · rw [propagate]
    · rw [List.mem_singleton.mp hd, propagate_ofText]

theorem propagate_mem_putDocs {text : Text} {ps : List Put} :
    ∀ d ∈ putDocs (some (text, ps)), d.propagate = d := by
  intro d hd
  rcases List.mem_cons.mp hd with rfl | hd
  · exact propagate_ofText _
  · obtain ⟨p, -, hp⟩ := List.mem_flatMap.mp hd
    exact propagate_put p d hp

theorem propagate_putDocs (text : Text) (ps : List Put) :
    (join (putDocs (some (text, ps)) ++ [hardline])).propagate =
      join (putDocs (some (text, ps)) ++ [hardline]) := by
  refine propagate_join fun d hd => ?_
  rcases List.mem_append.mp hd with hd | hd
  · exact propagate_mem_putDocs d hd
  · rw [List.mem_singleton.mp hd, hardline, propagate]

/-- The commands for what is put: one for the first text, then those of the lines behind it. -/
theorem commands_putDocs {first : Text} (hne : first ≠ []) (ps : List Put) : commands 0 .broken
    ((putDocs (some (first, ps)) ++ [hardline]).filter fun d => !d.isEmpty) =
      ⟨0, .broken, text first⟩ :: (ps.flatMap putCommands ++ [⟨0, .broken, hardline⟩]) := by
  have htext : ofText first = text first := if_neg (by simpa using hne)
  have hfilter : (ps.flatMap Put.docs).filter (fun d => !d.isEmpty) =
      ps.flatMap fun p => p.docs.filter fun d => !d.isEmpty := List.filter_flatMap ..
  have hmap : ps.flatMap putCommands = commands 0 .broken
      (ps.flatMap fun p => p.docs.filter fun d => !d.isEmpty) := (List.map_flatMap ..).symm
  rw [putDocs, hmap, htext, List.cons_append, List.filter_cons_of_pos (by simp [isEmpty, hne]),
    List.filter_append, hfilter]
  simp [commands, hardline, isEmpty]

/-- **The output of what is put**: its lines, and a line feed unless blank lines that are kept come
last. -/
theorem render_puts (page : Page) {ls : List (Bool × Text)} {put : Option (Text × List Put)}
    (h : Begins ls put) : ∃ last, (last = [] ∨ last = ['\n']) ∧
      (join (putDocs put ++ [hardline])).render page =
        Text.unlines (putLines page put) ++ last := by
  induction h with
  | nil => exact ⟨[], .inl rfl, render_eq_nil page (by simp [putDocs, isSpace])⟩
  | blank hraw h ih => exact ih
  | @first raw hraw ls ps h =>
    have hinked := Markup.inked_trim hraw
    obtain ⟨o, full, hrun, hchars, ho⟩ := run_puts page [⟨0, .broken, hardline⟩] h
      (o := (⟨[], 0⟩ : Output).write (Text.trim raw)) ((hinked.append []).ready true)
    have hwhole : run page [⟨0, .broken, (join (putDocs (some (Text.trim raw, ps)) ++
        [hardline])).propagate⟩] ⟨[], 0⟩ = o.newline page 0 true := by
      rw [propagate_putDocs, run_join, commands_putDocs hinked.ne_nil, List.append_nil]
      refine (run_cons page _ _ _).trans (hrun.trans ?_)
      rw [run_cons]
      show run page [] (o.newline page 0 true) = _
      rw [run]
    have hlines : o.chars = (Text.unlines (putLines page (some (Text.trim raw, ps)))).reverse := by
      rw [hchars, putLines, Text.unlines_cons_eq]
      simp [behind, Output.write]
    have hnew : (o.newline page 0 true).chars = o.chars ∨
        (o.newline page 0 true).chars = '\n' :: o.chars := by
      rw [hardline_of_ready page ho]
      split
      · exact .inl rfl
      · exact .inr rfl
    have hsettled : o.chars.dropWhile isSpace = o.chars := ho.settled
    rw [render]
    simp only [hwhole]
    rcases hnew with hnew | hnew
    · refine ⟨[], .inl rfl, ?_⟩
      rw [hnew, hsettled, hlines, List.reverse_reverse, List.append_nil]
    · refine ⟨['\n'], .inr rfl, ?_⟩
      rw [hnew, List.dropWhile_cons_of_neg (by decide), List.reverse_cons, hlines,
        List.reverse_reverse]

end Doc

namespace Markup

/-! ## The lines of the markup -/

namespace Layout

/-- The lines of the markup, each with whether a preformatted element is open when it is met. -/
def met : Layout → List Flagged → List (Bool × Text)
  | _, [] => []
  | s, l :: ls => (s.preformatted.isSome, l.text) :: met (s.addLine l.text l.masked) ls

/-- The layout of the lines. -/
def addAll (s : Layout) (ls : List Flagged) : Layout :=
  ls.foldl (fun s l => s.addLine l.text l.masked) s

variable {s : Layout} {l : Flagged} {ls : List Flagged} {raw m : Text}

/-- A line inside a preformatted element: the element stays open, or is closed by a tag on the line.
-/
theorem addLine_kept {name : Text} (raw masked : Text) (h : s.preformatted = some name) :
    (s.addLine raw masked).parts = .ofText (Text.trimEnd raw) :: .line .literal :: s.parts ∧
      (s.addLine raw masked).pendingBlank = s.pendingBlank ∧
        ((s.addLine raw masked).preformatted = none → s.here raw ≠ []) := by
  unfold addLine
  simp only [h]
  refine ⟨parts_preformattedLine .., ?_, ?_⟩
  · unfold preformattedLine
    split <;> rfl
  · intro hnone hnil
    unfold preformattedLine at hnone
    rw [here] at hnil
    simp [hnil] at hnone

/-- A blank line is remembered, if it is not before the first line. -/
theorem addLine_blank (masked : Text) (h : s.preformatted = none) (hraw : Text.isBlank raw = true) :
    (s.addLine raw masked).parts = s.parts ∧
      (s.addLine raw masked).pendingBlank = !s.parts.isEmpty ∧
        (s.addLine raw masked).preformatted = none := by
  unfold addLine
  simp [h, Text.trim_of_isBlank hraw]

theorem parts_markupLine (s : Layout) (line masked : Text) (start stop : Nat) (here : List Tag) :
    ∃ level, (s.markupLine line masked start stop here).parts =
      if s.parts.isEmpty then [.ofText line]
      else if s.pendingBlank then lineDoc level line :: .hardline :: s.parts
      else lineDoc level line :: s.parts :=
  ⟨_, rfl⟩

/-- A line is put at a level, with a blank line before it if there were any. -/
theorem addLine_line (masked : Text) (h : s.preformatted = none) (hraw : Text.isBlank raw = false) :
    (s.addLine raw masked).pendingBlank = false ∧
      ((s.parts = [] ∧ (s.addLine raw masked).parts = [.ofText (Text.trim raw)]) ∨
        s.parts ≠ [] ∧ ∃ level, (s.addLine raw masked).parts.reverse =
          s.parts.reverse ++ (Put.line s.pendingBlank level (Text.trim raw)).docs) := by
  unfold addLine
  simp only [h, List.isEmpty_iff, if_neg (Text.trim_ne_nil hraw)]
  obtain ⟨level, hlevel⟩ := parts_markupLine
    { s with
      tags := s.tags.dropWhile fun tag => tag.start < s.offset + Text.bytes raw
      offset := s.offset + Text.bytes raw + 1 }
    (Text.trim raw) masked s.offset (s.offset + Text.bytes raw) (s.here raw)
  refine ⟨rfl, ?_⟩
  by_cases hparts : s.parts = []
  · rw [if_pos (List.isEmpty_iff.mpr hparts)] at hlevel
    exact .inl ⟨hparts, hlevel⟩
  · rw [if_neg (mt List.isEmpty_iff.mp hparts)] at hlevel
    refine .inr ⟨hparts, level, (congrArg List.reverse hlevel).trans ?_⟩
    cases hgap : s.pendingBlank <;> simp [Put.docs]

/-- What holds between two lines: the cursor is at the line that is read next. -/
def AtLines (m : Text) (ls : List Flagged) (s : Layout) : Prop :=
  ls ≠ [] → Reads m (Text.unlines (ls.map Flagged.masked)) s

theorem AtLines.next (h : AtLines m (l :: ls) s) : AtLines m ls (s.addLine l.text l.masked) := by
  intro hne
  have hreads := h (List.cons_ne_nil l ls)
  rw [List.map_cons, Text.unlines_cons _ (by simpa using hne)] at hreads
  exact reads_addLine hreads

theorem AtLines.not_blank (h : AtLines m (l :: ls) s) (hhere : s.here l.text ≠ []) :
    Text.isBlank l.text = false := by
  have hreads := h (List.cons_ne_nil l ls)
  rw [List.map_cons, Text.unlines_cons_eq] at hreads
  exact not_blank_of_here hreads hhere

/-- What holds between two lines behind the first line. -/
structure Goes (m : Text) (ls : List Flagged) (full : Bool) (s : Layout) : Prop where
  at_lines : AtLines m ls s
  parts : s.parts ≠ []
  pending : s.preformatted ≠ none → s.pendingBlank = false
  full : s.preformatted = none → full = true

/-- **What the layout puts for the lines behind the first**, by induction on the lines. -/
theorem puts_addAll {full : Bool} (h : Goes m ls full s) : ∃ ps,
    (s.addAll ls).parts.reverse = s.parts.reverse ++ ps.flatMap Put.docs ∧
      Puts s.pendingBlank full (s.met ls) ps := by
  induction ls generalizing s full with
  | nil => exact ⟨[], (List.append_nil _).symm, .nil⟩
  | cons l ls ih =>
    have hat := h.at_lines.next
    rw [met]
    cases hpre : s.preformatted with
    | some name =>
      obtain ⟨hparts, hpending, hclosed⟩ := addLine_kept l.text l.masked hpre
      have hnone := h.pending (by simp [hpre])
      have hnext : Goes m ls (!Text.isBlank l.text) (s.addLine l.text l.masked) := by
        refine ⟨hat, by simp [hparts], fun _ => hpending.trans hnone, fun hclose => ?_⟩
        rw [h.at_lines.not_blank (hclosed hclose)]
        rfl
      obtain ⟨ps, hps, hputs⟩ := ih hnext
      refine ⟨.kept (Text.trimEnd l.text) :: ps, ?_, ?_⟩
      · show ((s.addLine l.text l.masked).addAll ls).parts.reverse = _
        rw [hps, hparts]
        simp [Put.docs]
      · rw [hnone]
        rw [hpending, hnone] at hputs
        exact .kept l.text hputs
    | none =>
      obtain rfl := h.full hpre
      cases hraw : Text.isBlank l.text with
      | true =>
        obtain ⟨hparts, hpending, hopen⟩ := addLine_blank l.masked hpre hraw
        have hnext : Goes m ls true (s.addLine l.text l.masked) :=
          ⟨hat, by rw [hparts]; exact h.parts, fun hne => absurd hopen hne, fun _ => rfl⟩
        obtain ⟨ps, hps, hputs⟩ := ih hnext
        refine ⟨ps, ?_, ?_⟩
        · rw [← hparts]
          exact hps
        · have hsome : (!s.parts.isEmpty) = true := by simpa using h.parts
          rw [hpending, hsome] at hputs
          exact .blank hraw hputs
      | false =>
        obtain ⟨hpending, hparts⟩ := addLine_line l.masked hpre hraw
        obtain ⟨-, level, hparts⟩ := hparts.resolve_left fun hnil => h.parts hnil.1
        have hnext : Goes m ls true (s.addLine l.text l.masked) := by
          refine ⟨hat, fun hnil => ?_, fun _ => hpending, fun _ => rfl⟩
          rw [hnil] at hparts
          simp [Put.docs, h.parts] at hparts
        obtain ⟨ps, hps, hputs⟩ := ih hnext
        refine ⟨.line s.pendingBlank level (Text.trim l.text) :: ps, ?_, ?_⟩
        · show ((s.addLine l.text l.masked).addAll ls).parts.reverse = _
          rw [hps, hparts, List.append_assoc]
          rfl
        · rw [hpending] at hputs
          exact .line level hraw hputs

/-- **What the layout puts for the lines**: the blank lines before the first line are dropped. -/
theorem begins_addAll (hat : AtLines m ls s) (hparts : s.parts = [])
    (hpre : s.preformatted = none) :
    ∃ put, (s.addAll ls).parts.reverse = putDocs put ∧ Begins (s.met ls) put := by
  induction ls generalizing s with
  | nil =>
    refine ⟨none, ?_, .nil⟩
    show s.parts.reverse = []
    rw [hparts]
    rfl
  | cons l ls ih =>
    rw [met, hpre]
    cases hraw : Text.isBlank l.text with
    | true =>
      obtain ⟨hsame, -, hopen⟩ := addLine_blank l.masked hpre hraw
      obtain ⟨put, hput, hbegins⟩ := ih hat.next (hsame.trans hparts) hopen
      exact ⟨put, hput, .blank hraw hbegins⟩
    | false =>
      obtain ⟨hpending, hfirst⟩ := addLine_line l.masked hpre hraw
      obtain ⟨-, hfirst⟩ := hfirst.resolve_right fun h => h.1 hparts
      have hgoes : Goes m ls true (s.addLine l.text l.masked) :=
        ⟨hat.next, by simp [hfirst], fun _ => hpending, fun _ => rfl⟩
      obtain ⟨ps, hps, hputs⟩ := puts_addAll hgoes
      rw [hpending] at hputs
      refine ⟨some (Text.trim l.text, ps), ?_, .first hraw hputs⟩
      show ((s.addLine l.text l.masked).addAll ls).parts.reverse = _
      rw [hps, hfirst]
      rfl

end Layout

/-! ## The output -/

namespace Html

/-- The layout before the first line. -/
def start (markup : Text) : Layout := { tags := tags (mask markup) }

/-- The lines of the markup, each with whether a preformatted element is open when the layout meets
it. -/
def metLines (markup : Text) : List (Bool × Text) := (start markup).met (flagged markup).lines

theorem atLines_start (markup : Text) :
    (start markup).AtLines (mask markup) (flagged markup).lines := by
  intro _
  have hunlines : Text.unlines ((flagged markup).lines.map Flagged.masked) = mask markup := by
    rw [← Flagged.masked_lines, Text.unlines_lines, masked_flagged]
  refine ⟨⟨[], by rw [hunlines]; rfl, rfl⟩, ?_⟩
  have hnone : (fun tag : Tag => decide (tag.start < 0)) = fun _ => false := by
    funext tag
    simp
  show tags (mask markup) = (tags (mask markup)).dropWhile fun tag => decide (tag.start < 0)
  rw [hnone]
  cases tags (mask markup) <;> rfl

theorem formatLines_eq (markup : Text) : formatLines markup =
    .join (((start markup).addAll (flagged markup).lines).parts.reverse ++ [.hardline]) := by
  unfold formatLines
  simp only [zip_lines, List.foldl_map, List.reverse_cons]
  rfl

theorem map_snd_met (s : Layout) (ls : List Flagged) :
    (s.met ls).map Prod.snd = ls.map Flagged.text := by
  induction ls generalizing s with
  | nil => rfl
  | cons l ls ih => rw [Layout.met, List.map_cons, ih, List.map_cons]

theorem map_snd_metLines (markup : Text) : (metLines markup).map Prod.snd = Text.lines markup := by
  rw [metLines, map_snd_met, ← Flagged.text_lines, text_flagged]

/-- **What is put for the lines of the markup is the output.** -/
theorem exists_begins (page : Page) (markup : Text) : ∃ put last,
    Begins (metLines markup) put ∧ (last = [] ∨ last = ['\n']) ∧
      (formatLines markup).render page = Text.unlines (putLines page put) ++ last := by
  obtain ⟨put, hparts, hbegins⟩ := Layout.begins_addAll (atLines_start markup) rfl rfl
  obtain ⟨last, hlast, hrender⟩ := Doc.render_puts page hbegins
  refine ⟨put, last, hbegins, hlast, ?_⟩
  rw [formatLines_eq, hparts, hrender]

end Html

end Markup

end TemplateFormat
