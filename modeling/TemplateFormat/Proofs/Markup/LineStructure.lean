import TemplateFormat.Proofs.Markup.Indentation
import TemplateFormat.Proofs.Markup.Puts

/-!
# The lines that are kept

Laying out markup keeps its lines: the lines that are not blank are the same ones in the same order,
up to the white space at their ends; a run of lines that are met inside a preformatted element is
kept as written, blank lines and all, up to the white space at the ends of lines; and between two
other lines there is one blank line if there was one in the markup, and none if there was none
(`KeepsLines`).

Which lines are met inside a preformatted element is up to the layout. It agrees with the tags
(`insideLines`) if no such element is opened on a line behind a tag that opens or closes another one
(`Apart`). Where one is closed and another one opened on the same line the layout misses the second,
and its body is indented.

Results:
* `keepsLines_of_begins`: what is put for the lines keeps them.
* `metLines_eq_insideLines`: the layout and the tags.
* `Html.format_keeps_lines`: the output keeps the lines.
* `Html.format_loses_indentation`: a preformatted body that is indented.
-/

namespace TemplateFormat

namespace Markup

/-- The lines that are not blank, without the white space at their ends. -/
def words (ls : List Text) : List Text := (ls.map Text.trim).filter fun t => !t.isEmpty

@[simp] theorem words_nil : words [] = [] := rfl

@[simp] theorem words_append (ls ms : List Text) : words (ls ++ ms) = words ls ++ words ms := by
  rw [words, List.map_append, List.filter_append]
  rfl

theorem words_blank {l : Text} (h : Text.isBlank l = true) : words [l] = [] := by
  simp [words, Text.trim_of_isBlank h]

theorem words_congr {l m : Text} (h : Text.trim l = Text.trim m) : words [l] = words [m] := by
  simp [words, h]

theorem words_cons (l : Text) (ls : List Text) : words (l :: ls) = words [l] ++ words ls :=
  words_append [l] ls

theorem words_of_blank {ls : List Text} (h : ∀ l ∈ ls, Text.isBlank l = true) : words ls = [] := by
  induction ls with
  | nil => rfl
  | cons l ls ih =>
    rw [words_cons, words_blank (h l List.mem_cons_self),
      ih fun m hm => h m (List.mem_cons_of_mem l hm)]
    rfl

/-- The lines of the output keep the lines of the markup, each with whether a preformatted element
is open when it is met. -/
structure KeepsLines (ls : List (Bool × Text)) (out : List Text) : Prop where
  /-- The lines that are not blank are the same. -/
  words_eq : words out = words (ls.map Prod.snd)
  /-- Lines inside a preformatted element are kept, with the same lines before and behind them. -/
  kept : ∀ before block behind, ls = before ++ (block ++ behind) → block ≠ [] →
    (∀ l ∈ block, l.1 = true) → ∃ outBefore outBehind,
      out = outBefore ++ (block.map (fun l => Text.trimEnd l.2) ++ outBehind) ∧
        words outBefore = words (before.map Prod.snd) ∧
          words outBehind = words (behind.map Prod.snd)
  /-- Between two lines that are not blank, the second of them outside, and at the place of all
  blank lines between them, there is one blank line or none. -/
  gaps : ∀ before first blanks second behind,
    ls = before ++ first :: (blanks ++ second :: behind) →
    Text.isBlank first.2 = false → second.1 = false → Text.isBlank second.2 = false →
    (∀ l ∈ blanks, l.1 = false ∧ Text.isBlank l.2 = true) →
      ∃ outBefore outFirst outSecond outBehind,
        out = outBefore ++
          outFirst :: ((if blanks = [] then [] else [[]]) ++ outSecond :: outBehind) ∧
        Text.trim outFirst = Text.trim first.2 ∧ Text.trim outSecond = Text.trim second.2 ∧
          words outBefore = words (before.map Prod.snd) ∧
            words outBehind = words (behind.map Prod.snd)

/-! ## What is put for the lines -/

section Puts

variable {pending full : Bool} {ls A B : List (Bool × Text)} {ps : List Put}

theorem trim_trimEnd (t : Text) : Text.trim (Text.trimEnd t) = Text.trim t := by
  obtain ⟨b, hb, he⟩ := Text.eq_append_trimEnd t
  conv_rhs => rw [he, Text.trim_append_isBlank hb]

theorem trim_put (page : Page) (level : Nat) (t : Text) :
    Text.trim (page.indentation level ++ Text.trim t) = Text.trim t := by
  rw [Text.trim_isBlank_append (Render.isBlank_indentation page level),
    Text.trim_of_trimmed (Text.trimmed_trim t)]

theorem words_lines_line (page : Page) (gap : Bool) (level : Nat) (t : Text) :
    words (Put.lines page (.line gap level (Text.trim t))) = words [t] := by
  have hgap : words (if gap then [[]] else []) = [] := by cases gap <;> rfl
  rw [Put.lines, words_append, hgap, List.nil_append, words_congr (trim_put page level t)]

theorem Puts.words_eq (h : Puts pending full ls ps) (page : Page) :
    words (ps.flatMap (Put.lines page)) = words (ls.map Prod.snd) := by
  induction h with
  | nil => rfl
  | kept raw h ih =>
    rw [List.flatMap_cons, words_append, ih, List.map_cons, words_cons, Put.lines,
      words_congr (trim_trimEnd raw)]
  | blank hraw h ih => rw [ih, List.map_cons, words_cons, words_blank hraw, List.nil_append]
  | line level hraw h ih =>
    rw [List.flatMap_cons, words_append, ih, List.map_cons, words_cons, words_lines_line]

/-- **What is put for lines that are cut in two.** -/
theorem Puts.split (h : Puts pending full (A ++ B) ps) : ∃ ps₁ ps₂ pending' full',
    ps = ps₁ ++ ps₂ ∧ Puts pending full A ps₁ ∧ Puts pending' full' B ps₂ := by
  induction A generalizing pending full ps with
  | nil => exact ⟨[], ps, pending, full, rfl, .nil, h⟩
  | cons l A ih =>
    rw [List.cons_append] at h
    cases h with
    | kept raw h =>
      obtain ⟨ps₁, ps₂, pending', full', rfl, h₁, h₂⟩ := ih h
      exact ⟨_ :: ps₁, ps₂, pending', full', rfl, .kept raw h₁, h₂⟩
    | blank hraw h =>
      obtain ⟨ps₁, ps₂, pending', full', rfl, h₁, h₂⟩ := ih h
      exact ⟨ps₁, ps₂, pending', full', rfl, .blank hraw h₁, h₂⟩
    | line level hraw h =>
      obtain ⟨ps₁, ps₂, pending', full', rfl, h₁, h₂⟩ := ih h
      exact ⟨_ :: ps₁, ps₂, pending', full', rfl, .line level hraw h₁, h₂⟩

/-- Lines inside a preformatted element are kept. -/
theorem Puts.kept_eq (h : Puts pending full ls ps) (hls : ∀ l ∈ ls, l.1 = true) (page : Page) :
    ps.flatMap (Put.lines page) = ls.map fun l => Text.trimEnd l.2 := by
  induction h with
  | nil => rfl
  | kept raw h ih =>
    rw [List.flatMap_cons, ih fun l hl => hls l (List.mem_cons_of_mem _ hl)]
    rfl
  | blank hraw h ih => exact absurd (hls _ List.mem_cons_self) (by simp)
  | line level hraw h ih => exact absurd (hls _ List.mem_cons_self) (by simp)

/-- What is put for a line that is not blank: the line, behind a blank line or not. -/
theorem Puts.line_eq {inside : Bool} {raw : Text} (h : Puts pending full ((inside, raw) :: B) ps)
    (hraw : Text.isBlank raw = false) (page : Page) : ∃ gap line ps' full',
      ps.flatMap (Put.lines page) = gap ++ line :: ps'.flatMap (Put.lines page) ∧ words gap = [] ∧
        Text.trim line = Text.trim raw ∧ Puts false full' B ps' := by
  cases h with
  | kept _ h => exact ⟨[], _, _, _, rfl, rfl, trim_trimEnd raw, h⟩
  | blank hblank h => exact absurd (hraw.symm.trans hblank) (by decide)
  | @line _ level _ _ _ ps' h =>
    refine ⟨if pending then [[]] else [], _, ps', true, ?_, ?_, trim_put page level raw, h⟩
    · simp [Put.lines]
    · cases pending <;> rfl

/-- A line outside comes behind one blank line if blank lines are pending, and behind none else. -/
theorem Puts.gap {blanks : List (Bool × Text)} {second : Bool × Text}
    (h : Puts pending full (blanks ++ second :: B) ps)
    (hblanks : ∀ l ∈ blanks, l.1 = false ∧ Text.isBlank l.2 = true) (hsecond : second.1 = false)
    (hline : Text.isBlank second.2 = false) : ∃ level ps',
      ps = .line (pending || !blanks.isEmpty) level (Text.trim second.2) :: ps' ∧
        Puts false true B ps' := by
  induction blanks generalizing pending with
  | nil =>
    obtain ⟨inside, raw⟩ := second
    subst hsecond
    cases h with
    | blank hraw h => exact absurd (hline.symm.trans hraw) (by decide)
    | @line _ level _ _ _ _ h => exact ⟨level, _, by simp, h⟩
  | cons l blanks ih =>
    obtain ⟨inside, raw⟩ := l
    obtain ⟨hout, hblank⟩ := hblanks _ List.mem_cons_self
    obtain rfl : inside = false := hout
    cases h with
    | blank hraw h =>
      obtain ⟨level, ps', rfl, h'⟩ := ih h fun l hl => hblanks l (List.mem_cons_of_mem _ hl)
      exact ⟨level, ps', by simp, h'⟩
    | line level hraw h => exact absurd (hblank.symm.trans hraw) (by decide)

end Puts

section Begins

variable {ls A B : List (Bool × Text)} {put : Option (Text × List Put)}

theorem trim_trim (t : Text) : Text.trim (Text.trim t) = Text.trim t :=
  Text.trim_of_trimmed (Text.trimmed_trim t)

theorem Begins.words_eq (h : Begins ls put) (page : Page) :
    words (putLines page put) = words (ls.map Prod.snd) := by
  induction h with
  | nil => rfl
  | blank hraw h ih => rw [ih, List.map_cons, words_cons, words_blank hraw, List.nil_append]
  | first hraw h =>
    rw [putLines, words_cons, h.words_eq page, List.map_cons, words_cons _ (List.map _ _),
      words_congr (trim_trim _)]

/-- **What is put for lines that are cut in two**: before the first line, or behind it. -/
theorem Begins.split (h : Begins (A ++ B) put) : (Begins A none ∧ Begins B put) ∨
    ∃ t ps₁ ps₂ pending full, put = some (t, ps₁ ++ ps₂) ∧ Begins A (some (t, ps₁)) ∧
      Puts pending full B ps₂ := by
  induction A with
  | nil => exact .inl ⟨.nil, h⟩
  | cons l A ih =>
    rw [List.cons_append] at h
    cases h with
    | blank hraw h =>
      rcases ih h with ⟨hA, hB⟩ | ⟨t, ps₁, ps₂, pending, full, rfl, hA, hB⟩
      · exact .inl ⟨.blank hraw hA, hB⟩
      · exact .inr ⟨t, ps₁, ps₂, pending, full, rfl, .blank hraw hA, hB⟩
    | first hraw h =>
      obtain ⟨ps₁, ps₂, pending, full, rfl, hA, hB⟩ := h.split
      exact .inr ⟨_, ps₁, ps₂, pending, full, rfl, .first hraw hA, hB⟩

/-- **What is put for the lines keeps them.** -/
theorem keepsLines_of_begins (h : Begins ls put) (page : Page) {tail : List Text}
    (htail : ∀ l ∈ tail, Text.isBlank l = true) : KeepsLines ls (putLines page put ++ tail) := by
  have hwords : words tail = [] := words_of_blank htail
  refine ⟨?_, ?_, ?_⟩
  · rw [words_append, hwords, List.append_nil, h.words_eq page]
  · rintro before block behind rfl hne hblock
    rcases h.split with ⟨-, hB⟩ | ⟨t, ps₁, ps₂, pending, full, rfl, hA, hB⟩
    · -- the first line is not inside a preformatted element
      obtain ⟨l, block, rfl⟩ := List.exists_cons_of_ne_nil hne
      have hl := hblock l List.mem_cons_self
      rw [List.cons_append] at hB
      cases hB <;> exact absurd hl (by simp)
    · obtain ⟨ps₂, ps₃, pending', full', rfl, hblock', hbehind⟩ := hB.split
      refine ⟨putLines page (some (t, ps₁)), ps₃.flatMap (Put.lines page) ++ tail, ?_,
        hA.words_eq page, ?_⟩
      · rw [← hblock'.kept_eq hblock page]
        simp [putLines]
      · rw [words_append, hwords, List.append_nil, hbehind.words_eq page]
  · rintro before ⟨inside, first⟩ blanks second behind rfl hfirst hout hsecond hblanks
    -- the lines up to the first of the two, and what is put behind it
    obtain ⟨outBefore, line, ps, full, hput, hbefore, hline, hputs⟩ : ∃ outBefore line ps full,
        putLines page put = outBefore ++ line :: ps.flatMap (Put.lines page) ∧
          words outBefore = words (before.map Prod.snd) ∧ Text.trim line = Text.trim first ∧
            Puts false full (blanks ++ second :: behind) ps := by
      rcases h.split with ⟨hA, hB⟩ | ⟨t, ps₁, ps₂, pending, full, rfl, hA, hB⟩
      · cases hB with
        | blank hraw _ => exact absurd (hfirst.symm.trans hraw) (by decide)
        | first hraw hputs => exact ⟨[], _, _, _, rfl, hA.words_eq page, trim_trim first, hputs⟩
      · obtain ⟨gap, line, ps', full', hlines, hgap, hline, hputs⟩ := hB.line_eq hfirst page
        refine ⟨putLines page (some (t, ps₁)) ++ gap, line, ps', full', ?_, ?_, hline, hputs⟩
        · simp [putLines, hlines]
        · rw [words_append, hgap, List.append_nil, hA.words_eq page]
    obtain ⟨level, ps', rfl, hbehind⟩ := hputs.gap hblanks hout hsecond
    refine ⟨outBefore, line, page.indentation level ++ Text.trim second.2,
      ps'.flatMap (Put.lines page) ++ tail, ?_, hline, trim_put page level second.2, hbefore, ?_⟩
    · have hgap : (if (false || !blanks.isEmpty) = true then [[]] else ([] : List Text)) =
          if blanks = [] then [] else [[]] := by
        cases blanks <;> rfl
      rw [← hgap, hput]
      simp [Put.lines]
    · rw [words_append, hwords, List.append_nil, hbehind.words_eq page]

end Begins

/-! ## Preformatted elements -/

/-- The tag opens a preformatted element. -/
def Tag.opensPreformatted (tag : Tag) : Bool :=
  !tag.closing && tag.opens && preformattedElements.contains tag.name

/-- The preformatted element that is open behind a tag: it stays open up to the closing tag of its
name, and what is opened inside it is its text. -/
def openBehind (inside : Option Text) (tag : Tag) : Option Text :=
  match inside with
  | none => if tag.opensPreformatted then some tag.name else none
  | some name => if tag.closing && tag.name == name then none else some name

/-- The preformatted element that is open at a byte of the markup. -/
def openAt (markup : Text) (offset : Nat) : Option Text :=
  ((tags (mask markup)).takeWhile fun tag => tag.start < offset).foldl openBehind none

/-- The lines of the markup from a byte on, each with whether a preformatted element is open at its
start. -/
def insideFrom (markup : Text) : Nat → List Text → List (Bool × Text)
  | _, [] => []
  | offset, l :: ls =>
    ((openAt markup offset).isSome, l) :: insideFrom markup (offset + Text.bytes l + 1) ls

/-- The lines of the markup, each with whether a preformatted element is open at its start. -/
def insideLines (markup : Text) : List (Bool × Text) := insideFrom markup 0 (Text.lines markup)

/-- Every tag that opens a preformatted element meets the element that was open before the tags. -/
def opensApart (before : Option Text) : Option Text → List Tag → Bool
  | _, [] => true
  | now, tag :: ts =>
    (!tag.opensPreformatted || now == before) && opensApart before (openBehind now tag) ts

/-- The tags that start on the line from one byte to another. -/
def tagsOn (markup : Text) (start stop : Nat) : List Tag :=
  ((tags (mask markup)).dropWhile fun tag => tag.start < start).takeWhile fun tag =>
    tag.start < stop

/-- On none of the lines from a byte on a preformatted element is opened behind a tag of the line
that opens or closes another one. -/
def apartFrom (markup : Text) : Nat → List Text → Bool
  | _, [] => true
  | offset, l :: ls =>
    opensApart (openAt markup offset) (openAt markup offset)
        (tagsOn markup offset (offset + Text.bytes l)) &&
      apartFrom markup (offset + Text.bytes l + 1) ls

/-- On no line a preformatted element is opened behind a tag of the line that opens or closes
another one. -/
def Apart (markup : Text) : Prop := apartFrom markup 0 (Text.lines markup) = true

instance (markup : Text) : Decidable (Apart markup) :=
  inferInstanceAs (Decidable (apartFrom markup 0 (Text.lines markup) = true))

theorem foldl_openBehind_some {name : Text} {ts : List Tag}
    (h : ts.any (fun tag => tag.closing && tag.name == name) = false) :
    ts.foldl openBehind (some name) = some name := by
  induction ts with
  | nil => rfl
  | cons tag ts ih =>
    rw [List.any_cons, Bool.or_eq_false_iff] at h
    rw [List.foldl_cons, openBehind, if_neg (by simp [h.1]), ih h.2]

/-- Behind the closing tag of an element that was open before the line no other one is opened. -/
theorem foldl_openBehind_none {name : Text} {ts : List Tag}
    (h : opensApart (some name) none ts = true) : ts.foldl openBehind none = none := by
  induction ts with
  | nil => rfl
  | cons tag ts ih =>
    rw [opensApart, Bool.and_eq_true] at h
    have hopens : tag.opensPreformatted = false := by simpa using h.1
    have hnone : openBehind none tag = none := by simp [openBehind, hopens]
    rw [hnone] at h
    rw [List.foldl_cons, hnone, ih h.2]

theorem foldl_openBehind_closed {name : Text} {ts : List Tag}
    (hapart : opensApart (some name) (some name) ts = true)
    (h : ts.any (fun tag => tag.closing && tag.name == name) = true) :
    ts.foldl openBehind (some name) = none := by
  induction ts with
  | nil => exact absurd h (by simp)
  | cons tag ts ih =>
    rw [opensApart, Bool.and_eq_true] at hapart
    rw [List.foldl_cons]
    by_cases hclose : (tag.closing && tag.name == name) = true
    · have hnone : openBehind (some name) tag = none := if_pos hclose
      rw [hnone] at hapart ⊢
      exact foldl_openBehind_none hapart.2
    · have hsame : openBehind (some name) tag = some name := if_neg hclose
      rw [hsame] at hapart ⊢
      rw [List.any_cons, Bool.or_eq_true] at h
      exact ih hapart.2 (h.resolve_left hclose)

/-- A tag outside preformatted elements leaves open what the layout says. -/
theorem preformatted_add (line : Text) (offset : Nat) {s : LineTags} {tag : Tag}
    (h : tag.opensPreformatted = true → s.preformatted = none) :
    (LineTags.add line offset s tag).preformatted = openBehind s.preformatted tag := by
  unfold Tag.opensPreformatted at h
  unfold LineTags.add openBehind Tag.opensPreformatted
  by_cases hclosing : tag.closing = true
  · simp only [hclosing, if_true, Bool.not_true, Bool.false_and, Bool.true_and]
    cases s.preformatted with
    | none => rfl
    | some name =>
      by_cases hname : name = tag.name
      · simp [hname]
      · simp [hname, Ne.symm hname]
  · rw [Bool.not_eq_true] at hclosing
    by_cases hopens : tag.opens = true
    · by_cases hname : preformattedElements.contains tag.name = true
      · have hnone : s.preformatted = none := h (by rw [hclosing, hopens, hname]; rfl)
        simp only [hclosing, hopens, hname, hnone]
        rfl
      · rw [Bool.not_eq_true] at hname
        simp only [hclosing, hopens, hname]
        cases s.preformatted <;> rfl
    · rw [Bool.not_eq_true] at hopens
      simp only [hclosing, hopens]
      cases s.preformatted <;> rfl

/-- The tags of a line outside preformatted elements, one after the other. -/
theorem preformatted_foldl_add (line : Text) (offset : Nat) {ts : List Tag} {s : LineTags}
    (h : opensApart none s.preformatted ts = true) :
    (ts.foldl (LineTags.add line offset) s).preformatted = ts.foldl openBehind s.preformatted := by
  induction ts generalizing s with
  | nil => rfl
  | cons tag ts ih =>
    rw [opensApart, Bool.and_eq_true] at h
    have hadd : (LineTags.add line offset s tag).preformatted = openBehind s.preformatted tag :=
      preformatted_add line offset fun hopens => by simpa [hopens] using h.1
    rw [List.foldl_cons, List.foldl_cons, ← hadd]
    refine ih ?_
    rw [hadd]
    exact h.2

namespace Layout

variable {s : Layout} {m : Text} {l : Flagged} {ls : List Flagged}

/-- **A line leaves open what its tags leave open**, if it opens no preformatted element behind
another.
-/
theorem preformatted_addLine (raw masked : Text)
    (h : opensApart s.preformatted s.preformatted (s.here raw) = true)
    (hblank : Text.isBlank raw = true → s.here raw = []) :
    (s.addLine raw masked).preformatted = (s.here raw).foldl openBehind s.preformatted := by
  cases hpre : s.preformatted with
  | some name =>
    rw [hpre] at h
    unfold addLine
    simp only [hpre]
    unfold preformattedLine
    cases hany : (s.here raw).any fun tag => tag.closing && tag.name == name with
    | true =>
      rw [foldl_openBehind_closed h hany]
      rw [here] at hany
      simp only [hany, if_true]
    | false =>
      rw [foldl_openBehind_some hany]
      rw [here] at hany
      simp only [hany]
      rfl
  | none =>
    rw [hpre] at h
    cases hraw : Text.isBlank raw with
    | true =>
      rw [hblank hraw]
      exact (addLine_blank masked hpre hraw).2.2
    | false =>
      unfold addLine
      simp only [hpre, List.isEmpty_iff, if_neg (Text.trim_ne_nil hraw)]
      exact preformatted_foldl_add masked s.offset (s := { leading := _ }) h

theorem takeWhile_append_of_imp {α : Type} {p q : α → Bool} (h : ∀ x, p x = true → q x = true)
    (l : List α) : l.takeWhile q = l.takeWhile p ++ (l.dropWhile p).takeWhile q := by
  induction l with
  | nil => rfl
  | cons x l ih =>
    by_cases hx : p x = true
    · rw [List.takeWhile_cons_of_pos hx, List.dropWhile_cons_of_pos hx,
        List.takeWhile_cons_of_pos (h x hx), ih, List.cons_append]
    · rw [List.takeWhile_cons_of_neg hx, List.dropWhile_cons_of_neg hx, List.nil_append]

theorem AtLines.here_eq {markup : Text} (h : AtLines (mask markup) (l :: ls) s) :
    s.here l.text = tagsOn markup s.offset (s.offset + Text.bytes l.text) := by
  rw [here, (h (List.cons_ne_nil l ls)).cursor]
  rfl

/-- What is open at the next line is what the tags of the line leave open. -/
theorem AtLines.openAt_next {markup : Text} (h : AtLines (mask markup) (l :: ls) s)
    (hne : ls ≠ []) :
    openAt markup (s.offset + Text.bytes l.text + 1) =
      (s.here l.text).foldl openBehind (openAt markup s.offset) := by
  have hreads := h (List.cons_ne_nil l ls)
  rw [List.map_cons, Text.unlines_cons _ (by simpa using hne)] at hreads
  have hsame : (Markup.tags (mask markup)).takeWhile
        (fun tag => tag.start < s.offset + Text.bytes l.text + 1) =
      (Markup.tags (mask markup)).takeWhile fun tag =>
        tag.start < s.offset + Text.bytes l.text := by
    refine takeWhile_congr fun tag htag => decide_eq_decide.mpr ?_
    have := hreads.start_ne htag
    omega
  have hcut := takeWhile_append_of_imp (p := fun tag : Tag => tag.start < s.offset)
    (q := fun tag => tag.start < s.offset + Text.bytes l.text)
    (fun tag htag => by simp only [decide_eq_true_eq] at htag ⊢; omega) (Markup.tags (mask markup))
  rw [openAt, hsame, hcut, List.foldl_append, h.here_eq]
  rfl

/-- **The layout agrees with the tags**, by induction on the lines. -/
theorem met_eq_insideFrom {markup : Text} (hat : AtLines (mask markup) ls s)
    (hopen : s.preformatted = openAt markup s.offset)
    (hapart : apartFrom markup s.offset (ls.map Flagged.text) = true) :
    s.met ls = insideFrom markup s.offset (ls.map Flagged.text) := by
  induction ls generalizing s with
  | nil => rfl
  | cons l ls ih =>
    rw [List.map_cons, apartFrom, Bool.and_eq_true, ← hopen, ← hat.here_eq] at hapart
    rw [met, List.map_cons, insideFrom, ← hopen]
    congr 1
    by_cases hne : ls = []
    · subst hne
      rfl
    have hblank : Text.isBlank l.text = true → s.here l.text = [] := by
      intro hblank
      by_contra hhere
      exact absurd (hblank.symm.trans (hat.not_blank hhere)) (by decide)
    have hnext := preformatted_addLine l.text l.masked hapart.1 hblank
    rw [hopen, ← hat.openAt_next hne, ← offset_addLine s l.text l.masked] at hnext
    have hrest := hapart.2
    rw [← offset_addLine s l.text l.masked] at hrest ⊢
    exact ih hat.next hnext hrest

end Layout

/-- **Which lines are met inside a preformatted element** is what the tags say, if no such element
is opened on a line behind a tag of the line that opens or closes another one. -/
theorem metLines_eq_insideLines {markup : Text} (h : Apart markup) :
    Html.metLines markup = insideLines markup := by
  have htext : (flagged markup).lines.map Flagged.text = Text.lines markup := by
    rw [← Flagged.text_lines, text_flagged]
  have hopen : (Html.start markup).preformatted = openAt markup (Html.start markup).offset := by
    have hnone : (fun tag : Tag => decide (tag.start < 0)) = fun _ => false := by
      funext tag
      simp
    show none =
      ((tags (mask markup)).takeWhile fun tag => decide (tag.start < 0)).foldl openBehind none
    rw [hnone]
    cases tags (mask markup) <;> rfl
  rw [Html.metLines, insideLines, ← htext]
  refine Layout.met_eq_insideFrom (Html.atLines_start markup) hopen ?_
  rw [htext]
  exact h

/-! ## The output -/

namespace Html

theorem newline_notMem_put {page : Page} {level : Nat} {t : Text} (ht : '\n' ∉ t) :
    '\n' ∉ page.indentation level ++ Text.trim t := by
  rw [List.mem_append, not_or]
  refine ⟨fun hm => ?_, fun hm => ht ((Text.trim_isInfix t).subset hm)⟩
  exact absurd (Render.isSpace_of_mem_indentation hm) (by decide)

theorem newline_notMem_puts {pending full : Bool} {ls : List (Bool × Text)} {ps : List Put}
    (h : Puts pending full ls ps) (page : Page) (hls : ∀ l ∈ ls, '\n' ∉ l.2) :
    ∀ t ∈ ps.flatMap (Put.lines page), '\n' ∉ t := by
  induction h with
  | nil => simp
  | kept raw h ih =>
    obtain ⟨hraw, hls⟩ := List.forall_mem_cons.mp hls
    rw [List.flatMap_cons, List.forall_mem_append]
    refine ⟨fun t ht => ?_, ih hls⟩
    rw [List.mem_singleton.mp ht]
    exact fun hm => hraw ((Text.trimEnd_isInfix raw).subset hm)
  | blank hraw h ih => exact ih (List.forall_mem_cons.mp hls).2
  | @line pending level raw hraw ls ps h ih =>
    obtain ⟨hline, hls⟩ := List.forall_mem_cons.mp hls
    rw [List.flatMap_cons, List.forall_mem_append]
    refine ⟨fun t ht => ?_, ih hls⟩
    rcases List.mem_append.mp ht with ht | ht
    · cases pending with
      | false => exact absurd ht List.not_mem_nil
      | true =>
        rw [List.mem_singleton.mp ht]
        exact List.not_mem_nil
    · rw [List.mem_singleton.mp ht]
      exact newline_notMem_put hline

theorem newline_notMem_putLines {ls : List (Bool × Text)} {put : Option (Text × List Put)}
    (h : Begins ls put) (page : Page) (hls : ∀ l ∈ ls, '\n' ∉ l.2) :
    ∀ t ∈ putLines page put, '\n' ∉ t := by
  induction h with
  | nil => exact fun t ht => absurd ht List.not_mem_nil
  | blank hraw h ih => exact ih (List.forall_mem_cons.mp hls).2
  | @first raw hraw ls ps h =>
    obtain ⟨hline, hls⟩ := List.forall_mem_cons.mp hls
    refine List.forall_mem_cons.mpr ⟨fun hm => ?_, newline_notMem_puts h page hls⟩
    exact hline ((Text.trim_isInfix raw).subset hm)

/-- **The lines of the output** are the lines that are put, and blank lines. -/
theorem exists_lines_render (page : Page) (markup : Text) : ∃ put tail,
    Begins (metLines markup) put ∧ (∀ l ∈ tail, l = []) ∧
      Text.lines ((formatLines markup).render page) = putLines page put ++ tail := by
  obtain ⟨put, last, hbegins, hlast, hrender⟩ := exists_begins page markup
  have hls : ∀ l ∈ metLines markup, '\n' ∉ l.2 := by
    intro l hl
    refine Text.not_mem_line (t := markup) ?_
    rw [← map_snd_metLines]
    exact List.mem_map_of_mem hl
  rw [hrender]
  by_cases hnil : putLines page put = []
  · rw [hnil]
    rcases hlast with rfl | rfl
    · exact ⟨put, [[]], hbegins, by simp, by rw [hnil]; rfl⟩
    · exact ⟨put, [[], []], hbegins, by simp, by rw [hnil]; rfl⟩
  · obtain ⟨tail, htail, hlines⟩ :=
      lines_unlines_append hnil (newline_notMem_putLines hbegins page hls) hlast
    refine ⟨put, tail, hbegins, ?_, hlines⟩
    rcases htail with rfl | rfl <;> simp

theorem format_eq_formatLines {embedded : Bool} {markup : Text}
    (h : embedded = true → '\n' ∈ Text.replace ['\r', '\n'] ['\n'] markup) :
    format embedded markup = formatLines (Text.replace ['\r', '\n'] ['\n'] markup) := by
  unfold format
  refine if_neg fun hone => ?_
  rw [Bool.and_eq_true, Bool.not_eq_true', List.any_eq_false] at hone
  exact hone.2 '\n' (h hone.1) (by decide)

/-- **The lines of markup are kept**, in a whole document or in a block body of several lines. Which
of them are inside preformatted elements is what the tags say, unless such an element is opened on a
line behind a tag of the line that opens or closes another one. -/
theorem format_keeps_lines (page : Page) (embedded : Bool) (markup : Text)
    (h : embedded = true → '\n' ∈ Text.replace ['\r', '\n'] ['\n'] markup) :
    KeepsLines (metLines (Text.replace ['\r', '\n'] ['\n'] markup))
        (Text.lines ((format embedded markup).render page)) ∧
      (Apart (Text.replace ['\r', '\n'] ['\n'] markup) →
        metLines (Text.replace ['\r', '\n'] ['\n'] markup) =
          insideLines (Text.replace ['\r', '\n'] ['\n'] markup)) := by
  refine ⟨?_, metLines_eq_insideLines⟩
  rw [format_eq_formatLines h]
  obtain ⟨put, tail, hbegins, htail, hlines⟩ :=
    exists_lines_render page (Text.replace ['\r', '\n'] ['\n'] markup)
  rw [hlines]
  exact keepsLines_of_begins hbegins page fun l hl => by rw [htail l hl]; rfl

/-- A preformatted element between other lines, with blank lines in it and around it. -/
theorem format_keeps_lines_pre : ∃ markup,
    Text.replace ['\r', '\n'] ['\n'] markup = "<p>\n\n\n  <pre>\n   a  \n\n</pre>\n\nb".toList ∧
      Apart "<p>\n\n\n  <pre>\n   a  \n\n</pre>\n\nb".toList ∧
        KeepsLines
          [(false, "<p>".toList), (false, []), (false, []), (false, "  <pre>".toList),
            (true, "   a  ".toList), (true, []), (true, "</pre>".toList), (false, []),
            (false, "b".toList)]
          ["<p>".toList, [], "  <pre>".toList, "   a".toList, [], "</pre>".toList, [], "  b".toList,
            []] := by
  have h := format_keeps_lines {} true "<p>\n\n\n  <pre>\n   a  \n\n</pre>\n\nb".toList
    (by decide +kernel)
  have hreplace :
      Text.replace ['\r', '\n'] ['\n'] "<p>\n\n\n  <pre>\n   a  \n\n</pre>\n\nb".toList =
        "<p>\n\n\n  <pre>\n   a  \n\n</pre>\n\nb".toList := by decide +kernel
  have hmet : metLines "<p>\n\n\n  <pre>\n   a  \n\n</pre>\n\nb".toList =
      [(false, "<p>".toList), (false, []), (false, []), (false, "  <pre>".toList),
        (true, "   a  ".toList), (true, []), (true, "</pre>".toList), (false, []),
        (false, "b".toList)] := by decide +kernel
  have hrender :
      Text.lines ((format true "<p>\n\n\n  <pre>\n   a  \n\n</pre>\n\nb".toList).render {}) =
      ["<p>".toList, [], "  <pre>".toList, "   a".toList, [], "</pre>".toList, [], "  b".toList,
        []] := by
    decide +kernel
  rw [hreplace, hmet, hrender] at h
  exact ⟨_, hreplace, by decide +kernel, h.1⟩

/-- **A preformatted body is indented** if its element is opened on the line on which another one is
closed: the layout does not see that it is open. -/
theorem format_loses_indentation :
    (true, "   keep".toList) ∈ insideLines "<pre>\na\n</pre><pre>\n   keep\n</pre>\n".toList ∧
      (format false "<pre>\na\n</pre><pre>\n   keep\n</pre>\n".toList).render {} =
        "<pre>\na\n</pre><pre>\nkeep\n</pre>\n".toList := by
  decide +kernel

end Html

end Markup

end TemplateFormat
