import TemplateFormat.Proofs.Doc.Ends
import TemplateFormat.Proofs.Doc.Steps

/-!
# Flat groups keep to the page

A group that is met in broken mode becomes flat if it fits: a simulation prints the group flat, and
what comes after it up to the next possible line break. The simulation takes later groups as broken,
but a later group that becomes flat has passed a simulation of its own, from where the line stands
then. So `fits` is itself what the steps on the line keep: in every state on the line the stack fits
into what is left of it (`fits_stay`), and at its end the line is no wider than the page.

The column that the renderer counts is the width of the line: `page.tabWidth` for each level of
indentation and one for each character after it (`measured_of_reached`).

Results:
* `fits_congr`: indentation does not matter to what fits.
* `fits_stay`: a step on the line keeps what fits.
* `measured_of_reached`: the line that is being written, and its width.
* `flat_group_within_width`: the line of a group that is printed flat keeps to the page.
-/

namespace TemplateFormat

namespace Render

open Doc (Within)

/-! ## What fits -/

theorem nonneg_of_fits {room : Int} {stack : List Command} (h : fits room stack = true) :
    0 ≤ room := by
  by_contra hroom
  rw [fits.eq_def, if_pos (Int.not_le.mp hroom)] at h
  exact absurd h (by simp)

/-- What the simulation does with a command. -/
theorem fits_cons {room : Int} (hroom : 0 ≤ room) (indent : Nat) (mode : Mode) (doc : Doc)
    (rest : List Command) : fits room (⟨indent, mode, doc⟩ :: rest) =
      match doc with
      | .empty => fits room rest
      | .text t => fits (room - t.length) rest
      | .concat docs => fits room (commands indent mode docs ++ rest)
      | .indent doc => fits room (⟨indent, mode, doc⟩ :: rest)
      | .group doc broken => fits room (⟨indent, if broken then .broken else mode, doc⟩ :: rest)
      | .line kind =>
        if mode = .broken || kind.isForced then true
        else fits (if kind = .normal then room - 1 else room) rest := by
  have hnot : ¬ room < 0 := Int.not_lt.mpr hroom
  cases doc <;> exact (fits.eq_def _ _).trans (if_neg hnot)

/-- A command without its indentation. -/
def Command.bare (c : Command) : Mode × Doc := (c.mode, c.doc)

theorem bare_commands (indent : Nat) (mode : Mode) (ds : List Doc) :
    (commands indent mode ds).map Command.bare = ds.map (Prod.mk mode) := by
  simp [commands, Command.bare]

theorem eq_cons_of_bare {indent : Nat} {mode : Mode} {doc : Doc} {rest stack : List Command}
    (h : (⟨indent, mode, doc⟩ :: rest).map Command.bare = stack.map Command.bare) :
    ∃ indent' rest', stack = ⟨indent', mode, doc⟩ :: rest' ∧
      rest.map Command.bare = rest'.map Command.bare := by
  obtain ⟨⟨indent', mode', doc'⟩, rest', rfl, hc, hrest⟩ := List.map_eq_cons_iff.mp h.symm
  obtain ⟨rfl, rfl⟩ := Prod.mk.inj hc
  exact ⟨indent', rest', rfl, hrest.symm⟩

/-- **Indentation does not matter to what fits**, by induction on the simulation. -/
theorem fits_congr {room : Int} {stack stack' : List Command}
    (h : stack.map Command.bare = stack'.map Command.bare) : fits room stack = fits room stack' := by
  fun_induction fits room stack generalizing stack' with
  | case1 room stack hroom => rw [fits.eq_def, if_pos hroom]
  | case2 room hroom =>
    obtain rfl := List.map_eq_nil_iff.mp h.symm
    rw [fits.eq_def, if_neg hroom]
  | case3 room hroom indent mode rest ih =>
    obtain ⟨indent', rest', rfl, hrest⟩ := eq_cons_of_bare h
    rw [fits_cons (Int.not_lt.mp hroom) indent', ih hrest]
  | case4 room hroom indent mode rest t ih =>
    obtain ⟨indent', rest', rfl, hrest⟩ := eq_cons_of_bare h
    rw [fits_cons (Int.not_lt.mp hroom) indent', ih hrest]
  | case5 room hroom indent mode rest ds ih =>
    obtain ⟨indent', rest', rfl, hrest⟩ := eq_cons_of_bare h
    rw [fits_cons (Int.not_lt.mp hroom) indent']
    refine ih ?_
    rw [List.map_append, List.map_append, bare_commands, bare_commands, hrest]
  | case6 room hroom indent mode rest d ih =>
    obtain ⟨indent', rest', rfl, hrest⟩ := eq_cons_of_bare h
    rw [fits_cons (Int.not_lt.mp hroom) indent']
    exact ih (congrArg ((mode, d) :: ·) hrest)
  | case7 room hroom indent mode rest d broken ih =>
    obtain ⟨indent', rest', rfl, hrest⟩ := eq_cons_of_bare h
    rw [fits_cons (Int.not_lt.mp hroom) indent']
    exact ih (congrArg ((if broken then Mode.broken else mode, d) :: ·) hrest)
  | case8 room hroom indent mode rest kind hbreak =>
    obtain ⟨indent', rest', rfl, hrest⟩ := eq_cons_of_bare h
    rw [fits_cons (Int.not_lt.mp hroom) indent']
    exact (if_pos hbreak).symm
  | case9 room hroom indent mode rest kind hbreak ih =>
    obtain ⟨indent', rest', rfl, hrest⟩ := eq_cons_of_bare h
    rw [fits_cons (Int.not_lt.mp hroom) indent']
    exact (ih hrest).trans (if_neg hbreak).symm

theorem fits_indent (room : Int) (indent indent' : Nat) (mode : Mode) (doc : Doc)
    (rest : List Command) :
    fits room (⟨indent, mode, doc⟩ :: rest) = fits room (⟨indent', mode, doc⟩ :: rest) :=
  fits_congr rfl

/-! ## The steps on a line -/

/-- The columns that are left are counted right, as long as the numbers are signed words. -/
theorem room_eq {page : Page} {column : Nat} (hwidth : page.printWidth < Word64.half)
    (hcolumn : column < Word64.half) : page.room column = (page.printWidth : Int) - column := by
  refine Word64.signed_of_isSigned ?_
  rw [Word64.isSigned, Bool.and_eq_true, decide_eq_true_eq, decide_eq_true_eq]
  omega

/-- The stack fits into what is left of the line. -/
def State.Fits (page : Page) (s : State) : Prop :=
  fits ((page.printWidth : Int) - s.out.column) s.stack = true

theorem State.Fits.column_le {page : Page} {s : State} (h : s.Fits page) :
    s.out.column ≤ page.printWidth := by
  have := nonneg_of_fits h
  omega

/-- The mode of a group agrees with the simulation: it is what the simulation took the group for, or
flat because the group fits. -/
theorem fits_groupMode {page : Page} {column indent : Nat} {mode : Mode} {e : Doc} {broken : Bool}
    {rest : List Command} (hroom : page.room column = (page.printWidth : Int) - column)
    (h : fits ((page.printWidth : Int) - column)
      (⟨indent, if broken then .broken else mode, e⟩ :: rest) = true) :
    fits ((page.printWidth : Int) - column)
      (⟨indent, groupMode page column indent mode e broken rest, e⟩ :: rest) = true := by
  unfold groupMode
  by_cases hbroken : broken = true
  · rw [if_pos hbroken] at h ⊢
    exact h
  · rw [if_neg hbroken] at h ⊢
    cases mode with
    | flat => exact h
    | broken =>
      rw [hroom]
      by_cases hfits : fits ((page.printWidth : Int) - column) (⟨indent, .flat, e⟩ :: rest) = true
      · simp only [hfits, if_true]
      · simp only [hfits]
        exact h

/-- **A step on the line keeps what fits.** -/
theorem fits_stay {page : Page} (hwidth : page.printWidth < Word64.half) {s t : State}
    (hstep : Stays page s t) (h : s.Fits page) : t.Fits page := by
  have hcolumn := h.column_le
  have hroom := nonneg_of_fits h
  obtain ⟨rest, o, levels, hopens⟩ := hstep
  rename_i c
  obtain ⟨indent, mode, doc⟩ := c
  unfold State.Fits at h ⊢
  rw [fits_cons hroom] at h
  cases doc with
  | empty => exact h
  | text t =>
    show fits (_ - ((o.column + t.length : Nat) : Int)) rest = true
    rw [Int.natCast_add, ← Int.sub_sub]
    exact h
  | concat ds => exact h
  | indent d => exact (fits_indent _ (indent + 1) indent mode d rest).trans h
  | group e broken =>
    exact fits_groupMode (room_eq hwidth (Nat.lt_of_le_of_lt hcolumn hwidth)) h
  | line kind =>
    cases mode <;> cases kind <;> simp [Command.opens?, Line.isForced] at hopens
    · exact h
    · show fits (_ - ((o.column + 1 : Nat) : Int)) rest = true
      rw [Int.natCast_add, ← Int.sub_sub]
      exact h

/-! ## The width of a line -/

/-- The line that is being written. -/
def Output.line (o : Output) : Text := (o.chars.takeWhile (· != '\n')).reverse

/-- The line is a text after its indentation, and the column is its width: `page.tabWidth` for each
level of indentation, and one for each character of the text. -/
structure State.Measured (page : Page) (s : State) (t : Text) : Prop where
  unbroken : '\n' ∉ t
  chars : ∃ before, s.out.chars = t.reverse ++ (page.indentation s.levels ++ before) ∧
    ∀ c ∈ before.head?, c = '\n'
  column : s.out.column = s.levels * page.tabWidth + t.length

theorem State.Measured.line_eq {page : Page} {s : State} {t : Text} (h : s.Measured page t) :
    s.out.line = page.indentation s.levels ++ t := by
  obtain ⟨before, hchars, hbefore⟩ := h.chars
  have hline : ∀ c ∈ t.reverse ++ page.indentation s.levels, (c != '\n') = true := by
    intro c hc
    rw [bne_iff_ne]
    rintro rfl
    rcases List.mem_append.mp hc with hc | hc
    · exact h.unbroken (List.mem_reverse.mp hc)
    · exact absurd (isSpace_of_mem_indentation hc) (by decide)
  have hrest : before.takeWhile (· != '\n') = [] := by
    cases before with
    | nil => rfl
    | cons c before => rw [hbefore c rfl]; rfl
  rw [Output.line, hchars, ← List.append_assoc, List.takeWhile_append_of_pos hline, hrest,
    List.append_nil, List.reverse_append, List.reverse_reverse, indentation_reverse]

/-- A step on the line writes on it. -/
theorem measured_stay {page : Page} {s s' : State} {t : Text} (hstep : Stays page s s')
    (hstack : ∀ c ∈ s.stack, '\n' ∉ c.ink) (h : s.Measured page t) :
    ∃ t', s'.Measured page t' := by
  obtain ⟨rest, o, levels, hopens⟩ := hstep
  rename_i c
  have hink := hstack c List.mem_cons_self
  obtain ⟨before, hchars, hbefore⟩ := h.chars
  refine ⟨t ++ c.ink, ?_, ⟨before, ?_, hbefore⟩, ?_⟩
  · exact fun hmem => (List.mem_append.mp hmem).elim h.unbroken hink
  · rw [step_of_ink hopens]
    show c.ink.reverse ++ o.chars = _
    rw [show o.chars = _ from hchars, List.reverse_append, List.append_assoc]
  · rw [step_of_ink hopens, List.length_append, ← Nat.add_assoc, ← h.column]
    rfl

/-- A step that starts a line starts it with its indentation. -/
theorem measured_break {page : Page} {s s' : State} (hstep : Breaks page s s') :
    s'.Measured page [] := by
  obtain ⟨rest, o, levels, hopens⟩ := hstep
  rename_i c next
  obtain ⟨kind, -, hnext⟩ := step_of_opens? hopens page rest o
  rw [hnext]
  by_cases hsettled : o.settled = []
  · have hempty : o.newline page next kind.collapses = ⟨[], 0⟩ := by
      unfold Output.newline
      rw [show o.chars.dropWhile isSpace = [] from hsettled]
    rw [hempty, if_pos hsettled]
    refine ⟨List.not_mem_nil, ⟨[], ?_, by simp⟩, by simp⟩
    simp [Page.indentation]
  · rw [newline_of_settled page next kind.collapses hsettled, if_neg hsettled]
    refine ⟨List.not_mem_nil, ⟨_, rfl, ?_⟩, rfl⟩
    intro b hb
    split at hb
    · -- no line feed is added: the output ends with one
      rename_i hblank
      obtain ⟨c, cs, hcs⟩ := List.exists_cons_of_ne_nil hsettled
      rw [hcs] at hblank hb
      rw [Bool.and_eq_true] at hblank
      rw [← Option.some.inj hb]
      exact eq_newline_of_endsBlank hblank.2
    · exact (Option.some.inj hb).symm

/-- **In every state that is reached, the column is the width of the line.** -/
theorem measured_of_reached {page : Page} {d : Doc} (hd : ∀ t ∈ d.leaves, '\n' ∉ t) {s : State}
    (h : Reached page d s) : ∃ t, s.Measured page t := by
  induction h with
  | refl =>
    refine ⟨[], List.not_mem_nil, ⟨[], ?_, by simp⟩, ?_⟩
    · simp [State.start, Page.indentation]
    · simp [State.start]
  | tail hreached hstep ih =>
    obtain ⟨t, ht⟩ := ih
    rcases hstep with hstep | hstep
    · exact measured_stay hstep (newline_notMem_ink hd hreached) ht
    · exact ⟨[], measured_break hstep⟩

/-- **The line of a group that is printed flat keeps to the page.** Whenever a group that is met in
broken mode becomes flat, the line on which it stands is completed later on, with all that is
printed after the group, and it is no wider than the page then: `page.tabWidth` columns for each
level of its indentation, and one for each character after it. Columns are signed words here, so
they have to be below `Word64.half`. -/
theorem flat_group_within_width {page : Page} {d : Doc} (hd : ∀ t ∈ d.leaves, '\n' ∉ t)
    (hwidth : page.printWidth < Word64.half) {indent levels : Nat} {e : Doc} {broken : Bool}
    {rest : List Command} {o : Output}
    (hreached : Reached page d ⟨⟨indent, .broken, .group e broken⟩ :: rest, o, levels⟩)
    (hcolumn : o.column < Word64.half)
    (hflat : groupMode page o.column indent .broken e broken rest = .flat) :
    ∃ s, OnLine page ⟨⟨indent, .broken, .group e broken⟩ :: rest, o, levels⟩ s ∧ s.Completed ∧
      ∃ t, s.out.line = page.indentation levels ++ t ∧
        levels * page.tabWidth + t.length ≤ page.printWidth := by
  have hdecide : Stays page ⟨⟨indent, .broken, .group e broken⟩ :: rest, o, levels⟩
      ⟨⟨indent, .flat, e⟩ :: rest, o, levels⟩ := by
    rw [← hflat]
    exact .intro rest o levels rfl
  have hfits : State.Fits page ⟨⟨indent, .flat, e⟩ :: rest, o, levels⟩ := by
    unfold groupMode at hflat
    split at hflat
    · exact absurd hflat (by simp)
    · simp only [room_eq hwidth hcolumn] at hflat
      by_contra hnot
      exact absurd ((if_neg hnot).symm.trans hflat) (by simp)
  obtain ⟨s, hline, hend, hs⟩ := exists_completed (fits_stay hwidth) hfits
  have hline' := Relation.ReflTransGen.head hdecide hline
  obtain ⟨t, ht⟩ := measured_of_reached hd (OnLine.reached hline' hreached)
  refine ⟨s, hline', hend, t, ?_, ?_⟩
  · rw [ht.line_eq, OnLine.levels_eq hline']
  · calc levels * page.tabWidth + t.length = s.out.column := by
          rw [ht.column, OnLine.levels_eq hline']
      _ ≤ page.printWidth := hs.column_le

/-- The group on the second line fits with the text after it: two columns of indentation and five
characters on a page of width seven. -/
theorem flat_group_within_width_full :
    let page : Page := { printWidth := 7 }
    let e : Doc := .concat [.text ['a', 'a'], .softline, .text ['b']]
    let d : Doc := .indent (.concat [.text ['x'], .hardline, .group e false, .text ['c', 'c']])
    let s : State := ⟨[⟨1, .broken, .group e false⟩, ⟨1, .broken, .text ['c', 'c']⟩],
      ⟨[' ', ' ', '\n', 'x'], 2⟩, 1⟩
    Reached page d s ∧ ∃ s', OnLine page s s' ∧ s'.Completed ∧
      ∃ t, s'.out.line = page.indentation 1 ++ t ∧ 1 * page.tabWidth + t.length ≤ 7 := by
  intro page e d s
  have hreached : Reached page d s := by
    have hparts : Reached page d _ :=
      (Relation.ReflTransGen.single (.inl (.intro [] ⟨[], 0⟩ 0 rfl))).tail (.inl (.intro _ _ _ rfl))
    exact (hparts.tail (.inl (.intro _ _ _ rfl))).tail (.inr (.intro _ _ _ rfl))
  refine ⟨hreached, flat_group_within_width ?_ (by decide) hreached (by decide) ?_⟩
  · decide
  · decide +kernel

end Render

end TemplateFormat
