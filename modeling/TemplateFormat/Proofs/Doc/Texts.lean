import TemplateFormat.Proofs.Doc.Ends
import TemplateFormat.Proofs.Doc.Steps

/-!
# The texts of a document in the output

Line breaks drop spaces and tabs at the end of a line, and add line feeds and indentation. All else
in the output comes from the texts of the document, in their order: `Text.dense` leaves out spaces,
tabs and line feeds, and the dense texts of the output and of the stack together stay the same from
step to step. Breaks that collapse add no line feed after a blank line, so no three line feeds come
together.

Results:
* `dense_step`: a step moves text from the stack to the output.
* `collapsed_newline`: a break that collapses leaves one blank line at most.
* `Doc.render_keeps_texts`: the output has the texts of the document, and no two blank lines.
-/

namespace TemplateFormat

namespace Text

/-- The text without spaces, tabs and line feeds. -/
def dense (t : Text) : Text := t.filter fun c => !(isSpace c || c == '\n')

theorem dense_append (s t : Text) : dense (s ++ t) = dense s ++ dense t := List.filter_append ..

theorem dense_reverse (t : Text) : dense t.reverse = (dense t).reverse := List.filter_reverse

theorem dense_eq_nil {t : Text} (h : ∀ c ∈ t, isSpace c = true ∨ c = '\n') : dense t = [] := by
  refine List.filter_eq_nil_iff.mpr fun c hc => ?_
  rcases h c hc with h | rfl
  · simp [h]
  · decide

theorem dense_dropWhile (t : Text) : dense (t.dropWhile isSpace) = dense t := by
  have hspaces : dense (t.takeWhile isSpace) = [] :=
    dense_eq_nil fun c hc => .inl (List.mem_takeWhile_imp hc)
  conv_rhs => rw [← List.takeWhile_append_dropWhile (p := isSpace) (l := t), dense_append, hspaces]
  rfl

/-- Without line feeds, a text is dense without its spaces and tabs. -/
theorem dense_of_notMem {t : Text} (h : '\n' ∉ t) : dense t = t.filter fun c => !isSpace c := by
  refine List.filter_congr fun c hc => ?_
  have hne : (c == '\n') = false := beq_eq_false_iff_ne.mpr fun he => h (he ▸ hc)
  rw [hne, Bool.or_false]

/-- No three line feeds come together. -/
def Collapsed (t : Text) : Prop := ¬ ['\n', '\n', '\n'] <:+: t

theorem Collapsed.append {s t : Text} (h : Collapsed t) (hs : '\n' ∉ s) : Collapsed (s ++ t) := by
  induction s with
  | nil => exact h
  | cons c s ih =>
    rw [List.mem_cons, not_or] at hs
    intro hi
    rcases List.infix_cons_iff.mp hi with hp | hi
    · exact hs.1 (List.cons_prefix_cons.mp hp).1
    · exact ih hs.2 hi

theorem Collapsed.of_isInfix {s t : Text} (h : Collapsed t) (hs : s <:+: t) : Collapsed s :=
  fun hi => h (hi.trans hs)

theorem Collapsed.reverse {t : Text} (h : Collapsed t) : Collapsed t.reverse :=
  fun hi => h (List.reverse_infix.mp (by simpa using hi))

end Text

namespace Render

/-! ## No text is lost -/

theorem dense_newline (page : Page) (levels : Nat) (collapse : Bool) (o : Output) :
    Text.dense (o.newline page levels collapse).chars = Text.dense o.chars := by
  have hindent : Text.dense (page.indentation levels) = [] :=
    Text.dense_eq_nil fun c hc => .inl (isSpace_of_mem_indentation hc)
  by_cases h : o.settled = []
  · rw [← Text.dense_dropWhile o.chars, show o.chars.dropWhile isSpace = [] from h]
    unfold Output.newline
    rw [show o.chars.dropWhile isSpace = [] from h]
  · rw [newline_of_settled page levels collapse h, Text.dense_append, hindent, List.nil_append,
      ← Text.dense_dropWhile o.chars]
    split
    · rfl
    · exact List.filter_cons_of_neg (by decide)

/-- The texts of the documents on a stack, in order. -/
def stackTexts (stack : List Command) : Text := stack.flatMap fun c => c.doc.leaves.flatten

theorem stackTexts_cons (c : Command) (rest : List Command) :
    stackTexts (c :: rest) = c.doc.leaves.flatten ++ stackTexts rest := List.flatMap_cons ..

theorem stackTexts_commands (indent : Nat) (mode : Mode) (ds : List Doc) (rest : List Command) :
    stackTexts (commands indent mode ds ++ rest) =
      (Doc.leavesAll ds).flatten ++ stackTexts rest := by
  induction ds with
  | nil => rfl
  | cons d ds ih =>
    rw [Doc.leavesAll, List.flatten_append, List.append_assoc, ← ih]
    exact stackTexts_cons _ _

/-- A command that starts no line writes what it takes off the stack; only a space of a normal break
is in none of the texts. -/
theorem dense_ink {c : Command} (h : c.opens? = none) (page : Page) (rest : List Command)
    (o : Output) : Text.dense (c.ink ++ stackTexts (step page c rest o).1) =
      Text.dense (stackTexts (c :: rest)) := by
  obtain ⟨indent, mode, doc⟩ := c
  cases doc with
  | concat ds =>
    refine congrArg Text.dense ?_
    rw [stackTexts_cons, Doc.leaves]
    exact stackTexts_commands indent mode ds rest
  | indent d =>
    refine congrArg Text.dense ?_
    rw [stackTexts_cons, Doc.leaves]
    exact stackTexts_cons _ rest
  | group d broken =>
    refine congrArg Text.dense ?_
    rw [stackTexts_cons, Doc.leaves]
    exact stackTexts_cons _ rest
  | text t => simp [stackTexts_cons, Doc.leaves, Command.ink, step]
  | line kind => cases kind <;> rfl
  | empty => rfl

/-- **A step moves text from the stack to the output**, spaces, tabs and line feeds apart. -/
theorem dense_step (page : Page) (c : Command) (rest : List Command) (o : Output) :
    Text.dense (step page c rest o).2.chars.reverse ++ Text.dense (stackTexts (step page c rest o).1) =
      Text.dense o.chars.reverse ++ Text.dense (stackTexts (c :: rest)) := by
  cases hc : c.opens? with
  | some levels =>
    obtain ⟨kind, hdoc, hstep⟩ := step_of_opens? hc page rest o
    rw [hstep, stackTexts_cons, hdoc, Text.dense_reverse, Text.dense_reverse, dense_newline]
    rfl
  | none =>
    have hwrite : (o.write c.ink).chars.reverse = o.chars.reverse ++ c.ink := by
      rw [Output.write, List.reverse_append, List.reverse_reverse]
    rw [step_of_ink hc, hwrite, Text.dense_append, List.append_assoc, ← Text.dense_append,
      dense_ink hc]

/-- In every state that is reached, the output and the stack together have the texts of the
document. -/
theorem dense_of_reached {page : Page} {d : Doc} {s : State} (h : Reached page d s) :
    Text.dense s.out.chars.reverse ++ Text.dense (stackTexts s.stack) =
      Text.dense d.leaves.flatten := by
  refine h.invariant (P := fun s => Text.dense s.out.chars.reverse ++
    Text.dense (stackTexts s.stack) = Text.dense d.leaves.flatten) ?_ ?_ ?_
  · show Text.dense [] ++ Text.dense (d.propagate.leaves.flatten ++ []) = _
    rw [Doc.leaves_propagate, List.append_nil]
    rfl
  · rintro _ _ ⟨rest, o, levels, -⟩ hs
    exact (dense_step page _ rest o).trans hs
  · rintro _ _ ⟨rest, o, levels, -⟩ hs
    exact (dense_step page _ rest o).trans hs

/-! ## Blank lines -/

theorem endsBlank_of_isPrefix {t : Text} (h : ['\n', '\n'] <+: t) : Output.endsBlank t = true := by
  obtain ⟨rest, rfl⟩ := h
  rfl

/-- **A break that collapses leaves one blank line at most.** -/
theorem collapsed_newline (page : Page) (levels : Nat) {o : Output} (h : Text.Collapsed o.chars) :
    Text.Collapsed (o.newline page levels true).chars := by
  have hindent : '\n' ∉ page.indentation levels :=
    fun hmem => absurd (isSpace_of_mem_indentation hmem) (by decide)
  have hsettled : Text.Collapsed o.settled := h.of_isInfix (List.dropWhile_suffix _).isInfix
  by_cases hempty : o.settled = []
  · unfold Output.newline
    rw [show o.chars.dropWhile isSpace = [] from hempty]
    exact fun hi => absurd hi (by simp)
  · rw [newline_of_settled page levels true hempty]
    refine Text.Collapsed.append ?_ hindent
    by_cases hblank : Output.endsBlank o.settled = true
    · simp only [hblank, Bool.and_true, if_true]
      exact hsettled
    · simp only [hblank, Bool.and_false]
      intro hi
      rcases List.infix_cons_iff.mp hi with hp | hi
      · exact hblank (endsBlank_of_isPrefix (List.cons_prefix_cons.mp hp).2)
      · exact hsettled hi

/-- In every state that is reached, no three line feeds come together, if the texts have none and
all breaks collapse. -/
theorem collapsed_of_reached {page : Page} {d : Doc} (hd : ∀ t ∈ d.leaves, '\n' ∉ t)
    (hlines : ∀ kind, Item.line kind ∈ d.items → kind.collapses = true) {s : State}
    (h : Reached page d s) : Text.Collapsed s.out.chars := by
  induction h with
  | refl => exact fun hi => absurd hi (by simp [State.start])
  | tail hreached hstep ih =>
    have hwithin := Reached.within hreached
    rcases hstep with ⟨rest, o, levels, hopens⟩ | ⟨rest, o, levels, hopens⟩
    · rename_i c
      have hink := newline_notMem_ink hd hreached c List.mem_cons_self
      rw [step_of_ink hopens]
      exact ih.append fun hmem => hink (List.mem_reverse.mp hmem)
    · rename_i c next
      obtain ⟨kind, hdoc, hstep⟩ := step_of_opens? hopens page rest o
      have hmem : Item.line kind ∈ d.items := by
        rw [← Doc.items_propagate]
        refine (hwithin c List.mem_cons_self).items_isInfix.subset ?_
        rw [hdoc, Doc.items_line]
        exact List.mem_singleton_self _
      rw [hstep, hlines kind hmem]
      exact collapsed_newline page next ih

end Render

open Render in
/-- **The output has the texts of the document, in order**: spaces, tabs and line feeds apart, it is
what its texts are without spaces and tabs. **And blank lines collapse**: if the document has no
verbatim and no literal breaks, no three line feeds come together in the output. -/
theorem Doc.render_keeps_texts (page : Page) (d : Doc) (hd : ∀ t ∈ d.leaves, '\n' ∉ t) :
    Text.dense (d.render page) = d.leaves.flatten.filter (fun c => !isSpace c) ∧
      (Item.line .verbatim ∉ d.items → Item.line .literal ∉ d.items →
        ¬ ['\n', '\n', '\n'] <:+: d.render page) := by
  have hstart : Reached page d (.start d) := .refl
  obtain ⟨levels, hend⟩ := hstart.run
  constructor
  · have hleaves : '\n' ∉ d.leaves.flatten := by
      intro hmem
      obtain ⟨t, ht, hc⟩ := List.mem_flatten.mp hmem
      exact hd t ht hc
    have hdense := dense_of_reached hend
    rw [← Text.dense_of_notMem hleaves, ← hdense, render, Text.dense_reverse,
      Text.dense_dropWhile, ← Text.dense_reverse]
    exact (List.append_nil _).symm
  · intro hverbatim hliteral
    have hlines : ∀ kind, Item.line kind ∈ d.items → kind.collapses = true := by
      intro kind hkind
      cases kind with
      | verbatim => exact absurd hkind hverbatim
      | literal => exact absurd hkind hliteral
      | soft => rfl
      | normal => rfl
      | hard => rfl
    exact ((collapsed_of_reached hd hlines hend).of_isInfix (List.dropWhile_suffix _).isInfix).reverse

/-- A line of spaces between breaks, and a break that becomes a space. -/
theorem Doc.render_keeps_texts_blank :
    let d : Doc := .concat [.text ['a', ' '], .hardline, .indent (.concat [.hardline, .text [' ', ' ']]),
      .hardline, .hardline, .group (.concat [.text ['b'], .line .normal, .text ['c']]) false]
    (∀ t ∈ d.leaves, '\n' ∉ t) ∧ Item.line .verbatim ∉ d.items ∧ Item.line .literal ∉ d.items ∧
      Text.dense (d.render {}) = ['a', 'b', 'c'] ∧ ¬ ['\n', '\n', '\n'] <:+: d.render {} := by
  intro d
  have hleaves : ∀ t ∈ d.leaves, '\n' ∉ t := by decide
  have hverbatim : Item.line .verbatim ∉ d.items := by decide
  have hliteral : Item.line .literal ∉ d.items := by decide
  obtain ⟨hdense, hlines⟩ := d.render_keeps_texts {} hleaves
  exact ⟨hleaves, hverbatim, hliteral, hdense, hlines hverbatim hliteral⟩

end TemplateFormat
