import TemplateFormat.Proofs.Doc.Render
import TemplateFormat.Proofs.Text.Spacing

/-!
# Laying out keeps words apart

`Spreads is x` says that `x` is what the items `is` print on one line if some soft breaks are spaces
and the others nothing; all other breaks are spaces. What the renderer prints is such a line, except
that there may be other white space where the line has some: a soft break that is printed as a new
line is a space in the line.

Results:
* `Spreads.split`, `Spreads.eq_flat`: the lines of items one after the other, and of items without
  soft breaks.
* `step_items`, `run_items`: what a step of the renderer, and so a run, does to the items of the
  stack.
* `keeps_step`, `keeps_run`: a step, and so a run, prints a line of the stack.
* `Doc.exists_spreads_render`: white space at the ends apart, the output is a line of the document.
-/

namespace TemplateFormat

/-- The items on one line: a space for each line break, or nothing if it is soft. -/
inductive Spreads : List Item → Text → Prop where
  | nil : Spreads [] []
  | text (t : Text) {is : List Item} {x : Text} : Spreads is x → Spreads (.text t :: is) (t ++ x)
  | space (kind : Line) {is : List Item} {x : Text} :
      Spreads is x → Spreads (.line kind :: is) (' ' :: x)
  | soft {is : List Item} {x : Text} : Spreads is x → Spreads (.line .soft :: is) x

namespace Spreads

variable {is js : List Item} {x y : Text}

theorem append (h : Spreads is x) (h' : Spreads js y) : Spreads (is ++ js) (x ++ y) := by
  induction h with
  | nil => exact h'
  | text t _ ih =>
    rw [List.append_assoc]
    exact .text t ih
  | space kind _ ih => exact .space kind ih
  | soft _ ih => exact .soft ih

/-- **A line of items one after the other** is a line of each part. -/
theorem split (h : Spreads (is ++ js) x) : ∃ y z, x = y ++ z ∧ Spreads is y ∧ Spreads js z := by
  induction is generalizing x with
  | nil => exact ⟨[], x, rfl, .nil, h⟩
  | cons i is ih =>
    cases h with
    | text t h =>
      obtain ⟨y, z, rfl, hy, hz⟩ := ih h
      exact ⟨t ++ y, z, (List.append_assoc ..).symm, .text t hy, hz⟩
    | space kind h =>
      obtain ⟨y, z, rfl, hy, hz⟩ := ih h
      exact ⟨' ' :: y, z, rfl, .space kind hy, hz⟩
    | soft h =>
      obtain ⟨y, z, rfl, hy, hz⟩ := ih h
      exact ⟨y, z, rfl, .soft hy, hz⟩

/-- Without soft breaks there is one line. -/
theorem eq_flat (h : Spreads is x) (hsoft : .line .soft ∉ is) : x = is.flatMap Item.flat := by
  induction h with
  | nil => rfl
  | text t _ ih =>
    rw [List.mem_cons, not_or] at hsoft
    rw [List.flatMap_cons, ← ih hsoft.2, Item.flat]
  | space kind _ ih =>
    rw [List.mem_cons, not_or] at hsoft
    rw [List.flatMap_cons, ← ih hsoft.2]
    cases kind with
    | soft => exact absurd rfl hsoft.1
    | normal => rfl
    | hard => rfl
    | verbatim => rfl
    | literal => rfl
  | soft _ _ => exact absurd List.mem_cons_self hsoft

/-- A line break alone is white space. -/
theorem isBlank_line {kind : Line} (h : Spreads [.line kind] x) : Text.isBlank x = true := by
  cases h with
  | space _ h =>
    cases h
    rfl
  | soft h =>
    cases h
    rfl

end Spreads

theorem spreads_text (t : Text) : Spreads (Doc.text t).items t := by
  by_cases ht : t = []
  · rw [ht, Doc.items_text_nil]
    exact .nil
  · rw [Doc.items_text ht]
    have := Spreads.text t .nil
    rwa [List.append_nil] at this

theorem spreads_flat (is : List Item) : Spreads is (is.flatMap Item.flat) := by
  induction is with
  | nil => exact .nil
  | cons i is ih =>
    rw [List.flatMap_cons]
    cases i with
    | text t => exact .text t ih
    | line kind =>
      cases kind with
      | soft => exact .soft ih
      | normal => exact .space _ ih
      | hard => exact .space _ ih
      | verbatim => exact .space _ ih
      | literal => exact .space _ ih

namespace Render

/-- The output, the latest character first, is a line of the items, with other white space where
the line has some and at its start. -/
def Keeps (is : List Item) (chars : Text) : Prop :=
  ∃ x, Spreads is x ∧ Text.squeeze (' ' :: x) = Text.squeeze (' ' :: chars.reverse)

variable {is : List Item}

theorem Keeps.append {js : List Item} {chars y : Text} (h : Keeps is chars) (hy : Spreads js y) :
    Keeps (is ++ js) (y.reverse ++ chars) := by
  obtain ⟨x, hx, hsqueeze⟩ := h
  refine ⟨x ++ y, hx.append hy, ?_⟩
  rw [List.reverse_append, List.reverse_reverse]
  exact Text.squeeze_congr_append hsqueeze y

/-- White space `s` at the end, and that of a line break, are replaced by other white space. -/
theorem Keeps.replace_blank {s r b : Text} (h : Keeps is (s ++ r)) (hs : Text.isBlank s = true)
    (hb : Text.isBlank b = true) (hne : b ≠ []) (kind : Line) :
    Keeps (is ++ [.line kind]) (b ++ r) := by
  obtain ⟨x, hx, hsqueeze⟩ := h
  refine ⟨x ++ [' '], hx.append (.space kind .nil), ?_⟩
  have hspace := Text.squeeze_congr_append hsqueeze [' ']
  rw [List.reverse_append, ← List.cons_append, List.append_assoc] at hspace
  rw [← List.cons_append, hspace, List.reverse_append]
  refine Text.squeeze_append_isBlank_congr (' ' :: r.reverse) ?_ (by simp) ?_ (by simpa)
  · rw [Text.isBlank_append, Text.isBlank_reverse, hs]
    rfl
  · rwa [Text.isBlank_reverse]

/-- **A new line is white space.** -/
theorem keeps_newline {out : Output} (page : Page) (indent : Nat) (collapse : Bool) (kind : Line)
    (h : Keeps is out.chars) :
    Keeps (is ++ [.line kind]) (out.newline page indent collapse).chars := by
  have hs := isBlank_takeWhile_isSpace out.chars
  have hi := isBlank_indentation page indent
  rw [← List.takeWhile_append_dropWhile (p := isSpace) (l := out.chars)] at h
  unfold Output.newline
  split
  · rename_i hrest
    rw [hrest] at h
    -- nothing but white space so far, which does not count at the start
    obtain ⟨x, hx, hsqueeze⟩ := h.replace_blank hs (b := [' ']) rfl (by simp) kind
    exact ⟨x, hx, hsqueeze.trans (by decide)⟩
  · rename_i c cs hrest
    rw [hrest] at h
    by_cases hend : (collapse && Output.endsBlank (c :: cs)) = true
    · -- no line feed is added: the output ends with one
      have hc : c = '\n' := by
        rw [Bool.and_eq_true] at hend
        exact eq_newline_of_endsBlank hend.2
      simp only [hend, if_true]
      have hjoin : List.takeWhile isSpace out.chars ++ c :: cs =
          (List.takeWhile isSpace out.chars ++ [c]) ++ cs := by simp
      have hjoin' : page.indentation indent ++ c :: cs =
          (page.indentation indent ++ [c]) ++ cs := by simp
      have hblank : ∀ {b : Text}, Text.isBlank b = true → Text.isBlank (b ++ [c]) = true := by
        intro b hb
        rw [Text.isBlank_append, hb, hc]
        rfl
      rw [hjoin] at h
      rw [hjoin']
      exact h.replace_blank (hblank hs) (hblank hi) (by simp) kind
    · simp only [hend]
      have hjoin : page.indentation indent ++ '\n' :: c :: cs =
          (page.indentation indent ++ ['\n']) ++ c :: cs := by simp
      show Keeps _ (page.indentation indent ++ '\n' :: c :: cs)
      rw [hjoin]
      exact h.replace_blank hs (by rw [Text.isBlank_append, hi]; rfl) (by simp) kind

/-- A line break is a space or, if it is soft, nothing. -/
theorem keeps_lineBreak {out : Output} (page : Page) (indent : Nat) (mode : Mode) (kind : Line)
    (h : Keeps is out.chars) :
    Keeps (is ++ [.line kind]) (lineBreak page indent mode kind out).chars := by
  unfold lineBreak
  split
  · exact h.append (y := []) (.soft .nil)
  · exact h.append (y := [' ']) (.space .normal .nil)
  · exact keeps_newline page 0 false _ h
  · exact keeps_newline page indent false _ h
  · exact keeps_newline page indent true _ h

/-- The items of a stack. -/
def stackItems (stack : List Command) : List Item := stack.flatMap fun c => c.doc.items

theorem stackItems_commands (indent : Nat) (mode : Mode) (ds : List Doc) (rest : List Command) :
    stackItems (commands indent mode ds ++ rest) = ds.flatMap Doc.items ++ stackItems rest := by
  rw [stackItems, List.flatMap_append, commands, List.flatMap_map]
  rfl

/-- **What a step does to the items of the stack**: it prints none of them, a text or a line break.
-/
theorem step_items (page : Page) (c : Command) (rest : List Command) (out : Output) :
    stackItems (c :: rest) = stackItems (step page c rest out).1 ∧ (step page c rest out).2 = out ∨
    (∃ t, stackItems (c :: rest) = .text t :: stackItems rest ∧
      step page c rest out = (rest, out.write t)) ∨
    ∃ kind, stackItems (c :: rest) = .line kind :: stackItems rest ∧
      step page c rest out = (rest, lineBreak page c.indent c.mode kind out) := by
  obtain ⟨indent, mode, doc⟩ := c
  rw [stackItems, List.flatMap_cons]
  show doc.items ++ stackItems rest = _ ∧ _ ∨ _
  cases doc with
  | empty => exact .inl ⟨by rw [Doc.items_empty]; rfl, rfl⟩
  | text t =>
    by_cases ht : t = []
    · rw [ht, Doc.items_text_nil]
      exact .inl ⟨rfl, rfl⟩
    · exact .inr (.inl ⟨t, by rw [Doc.items_text ht]; rfl, rfl⟩)
  | concat ds => exact .inl ⟨by rw [Doc.items_concat, step, stackItems_commands], rfl⟩
  | indent d => exact .inl ⟨by rw [Doc.items_indent]; rfl, rfl⟩
  | group d broken => exact .inl ⟨by rw [Doc.items_group]; rfl, rfl⟩
  | line kind => exact .inr (.inr ⟨kind, by rw [Doc.items_line]; rfl, rfl⟩)

/-- **A relation of the items that are printed to the output** holds behind a run if texts and line
breaks keep it, by induction on the steps. -/
theorem run_items {P : List Item → Output → Prop} (page : Page) {stack : List Command}
    {out : Output}
    (htext : ∀ {is o t}, .text t ∈ stackItems stack → P is o → P (is ++ [.text t]) (o.write t))
    (hline : ∀ {is o kind} indent mode, P is o →
      P (is ++ [.line kind]) (lineBreak page indent mode kind o))
    (h : P is out) : P (is ++ stackItems stack) (run page stack out) := by
  fun_induction run page stack out generalizing is with
  | case1 out =>
    show P (is ++ []) out
    rwa [List.append_nil]
  | case2 out c rest next =>
    rename_i ih
    obtain ⟨hitems, hout⟩ | ⟨t, hitems, hnext⟩ | ⟨kind, hitems, hnext⟩ := step_items page c rest out
    · rw [hitems] at htext ⊢
      exact ih htext (hout ▸ h)
    · simp only [next, hnext, hitems] at ih htext ⊢
      rw [List.append_cons]
      exact ih (fun hmem => htext (List.mem_cons_of_mem _ hmem)) (htext List.mem_cons_self h)
    · simp only [next, hnext, hitems] at ih htext ⊢
      rw [List.append_cons]
      exact ih (fun hmem => htext (List.mem_cons_of_mem _ hmem)) (hline _ _ h)

/-- A text is printed as it is. -/
theorem Keeps.text {chars : Text} (h : Keeps is chars) (t : Text) :
    Keeps (is ++ [.text t]) (t.reverse ++ chars) := by
  have hline := Spreads.text t .nil
  rw [List.append_nil] at hline
  exact h.append hline

/-- **A step prints a line of what it takes off the stack.** -/
theorem keeps_step {out : Output} (page : Page) (c : Command) (rest : List Command)
    (h : Keeps is out.chars) : ∃ printed,
      stackItems (c :: rest) = printed ++ stackItems (step page c rest out).1 ∧
        Keeps (is ++ printed) (step page c rest out).2.chars := by
  obtain ⟨hitems, hout⟩ | ⟨t, hitems, hnext⟩ | ⟨kind, hitems, hnext⟩ := step_items page c rest out
  · refine ⟨[], hitems, ?_⟩
    rwa [List.append_nil, hout]
  · exact ⟨[.text t], by rw [hnext]; exact hitems, by rw [hnext]; exact h.text t⟩
  · refine ⟨[.line kind], by rw [hnext]; exact hitems, ?_⟩
    rw [hnext]
    exact keeps_lineBreak page c.indent c.mode kind h

/-- **A run prints a line of the stack.** -/
theorem keeps_run (page : Page) (stack : List Command) (out : Output) (h : Keeps is out.chars) :
    Keeps (is ++ stackItems stack) (run page stack out).chars :=
  run_items (P := fun is o => Keeps is o.chars) page (fun _ h => h.text _)
    (fun indent mode h => keeps_lineBreak page indent mode _ h) h

/-- **What is kept in the output to its end** is a line of the items, with other white space where
the line has some and at its ends. -/
theorem Keeps.exists_spreads {chars : Text} (h : Keeps is chars) :
    ∃ x, Spreads is x ∧ Text.even x = Text.even (chars.dropWhile isSpace).reverse := by
  obtain ⟨x, hx, hsqueeze⟩ := h
  refine ⟨x, hx, ?_⟩
  have hs : Text.isBlank (chars.takeWhile isSpace).reverse = true := by
    rw [Text.isBlank_reverse, isBlank_takeWhile_isSpace]
  calc Text.even x = Text.even chars.reverse := Text.squeeze_congr_append hsqueeze [' ']
    _ = Text.even ((chars.dropWhile isSpace).reverse ++ (chars.takeWhile isSpace).reverse) := by
      rw [← List.reverse_append, List.takeWhile_append_dropWhile]
    _ = Text.even (chars.dropWhile isSpace).reverse := Text.even_append_isBlank hs _

theorem keeps_nil : Keeps [] [] := ⟨[], .nil, rfl⟩

end Render

open Render in
/-- **The output is a line of the document**, with other white space where the line has some and at
its ends. -/
theorem Doc.exists_spreads_render (page : Page) (d : Doc) :
    ∃ x, Spreads d.items x ∧ Text.even x = Text.even (d.render page) := by
  have hrun := keeps_run page [⟨0, .broken, d.propagate⟩] ⟨[], 0⟩ keeps_nil
  rw [stackItems, List.flatMap_singleton, items_propagate, List.nil_append] at hrun
  exact hrun.exists_spreads

end TemplateFormat
