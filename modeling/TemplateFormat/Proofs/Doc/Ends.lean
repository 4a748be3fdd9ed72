import TemplateFormat.Proofs.Doc.Render

/-!
# The lines of the output

Before a line break the renderer takes the spaces and tabs off the end of the line, it starts no
output with a line feed, and a document that ends with a forced break ends its output with one. So
if the texts of a document have no line feeds of their own, the output is tidy (`Text.Tidy`).

An `Invariant` of the output is kept by a line break and by the characters that a document prints
on one line; then a step of the renderer keeps it, and so a run. Which lines the breaks and groups
make does not matter.

Results:
* `Render.Invariant.run`: a run keeps an invariant.
* `Doc.render_eq_nil`: a document of spaces and line breaks prints nothing.
* `Doc.render_join_hardline`: the output ends with a line feed, if there is any.
* `Doc.tidy_render`: the output of a document with a forced break at its end is tidy.
-/

namespace TemplateFormat

namespace Render

/-! ## What a run keeps -/

/-- The property `P` of the output, the latest character first, is kept by every line break and by
every character that has `Q`. -/
structure Invariant (page : Page) (P : Text → Prop) (Q : Char → Prop) : Prop where
  newline : ∀ levels collapse (o : Output), P o.chars → P (o.newline page levels collapse).chars
  write : ∀ c cs, Q c → P cs → P (c :: cs)
  space : Q ' '

namespace Invariant

variable {page : Page} {P : Text → Prop} {Q : Char → Prop}

theorem append (hi : Invariant page P Q) {t cs : Text} (ht : ∀ c ∈ t, Q c) (h : P cs) :
    P (t ++ cs) := by
  induction t with
  | nil => exact h
  | cons c t ih =>
    rw [List.forall_mem_cons] at ht
    exact hi.write c _ ht.1 (ih ht.2)

theorem lineBreak (hi : Invariant page P Q) (indent : Nat) (mode : Mode) (kind : Line) {o : Output}
    (h : P o.chars) : P (lineBreak page indent mode kind o).chars := by
  unfold Render.lineBreak
  split
  · exact h
  · exact hi.write ' ' _ hi.space h
  · exact hi.newline 0 false o h
  · exact hi.newline indent false o h
  · exact hi.newline indent true o h

/-- **A step keeps an invariant.** -/
theorem step (hi : Invariant page P Q) {c : Command} {rest : List Command} {o : Output}
    (hstack : ∀ x ∈ stackFlat (c :: rest), Q x) (h : P o.chars) :
    (∀ x ∈ stackFlat (step page c rest o).1, Q x) ∧ P (step page c rest o).2.chars := by
  obtain ⟨printed, hflat, -⟩ := follows_step page c rest (follows_refl o.chars)
  refine ⟨fun x hx => hstack x (hflat ▸ List.mem_append_right printed hx), ?_⟩
  obtain ⟨indent, mode, doc⟩ := c
  cases doc with
  | text t =>
    refine hi.append (fun x hx => hstack x ?_) h
    rw [stackFlat, List.flatMap_cons, Doc.flat_text]
    exact List.mem_append_left _ (List.mem_reverse.mp hx)
  | line kind => exact hi.lineBreak indent mode kind h
  | empty => exact h
  | concat ds => exact h
  | indent d => exact h
  | group d broken => exact h

/-- **A run keeps an invariant**, by induction on its steps. -/
theorem run (hi : Invariant page P Q) {stack : List Command} {o : Output}
    (hstack : ∀ x ∈ stackFlat stack, Q x) (h : P o.chars) : P (run page stack o).chars := by
  fun_induction Render.run page stack o with
  | case1 o => exact h
  | case2 o c rest next =>
    rename_i ih
    obtain ⟨hnext, hchars⟩ := hi.step hstack h
    exact ih hnext hchars

theorem render (hi : Invariant page P Q) {d : Doc} (hflat : ∀ x ∈ d.flat, Q x) (h : P []) :
    P (Render.run page [⟨0, .broken, d.propagate⟩] ⟨[], 0⟩).chars := by
  refine hi.run ?_ h
  rw [stackFlat, List.flatMap_singleton, Doc.flat_propagate]
  exact hflat

end Invariant

/-! ## Clean line ends -/

/-- Every line feed comes after a character that is no space and no tab; the latest character comes
first. -/
def Clean (cs : Text) : Prop := ∀ a b, cs = a ++ '\n' :: b → ∃ c r, b = c :: r ∧ isSpace c = false

theorem clean_nil : Clean [] := fun a b h => absurd h (by simp)

theorem Clean.cons {c : Char} {cs : Text} (h : Clean cs) (hc : c ≠ '\n') : Clean (c :: cs) := by
  intro a b he
  cases a with
  | nil => exact absurd (List.cons.inj he).1 hc
  | cons d a => exact h a b (List.cons.inj he).2

theorem Clean.append {t cs : Text} (h : Clean cs) (ht : '\n' ∉ t) : Clean (t ++ cs) := by
  induction t with
  | nil => exact h
  | cons c t ih =>
    rw [List.mem_cons, not_or] at ht
    exact (ih ht.2).cons (Ne.symm ht.1)

theorem Clean.newline {c : Char} {cs : Text} (h : Clean (c :: cs)) (hc : isSpace c = false) :
    Clean ('\n' :: c :: cs) := by
  intro a b he
  cases a with
  | nil => exact ⟨c, cs, (List.cons.inj he).2.symm, hc⟩
  | cons d a => exact h a b (List.cons.inj he).2

theorem Clean.of_isSuffix {cs ds : Text} (h : Clean cs) (hs : ds <:+ cs) : Clean ds := by
  obtain ⟨p, rfl⟩ := hs
  intro a b he
  refine h (p ++ a) b ?_
  rw [he, List.append_assoc]

theorem isSpace_of_mem_indentation {page : Page} {levels : Nat} {c : Char}
    (h : c ∈ page.indentation levels) : isSpace c = true := by
  unfold Page.indentation at h
  split at h <;> rw [List.eq_of_mem_replicate h] <;> decide

theorem isSpace_of_dropWhile {t cs : Text} {c : Char} (h : t.dropWhile isSpace = c :: cs) :
    isSpace c = false := by
  have := List.head?_dropWhile_not isSpace t
  rw [h] at this
  exact this

/-- The lines of the output have no spaces and tabs at their ends. -/
theorem invariant_clean (page : Page) : Invariant page Clean (· ≠ '\n') where
  newline := by
    intro levels collapse o h
    unfold Output.newline
    split
    · exact clean_nil
    · rename_i c cs hrest
      have hclean : Clean (c :: cs) := h.of_isSuffix (hrest ▸ List.dropWhile_suffix _)
      have hindent : '\n' ∉ page.indentation levels :=
        fun hmem => absurd (isSpace_of_mem_indentation hmem) (by decide)
      refine Clean.append ?_ hindent
      split
      · exact hclean
      · exact hclean.newline (isSpace_of_dropWhile hrest)
  write := fun _ _ hc h => h.cons hc
  space := by decide

/-- Spaces and tabs alone are dropped at the next line break. -/
theorem invariant_spaces (page : Page) :
    Invariant page (fun cs => ∀ c ∈ cs, isSpace c = true) (isSpace · = true) where
  newline := by
    intro levels collapse o h
    unfold Output.newline
    rw [List.dropWhile_eq_nil_iff.mpr h]
    simp
  write := fun _ _ hc h => List.forall_mem_cons.mpr ⟨hc, h⟩
  space := by decide

/-! ## The end of the output -/

/-- What a step pushes comes before the rest of the stack. -/
theorem step_append (page : Page) (c : Command) (rest : List Command) (o : Output) :
    ∃ pushed, (step page c rest o).1 = pushed ++ rest := by
  obtain ⟨indent, mode, doc⟩ := c
  cases doc with
  | concat ds => exact ⟨commands indent mode ds, rfl⟩
  | indent d => exact ⟨[_], rfl⟩
  | group d broken => exact ⟨[_], rfl⟩
  | empty => exact ⟨[], rfl⟩
  | text t => exact ⟨[], rfl⟩
  | line kind => exact ⟨[], rfl⟩

/-- **A line break at the bottom of the stack is printed last**, by induction on the steps. -/
theorem run_line (page : Page) (stack : List Command) (indent : Nat) (kind : Line) (o : Output) :
    ∃ o', run page (stack ++ [⟨indent, .broken, .line kind⟩]) o =
      lineBreak page indent .broken kind o' := by
  generalize hs : stack ++ [⟨indent, .broken, .line kind⟩] = whole
  fun_induction run page whole o generalizing stack with
  | case1 o => exact absurd hs (by simp)
  | case2 o c rest next =>
    rename_i ih
    cases stack with
    | nil =>
      obtain ⟨rfl, rfl⟩ := List.cons.inj hs
      refine ⟨o, ?_⟩
      show run page [] (lineBreak page indent .broken kind o) = _
      rw [run]
    | cons c' stack =>
      obtain ⟨rfl, rfl⟩ := List.cons.inj hs
      obtain ⟨pushed, hpushed⟩ :=
        step_append page c' (stack ++ [⟨indent, .broken, .line kind⟩]) o
      exact ih (pushed ++ stack) (by rw [List.append_assoc]; exact hpushed.symm)

/-- A line break without indentation leaves a line feed, or the output is empty. -/
theorem newline_zero (page : Page) (o : Output) :
    (o.newline page 0 true).chars = [] ∨ ∃ cs, (o.newline page 0 true).chars = '\n' :: cs := by
  have hindent : page.indentation 0 = [] := by simp [Page.indentation]
  unfold Output.newline
  split
  · exact Or.inl rfl
  · rename_i c cs _
    refine Or.inr ?_
    simp only [hindent, List.nil_append]
    split
    · rename_i hblank
      rw [Bool.and_eq_true] at hblank
      exact ⟨cs, by rw [eq_newline_of_endsBlank hblank.2]⟩
    · exact ⟨c :: cs, rfl⟩

end Render

namespace Text

/-! ## Tidy texts -/

/-- The text ends with a line feed and does not start with one, and no line of it ends with a space
or a tab. -/
structure Tidy (t : Text) : Prop where
  ends : ∃ s, t = s ++ ['\n']
  starts : ∀ s, t ≠ '\n' :: s
  lines : ∀ l ∈ lines t, ∀ c ∈ l.getLast?, c ≠ ' ' ∧ c ≠ '\t'

/-- A line is at the end of the text, or a line feed follows it. -/
theorem unlines_of_mem {l : Text} : ∀ {ls : List Text}, l ∈ ls →
    (∃ a, unlines ls = a ++ l) ∨ ∃ a b, unlines ls = a ++ (l ++ '\n' :: b)
  | [m], h => by
    rw [List.mem_singleton.mp h]
    exact Or.inl ⟨[], rfl⟩
  | m :: m' :: ms, h => by
    rw [unlines_cons_cons]
    rcases List.mem_cons.mp h with rfl | h
    · exact Or.inr ⟨[], _, rfl⟩
    · rcases unlines_of_mem h with ⟨a, ha⟩ | ⟨a, b, hab⟩
      · exact Or.inl ⟨m ++ '\n' :: a, by rw [ha]; simp⟩
      · exact Or.inr ⟨m ++ '\n' :: a, b, by rw [hab]; simp⟩

theorem tidy_of_clean {t : Text} (hends : ∃ s, t = s ++ ['\n']) (h : Render.Clean t.reverse) :
    Tidy t where
  ends := hends
  starts := by
    rintro s rfl
    obtain ⟨c, r, hr, -⟩ := h s.reverse [] (List.reverse_cons ..)
    exact absurd hr (by simp)
  lines := by
    intro l hl c hc
    have hspace : isSpace c = false := by
      obtain ⟨l', rfl⟩ := List.getLast?_eq_some_iff.mp hc
      rcases unlines_of_mem hl with ⟨a, ha⟩ | ⟨a, b, hab⟩
      · -- the last line is what follows the last line feed
        obtain ⟨s, rfl⟩ := hends
        rw [unlines_lines, ← List.append_assoc] at ha
        rw [← List.singleton_inj.mp (List.append_inj' ha rfl).2]
        decide
      · rw [unlines_lines] at hab
        obtain ⟨d, r, hr, hd⟩ := h b.reverse (a ++ (l' ++ [c])).reverse (by rw [hab]; simp)
        rw [← List.append_assoc, List.reverse_append] at hr
        rw [(List.cons.inj hr).1]
        exact hd
    refine ⟨?_, ?_⟩ <;> rintro rfl <;> exact absurd hspace (by decide)

end Text

namespace Doc

open Render

/-- **A document of spaces and line breaks prints nothing.** -/
theorem render_eq_nil (page : Page) {d : Doc} (h : ∀ c ∈ d.flat, isSpace c = true) :
    d.render page = [] := by
  have hspaces := (invariant_spaces page).render h (by simp)
  rw [render, List.dropWhile_eq_nil_iff.mpr hspaces]
  rfl

/-- **The output ends with a line feed**, if the document ends with a forced break and prints
anything. -/
theorem render_join_hardline (page : Page) (d : Doc) : (join [d, hardline]).render page = [] ∨
    ∃ t, (join [d, hardline]).render page = t ++ ['\n'] := by
  have hrun : ∃ o, run page [⟨0, .broken, (join [d, hardline]).propagate⟩] ⟨[], 0⟩ =
      Output.newline page 0 true o := by
    by_cases hd : d.isEmpty = true
    · have hjoin : (join [d, hardline]).propagate = line .hard := by
        simp [join, hd, hardline, isEmpty, propagate]
      rw [hjoin]
      exact run_line page [] 0 .hard ⟨[], 0⟩
    · have hjoin : (join [d, hardline]).propagate = concat [d.propagate, line .hard] := by
        simp [join, hd, hardline, isEmpty, propagate, propagateAll]
      rw [hjoin, run]
      exact run_line page [⟨0, .broken, d.propagate⟩] 0 .hard ⟨[], 0⟩
  obtain ⟨o, hrun⟩ := hrun
  rw [render, hrun]
  rcases newline_zero page o with h | ⟨cs, h⟩
  · rw [h]
    exact Or.inl rfl
  · rw [h]
    refine Or.inr ⟨cs.reverse, ?_⟩
    rw [List.dropWhile_cons_of_neg (by decide), List.reverse_cons]

/-- **The output is tidy**, if the texts of the document have no line feeds. -/
theorem tidy_render (page : Page) {d : Doc} (h : '\n' ∉ (join [d, hardline]).flat)
    (hne : (join [d, hardline]).render page ≠ []) : ((join [d, hardline]).render page).Tidy := by
  refine Text.tidy_of_clean ((render_join_hardline page d).resolve_left hne) ?_
  have hclean := (invariant_clean page).render (fun x hx he => h (he ▸ hx)) clean_nil
  rw [render, List.reverse_reverse]
  exact hclean.of_isSuffix (List.dropWhile_suffix _)

end Doc

end TemplateFormat
