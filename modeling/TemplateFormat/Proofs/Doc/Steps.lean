import TemplateFormat.Proofs.Doc.Within
import Mathlib.Logic.Relation

/-!
# The states of a run

`State` is what the renderer holds between two steps, with the indentation of the line that is being
written. A step either starts a new line or adds to the line; `Command.opens?` and `Command.ink` say
which, and what. `Stays` are the steps of the second kind, so `OnLine` leads from one state to
another on the same line.

Results:
* `step_of_opens?`, `step_of_ink`: what a step does to the output.
* `step_stack`: what a step puts on the stack is made of what it takes off.
* `Reached.invariant`: what every step keeps holds in every state that is reached.
* `exists_completed`: every line is completed, and what its steps keep holds at its end.
-/

namespace TemplateFormat

/-- A run of such breaks leaves one blank line at most. -/
def Line.collapses : Line → Bool
  | .soft | .normal | .hard => true
  | .verbatim | .literal => false

namespace Doc

theorem Within.trans {a b c : Doc} (h : Within a b) (h' : Within b c) : Within a c := by
  induction h' with
  | refl => exact h
  | concat he _ ih => exact .concat he ih
  | indent _ ih => exact .indent ih
  | group _ ih => exact .group ih

mutual

theorem leaves_propagate : ∀ d : Doc, d.propagate.leaves = d.leaves
  | group d broken => by rw [propagate, leaves, leaves, leaves_propagate d]
  | concat ds => by rw [propagate, leaves, leaves, leavesAll_propagateAll ds]
  | indent d => by rw [propagate, leaves, leaves, leaves_propagate d]
  | empty => by rw [propagate]
  | text t => by rw [propagate]
  | line kind => by rw [propagate]

theorem leavesAll_propagateAll : ∀ ds : List Doc, leavesAll (propagateAll ds) = leavesAll ds
  | [] => by rw [propagateAll]
  | d :: ds => by
    rw [propagateAll, leavesAll, leavesAll, leaves_propagate d, leavesAll_propagateAll ds]

end

theorem mem_leavesAll_of_mem {t : Text} {d : Doc} {ds : List Doc} (hd : d ∈ ds)
    (ht : t ∈ d.leaves) : t ∈ leavesAll ds := by
  induction hd with
  | head => rw [leavesAll]; exact List.mem_append_left _ ht
  | tail _ _ ih => rw [leavesAll]; exact List.mem_append_right _ ih

/-- A text in a document is one of its texts. -/
theorem mem_leaves_of_within {t : Text} {d : Doc} (h : Within (.text t) d) : t ∈ d.leaves := by
  induction h with
  | refl => rw [leaves]; exact List.mem_singleton_self t
  | concat he _ ih => rw [leaves]; exact mem_leavesAll_of_mem he ih
  | indent _ ih => rwa [leaves]
  | group _ ih => rwa [leaves]

end Doc

namespace Render

open Relation (ReflTransGen)
open Doc (Within)

/-! ## What a command does to the output -/

/-- The indentation of the line that a command starts, if it starts one. -/
def Command.opens? (c : Command) : Option Nat :=
  match c.doc with
  | .line kind =>
    if c.mode = .flat ∧ kind.isForced = false then none
    else some (if kind = .literal then 0 else c.indent)
  | _ => none

/-- What a command that starts no line adds to it. -/
def Command.ink (c : Command) : Text :=
  match c.doc with
  | .text t => t
  | .line .normal => [' ']
  | _ => []

theorem write_append (s t : Text) (o : Output) : o.write (s ++ t) = (o.write s).write t := by
  simp only [Output.write, List.reverse_append, List.append_assoc, List.length_append,
    Nat.add_assoc]

/-- **A command that starts a line** is a line break, and starts a line. -/
theorem step_of_opens? {c : Command} {levels : Nat} (h : c.opens? = some levels) (page : Page)
    (rest : List Command) (o : Output) : ∃ kind, c.doc = .line kind ∧
      step page c rest o = (rest, o.newline page levels kind.collapses) := by
  obtain ⟨indent, mode, doc⟩ := c
  cases doc with
  | line kind =>
    refine ⟨kind, rfl, ?_⟩
    cases mode <;> cases kind <;> simp [Command.opens?, Line.isForced] at h <;> subst h <;> rfl
  | _ => simp [Command.opens?] at h

/-- **A command that starts no line** writes on the line. -/
theorem step_of_ink {c : Command} (h : c.opens? = none) (page : Page) (rest : List Command)
    (o : Output) : (step page c rest o).2 = o.write c.ink := by
  obtain ⟨indent, mode, doc⟩ := c
  cases doc with
  | line kind => cases mode <;> cases kind <;> simp [Command.opens?, Line.isForced] at h <;> rfl
  | _ => rfl

/-- A step leaves the rest of the stack as it is, and the documents that it puts on it are parts of
the one that it takes off. -/
theorem step_stack (page : Page) (c : Command) (rest : List Command) (o : Output) :
    ∀ k ∈ (step page c rest o).1, k ∈ rest ∨ Within k.doc c.doc := by
  obtain ⟨indent, mode, doc⟩ := c
  intro k hk
  cases doc with
  | concat ds =>
    rcases List.mem_append.mp hk with hk | hk
    · obtain ⟨e, he, rfl⟩ := List.mem_map.mp hk
      exact .inr (.concat he .refl)
    · exact .inl hk
  | indent e =>
    rcases List.mem_cons.mp hk with rfl | hk
    · exact .inr (.indent .refl)
    · exact .inl hk
  | group e broken =>
    rcases List.mem_cons.mp hk with rfl | hk
    · exact .inr (.group .refl)
    · exact .inl hk
  | empty => exact .inl hk
  | text t => exact .inl hk
  | line kind => exact .inl hk

/-! ## States -/

/-- What the renderer holds between two steps. -/
structure State where
  stack : List Command
  out : Output
  /-- The levels of indentation of the line that is being written. -/
  levels : Nat

/-- The state in which printing a document starts. -/
def State.start (d : Doc) : State := ⟨[⟨0, .broken, d.propagate⟩], ⟨[], 0⟩, 0⟩

/-- A step that stays on the line. -/
inductive Stays (page : Page) : State → State → Prop
  | intro {c : Command} (rest : List Command) (o : Output) (levels : Nat) (h : c.opens? = none) :
      Stays page ⟨c :: rest, o, levels⟩ ⟨(step page c rest o).1, (step page c rest o).2, levels⟩

/-- A step that starts a line. As long as the output is empty, no line is indented. -/
inductive Breaks (page : Page) : State → State → Prop
  | intro {c : Command} {next : Nat} (rest : List Command) (o : Output) (levels : Nat)
      (h : c.opens? = some next) :
      Breaks page ⟨c :: rest, o, levels⟩
        ⟨(step page c rest o).1, (step page c rest o).2, if o.settled = [] then 0 else next⟩

/-- The second state is reached from the first one without starting a line. -/
def OnLine (page : Page) : State → State → Prop := ReflTransGen (Stays page)

/-- The state is reached in printing a document. -/
def Reached (page : Page) (d : Doc) : State → Prop :=
  ReflTransGen (fun s t => Stays page s t ∨ Breaks page s t) (State.start d)

/-- The line is completed: the next step starts another one, or there is none. -/
def State.Completed (s : State) : Prop := ∀ c ∈ s.stack.head?, c.opens? ≠ none

variable {page : Page} {d : Doc} {s t : State}

/-- **What every step keeps holds in every state that is reached.** -/
theorem Reached.invariant {P : State → Prop} (h : Reached page d s) (hstart : P (.start d))
    (hstay : ∀ {s t}, Stays page s t → P s → P t) (hbreak : ∀ {s t}, Breaks page s t → P s → P t) :
    P s := by
  induction h with
  | refl => exact hstart
  | tail _ hstep ih =>
    rcases hstep with hstep | hstep
    · exact hstay hstep ih
    · exact hbreak hstep ih

/-- Every document on the stack is a part of the document that is printed. -/
theorem Reached.within (h : Reached page d s) : ∀ c ∈ s.stack, Within c.doc d.propagate := by
  have hstep : ∀ {c : Command} {rest : List Command} (o : Output),
      (∀ k ∈ c :: rest, Within k.doc d.propagate) →
        ∀ k ∈ (step page c rest o).1, Within k.doc d.propagate := by
    intro c rest o hs k hk
    rw [List.forall_mem_cons] at hs
    rcases step_stack page c rest o k hk with hk | hk
    · exact hs.2 k hk
    · exact hk.trans hs.1
  refine h.invariant (P := fun s => ∀ c ∈ s.stack, Within c.doc d.propagate) ?_ ?_ ?_
  · intro c hc
    rw [List.mem_singleton.mp hc]
    exact .refl
  · rintro _ _ ⟨rest, o, levels, -⟩ hs
    exact hstep o hs
  · rintro _ _ ⟨rest, o, levels, -⟩ hs
    exact hstep o hs

/-- What a command of a run writes has no line feeds, if the texts of the document have none. -/
theorem newline_notMem_ink {page : Page} {d : Doc} (hd : ∀ t ∈ d.leaves, '\n' ∉ t) {s : State}
    (h : Reached page d s) : ∀ c ∈ s.stack, '\n' ∉ c.ink := by
  intro c hc
  have hwithin := h.within c hc
  unfold Command.ink
  split
  · rename_i t hdoc
    rw [hdoc] at hwithin
    exact hd t (d.leaves_propagate ▸ Doc.mem_leaves_of_within hwithin)
  · simp
  · simp

theorem OnLine.reached (h : OnLine page s t) (hs : Reached page d s) : Reached page d t := by
  induction h with
  | refl => exact hs
  | tail _ hstep ih => exact ih.tail (Or.inl hstep)

theorem OnLine.levels_eq (h : OnLine page s t) : t.levels = s.levels := by
  induction h with
  | refl => rfl
  | tail _ hstep ih =>
    cases hstep
    exact ih

/-- **Every line is completed**, and what the steps on it keep holds at its end. The induction is on
the steps of the run. -/
theorem exists_completed {P : State → Prop} (hstay : ∀ {s t}, Stays page s t → P s → P t)
    (h : P s) : ∃ t, OnLine page s t ∧ t.Completed ∧ P t := by
  obtain ⟨stack, out, levels⟩ := s
  fun_induction run page stack out with
  | case1 out => exact ⟨_, .refl, fun c hc => by simp at hc, h⟩
  | case2 out c rest next =>
    rename_i ih
    by_cases hc : c.opens? = none
    · have hstep : Stays page ⟨c :: rest, out, levels⟩ _ := .intro rest out levels hc
      obtain ⟨t, hline, hend, ht⟩ := ih (hstay hstep h)
      exact ⟨t, .head hstep hline, hend, ht⟩
    · refine ⟨_, .refl, fun k hk => ?_, h⟩
      rw [← Option.some.inj hk]
      exact hc

/-- **The output of a run is reached**, with nothing left on the stack. -/
theorem Reached.run (h : Reached page d s) :
    ∃ levels, Reached page d ⟨[], Render.run page s.stack s.out, levels⟩ := by
  obtain ⟨stack, out, levels⟩ := s
  show ∃ levels, Reached page d ⟨[], Render.run page stack out, levels⟩
  fun_induction Render.run page stack out generalizing levels with
  | case1 out => exact ⟨levels, h⟩
  | case2 out c rest next =>
    rename_i ih
    by_cases hc : c.opens? = none
    · exact ih levels (h.tail (.inl (.intro rest out levels hc)))
    · obtain ⟨next, hnext⟩ := Option.ne_none_iff_exists'.mp hc
      exact ih _ (h.tail (.inr (.intro rest out levels hnext)))

end Render

end TemplateFormat
