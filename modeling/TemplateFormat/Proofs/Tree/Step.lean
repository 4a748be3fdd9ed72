import TemplateFormat.Tree.Parse
import Mathlib.Data.List.Induction

/-!
# One step of the tree builder

`Builder.step` reads a token. `Advance b t r` lists everything that can come of it, guards included:
each constructor is one way in which the token fits, or the error with which it does not.

Results:
* `step_advance`: the result of a step is one of the listed ones.
* `steps_concat`: a run over one more token is the run and one more step.
* `steps_invariant`: what every step keeps, every run keeps.
* `parse_eq_ok`: a template that can be read gives the tree of a run that leaves no level open.
-/

namespace TemplateFormat

namespace Keyword

/-- The keyword opens a block: it neither divides nor closes one. -/
def isOpener (k : Keyword) : Bool := k != .elseKw && !k.isCloser

end Keyword

namespace Builder

/-- What can come of reading the token `t`. -/
inductive Advance (b : Builder) (t : Token) : Except FormatError Builder → Prop
  | raw (hkind : t.kind = .raw) :
      Advance b t (.ok (b.addChild (.raw ⟨b.next, t.lead, t.span, false⟩ t.text)))
  | plain (act : Action) (hkind : t.kind = .action act) (hk : act.keyword = none) :
      Advance b t (.ok (b.addChild (.action ⟨b.next, t.lead, t.span, false⟩ t.text act)))
  | divide (act : Action) (level : Level) (outer : List Level) (hkind : t.kind = .action act)
      (hk : act.keyword = some .elseKw) (hl : b.levels = level :: outer) :
      Advance b t (.ok (b.divideLevel level outer t act))
  | close (act : Action) (k : Keyword) (level : Level) (outer : List Level)
      (hkind : t.kind = .action act) (hk : act.keyword = some k) (hc : k.isCloser = true)
      (hl : b.levels = level :: outer) : Advance b t (.ok (b.closeLevel level outer t act))
  | start (act : Action) (k : Keyword) (hkind : t.kind = .action act) (hk : act.keyword = some k)
      (ho : k.isOpener = true) (hd : b.levels.length < maxDepth) :
      Advance b t (.ok (b.openLevel t k act))
  | strayElse (act : Action) (hkind : t.kind = .action act) (hk : act.keyword = some .elseKw)
      (hl : b.levels = []) : Advance b t (.error (.unexpectedElse t.span))
  | strayEnd (act : Action) (k : Keyword) (hkind : t.kind = .action act)
      (hk : act.keyword = some k) (hc : k.isCloser = true) (hl : b.levels = []) :
      Advance b t (.error (.unexpectedEnd k t.span))
  | tooDeep (act : Action) (k : Keyword) (hkind : t.kind = .action act)
      (hk : act.keyword = some k) (ho : k.isOpener = true) (hd : maxDepth ≤ b.levels.length) :
      Advance b t (.error (.nestingTooDeep maxDepth t.span))

/-- **The result of a step is one of the listed ones.** -/
theorem step_advance (b : Builder) (t : Token) : Advance b t (b.step t) := by
  unfold step
  split
  · rename_i hkind
    exact .raw hkind
  · rename_i act hkind
    split
    · rename_i hk
      exact .plain act hkind hk
    · rename_i hk hl
      exact .strayElse act hkind hk hl
    · rename_i level outer hk hl
      exact .divide act level outer hkind hk hl
    · rename_i k hk hnil hcons
      have hne : k ≠ .elseKw := by
        intro hke
        cases hl : b.levels with
        | nil => exact hnil hl hke
        | cons level outer => exact hcons level outer hl hke
      by_cases hc : k.isCloser = true
      · rw [if_pos hc]
        split
        · rename_i hl
          exact .strayEnd act k hkind hk hc hl
        · rename_i level outer hl
          exact .close act k level outer hkind hk hc hl
      · rw [if_neg hc]
        have ho : k.isOpener = true := by
          simp only [Keyword.isOpener, Bool.and_eq_true, bne_iff_ne, ne_eq, Bool.not_eq_true']
          exact ⟨hne, by simpa using hc⟩
        split
        · rename_i hd
          exact .tooDeep act k hkind hk ho hd
        · rename_i hd
          exact .start act k hkind hk ho (Nat.lt_of_not_le hd)

/-- A run over one more token is the run and one more step. -/
theorem steps_concat (b : Builder) (ts : List Token) (t : Token) :
    b.steps (ts ++ [t]) =
      match b.steps ts with
      | .ok b' => b'.step t
      | .error e => .error e := by
  induction ts generalizing b with
  | nil =>
    show (match b.step t with | .ok b' => steps b' [] | .error e => .error e) = b.step t
    cases b.step t <;> rfl
  | cons u ts ih =>
    rw [List.cons_append, steps, steps]
    cases b.step u with
    | error e => rfl
    | ok b' => exact ih b'

/-- **What every step keeps, every run keeps**; `P ts b` is about the builder `b` after the tokens
`ts`. -/
theorem steps_invariant {P : List Token → Builder → Prop} {b b' : Builder} {ts : List Token}
    (hb : P [] b) (hstep : ∀ ts c t c', P ts c → c.step t = .ok c' → P (ts ++ [t]) c')
    (h : b.steps ts = .ok b') : P ts b' := by
  induction ts using List.reverseRecOn generalizing b' with
  | nil =>
    obtain rfl := Except.ok.inj h
    exact hb
  | append_singleton ts t ih =>
    rw [steps_concat] at h
    cases hs : b.steps ts with
    | error e =>
      rw [hs] at h
      exact absurd h (by simp)
    | ok c =>
      rw [hs] at h
      exact hstep ts c t b' (ih hs) h

end Builder

/-- **The tree of a template** is what the builder holds after its tokens, no level being open. -/
theorem parse_eq_ok {source : Text} {tree : Tree} (h : parse source = .ok tree) : ∃ b : Builder,
    Builder.empty.steps (scan source).tokens = .ok b ∧ b.levels = [] ∧
      tree = ⟨source, Placeholder.stem source, b.children.reverse, (scan source).tail⟩ := by
  unfold parse at h
  cases hs : Builder.empty.steps (scan source).tokens with
  | error e =>
    simp only [hs] at h
    exact absurd h (by simp)
  | ok b =>
    simp only [hs] at h
    cases hl : b.levels with
    | cons level outer =>
      simp only [hl] at h
      exact absurd h (by simp)
    | nil =>
      simp only [hl] at h
      exact ⟨b, rfl, hl, (Except.ok.inj h).symm⟩

end TemplateFormat
