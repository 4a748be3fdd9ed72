import TemplateFormat.Proofs.Doc.Steps

/-!
# Flat mode stays on the line

A document is `Plain` if it holds no forced line break and no broken group. Marking groups bottom-up
(`Doc.propagate`) leaves a group unbroken only if its contents are plain, so what the renderer
prints in flat mode is plain: it comes from groups that are not broken. Hence a command in flat mode
prints its document on the line (`Doc.flat`) and starts no new one.

Results:
* `plain_iff`: the marking pass decides whether a document is plain.
* `marked_propagate`: which groups are broken after the pass.
* `sound_stay`, `sound_break`: a step keeps all documents in flat mode plain.
* `onLine_flat`: a plain document in flat mode is printed on the line.
* `flat_stays_on_line`: both for every state of a run.
-/

namespace TemplateFormat

namespace Doc

/-- The document holds a forced line break. -/
def HoldsForced (d : Doc) : Prop := ∃ kind : Line, kind.isForced = true ∧ Within (.line kind) d

/-- The document holds a broken group. -/
def HoldsBroken (d : Doc) : Prop := ∃ e, Within (.group e true) d

/-- The document holds no forced line break and no broken group. -/
def Plain (d : Doc) : Prop := ¬ d.HoldsForced ∧ ¬ d.HoldsBroken

/-- The second document is the first one with other marks on its groups: a group is broken if it, or
a group in it, was broken, or if it holds a forced line break. -/
inductive Marked : Doc → Doc → Prop
  | empty : Marked .empty .empty
  | text (t : Text) : Marked (.text t) (.text t)
  | concat {ds es : List Doc} (h : List.Forall₂ Marked ds es) : Marked (.concat ds) (.concat es)
  | indent {d e : Doc} (h : Marked d e) : Marked (.indent d) (.indent e)
  | group {d e : Doc} {broken broken' : Bool} (h : Marked d e)
      (hbroken : broken' = true ↔ (group d broken).HoldsBroken ∨ (group d broken).HoldsForced) :
      Marked (.group d broken) (.group e broken')
  | line (kind : Line) : Marked (.line kind) (.line kind)

/-! ## The parts of a document -/

theorem HoldsForced.of_within {d e : Doc} (h : d.HoldsForced) (hd : Within d e) :
    e.HoldsForced := by
  obtain ⟨kind, hkind, hline⟩ := h
  exact ⟨kind, hkind, hline.trans hd⟩

theorem HoldsBroken.of_within {d e : Doc} (h : d.HoldsBroken) (hd : Within d e) :
    e.HoldsBroken := by
  obtain ⟨f, hgroup⟩ := h
  exact ⟨f, hgroup.trans hd⟩

theorem Plain.of_within {d e : Doc} (h : e.Plain) (hd : Within d e) : d.Plain :=
  ⟨fun hf => h.1 (hf.of_within hd), fun hb => h.2 (hb.of_within hd)⟩

/-! ## The marking pass -/

mutual

/-- A document that forces a break holds a forced line break or a broken group. -/
theorem holds_of_forcesBreak : ∀ d : Doc, d.forcesBreak = true → d.HoldsBroken ∨ d.HoldsForced
  | line kind, h => by
    rw [forcesBreak] at h
    exact .inr ⟨kind, h, .refl⟩
  | concat ds, h => by
    rw [forcesBreak] at h
    obtain ⟨d, hd, hholds⟩ := holds_of_anyForces ds h
    have hwithin : Within d (concat ds) := .concat hd .refl
    exact hholds.imp (·.of_within hwithin) (·.of_within hwithin)
  | indent d, h => by
    rw [forcesBreak] at h
    have hwithin : Within d d.indent := .indent .refl
    exact (holds_of_forcesBreak d h).imp (·.of_within hwithin) (·.of_within hwithin)
  | group d broken, h => by
    rw [forcesBreak, Bool.or_eq_true] at h
    rcases h with rfl | h
    · exact .inl ⟨d, .refl⟩
    · have hwithin : Within d (group d broken) := .group .refl
      exact (holds_of_forcesBreak d h).imp (·.of_within hwithin) (·.of_within hwithin)
  | empty, h => by simp [forcesBreak] at h
  | text t, h => by simp [forcesBreak] at h

theorem holds_of_anyForces : ∀ ds : List Doc, anyForces ds = true →
    ∃ d ∈ ds, d.HoldsBroken ∨ d.HoldsForced
  | [], h => by simp [anyForces] at h
  | d :: ds, h => by
    rw [anyForces, Bool.or_eq_true] at h
    rcases h with h | h
    · exact ⟨d, List.mem_cons_self, holds_of_forcesBreak d h⟩
    · obtain ⟨e, he, hholds⟩ := holds_of_anyForces ds h
      exact ⟨e, List.mem_cons_of_mem d he, hholds⟩

end

theorem anyForces_of_mem {d : Doc} {ds : List Doc} (hd : d ∈ ds) (h : d.forcesBreak = true) :
    anyForces ds = true := by
  induction hd with
  | head => rw [anyForces, h, Bool.true_or]
  | tail _ _ ih => rw [anyForces, ih, Bool.or_true]

theorem forcesBreak_of_within {d e : Doc} (hd : Within d e) (h : d.forcesBreak = true) :
    e.forcesBreak = true := by
  induction hd with
  | refl => exact h
  | concat he _ ih => rw [forcesBreak, anyForces_of_mem he ih]
  | indent _ ih => rw [forcesBreak, ih]
  | group _ ih => rw [forcesBreak, ih, Bool.or_true]

theorem forcesBreak_iff (d : Doc) : d.forcesBreak = true ↔ d.HoldsBroken ∨ d.HoldsForced := by
  constructor
  · exact holds_of_forcesBreak d
  · rintro (⟨e, he⟩ | ⟨kind, hkind, hline⟩)
    · exact forcesBreak_of_within he (by rw [forcesBreak, Bool.true_or])
    · exact forcesBreak_of_within hline (by rw [forcesBreak, hkind])

/-- **The marking pass decides whether a document is plain.** -/
theorem plain_iff (d : Doc) : d.Plain ↔ d.forcesBreak = false := by
  rw [← Bool.not_eq_true, forcesBreak_iff, not_or, Plain, and_comm]

mutual

theorem forcesBreak_propagate : ∀ d : Doc, d.propagate.forcesBreak = d.forcesBreak
  | group d broken => by
    rw [propagate, forcesBreak, forcesBreak, forcesBreak_propagate d, Bool.or_assoc, Bool.or_self]
  | concat ds => by rw [propagate, forcesBreak, forcesBreak, anyForces_propagateAll ds]
  | indent d => by rw [propagate, forcesBreak, forcesBreak, forcesBreak_propagate d]
  | empty => by rw [propagate]
  | text t => by rw [propagate]
  | line kind => by rw [propagate]

theorem anyForces_propagateAll : ∀ ds : List Doc, anyForces (propagateAll ds) = anyForces ds
  | [] => by rw [propagateAll]
  | d :: ds => by
    rw [propagateAll, anyForces, anyForces, forcesBreak_propagate d, anyForces_propagateAll ds]

end

mutual

/-- **Which groups the marking pass breaks**: those that hold, or were, a broken group, and those
that hold a forced line break. -/
theorem marked_propagate : ∀ d : Doc, Marked d d.propagate
  | group d broken => by
    rw [propagate]
    refine .group (marked_propagate d) ?_
    rw [← forcesBreak_iff, forcesBreak]
  | concat ds => by
    rw [propagate]
    exact .concat (marked_propagateAll ds)
  | indent d => by
    rw [propagate]
    exact .indent (marked_propagate d)
  | empty => by
    rw [propagate]
    exact .empty
  | text t => by
    rw [propagate]
    exact .text t
  | line kind => by
    rw [propagate]
    exact .line kind

theorem marked_propagateAll : ∀ ds : List Doc, List.Forall₂ Marked ds (propagateAll ds)
  | [] => by
    rw [propagateAll]
    exact .nil
  | d :: ds => by
    rw [propagateAll]
    exact .cons (marked_propagate d) (marked_propagateAll ds)

end

/-- Groups that are not broken are plain. -/
def Settled (d : Doc) : Prop := ∀ e, Within (.group e false) d → e.Plain

theorem Settled.of_within {d e : Doc} (h : e.Settled) (hd : Within d e) : d.Settled :=
  fun f hf => h f (hf.trans hd)

mutual

/-- After the marking pass, groups that are not broken are plain. -/
theorem settled_propagate : ∀ d : Doc, d.propagate.Settled
  | group d broken, e, h => by
    rw [propagate] at h
    generalize hb : (broken || d.forcesBreak) = b at h
    cases h with
    | refl =>
      rw [Bool.or_eq_false_iff] at hb
      rw [plain_iff, forcesBreak_propagate]
      exact hb.2
    | group h => exact settled_propagate d e h
  | concat ds, e, h => by
    rw [propagate] at h
    cases h with
    | concat hmem h => exact settled_propagateAll ds _ hmem e h
  | indent d, e, h => by
    rw [propagate] at h
    cases h with
    | indent h => exact settled_propagate d e h
  | empty, e, h => by
    rw [propagate] at h
    cases h
  | text t, e, h => by
    rw [propagate] at h
    cases h
  | line kind, e, h => by
    rw [propagate] at h
    cases h

theorem settled_propagateAll : ∀ ds : List Doc, ∀ d ∈ propagateAll ds, d.Settled
  | [], d, hd => by simp [propagateAll] at hd
  | d :: ds, e, he => by
    rw [propagateAll] at he
    rcases List.mem_cons.mp he with rfl | he
    · exact settled_propagate d
    · exact settled_propagateAll ds e he

end

end Doc

namespace Render

open Doc (Within Plain)

/-! ## Documents in flat mode -/

/-- Groups that are not broken are plain, and so is the document of a command in flat mode. -/
structure Command.Sound (c : Command) : Prop where
  settled : c.doc.Settled
  plain : c.mode = .flat → c.doc.Plain

theorem Command.Sound.part {c k : Command} (h : c.Sound) (hdoc : Within k.doc c.doc)
    (hmode : k.mode = c.mode) : k.Sound :=
  ⟨h.settled.of_within hdoc, fun hk => (h.plain (hmode ▸ hk)).of_within hdoc⟩

/-- A group that is printed flat is not broken. -/
theorem not_broken_of_groupMode {page : Page} {column indent : Nat} {mode : Mode} {e : Doc}
    {broken : Bool} {rest : List Command}
    (h : groupMode page column indent mode e broken rest = .flat) : broken = false := by
  cases broken with
  | false => rfl
  | true => simp [groupMode] at h

/-- **A step keeps every command sound.** Only a group that is not broken brings new contents into
flat mode. -/
theorem sound_step (page : Page) {c : Command} {rest : List Command} (o : Output)
    (h : ∀ k ∈ c :: rest, k.Sound) : ∀ k ∈ (step page c rest o).1, k.Sound := by
  rw [List.forall_mem_cons] at h
  obtain ⟨hc, hrest⟩ := h
  obtain ⟨indent, mode, doc⟩ := c
  cases doc with
  | concat ds =>
    intro k hk
    rcases List.mem_append.mp hk with hk | hk
    · obtain ⟨e, he, rfl⟩ := List.mem_map.mp hk
      exact hc.part (.concat he .refl) rfl
    · exact hrest k hk
  | indent e => exact List.forall_mem_cons.mpr ⟨hc.part (.indent .refl) rfl, hrest⟩
  | group e broken =>
    refine List.forall_mem_cons.mpr ⟨⟨hc.settled.of_within (.group .refl), fun hflat => ?_⟩, hrest⟩
    have hbroken := not_broken_of_groupMode hflat
    subst hbroken
    exact hc.settled e .refl
  | empty => exact hrest
  | text t => exact hrest
  | line kind => exact hrest

/-- In every state that is reached, the commands are sound. -/
theorem sound_of_reached {page : Page} {d : Doc} {s : State} (h : Reached page d s) :
    ∀ c ∈ s.stack, c.Sound := by
  refine h.invariant (P := fun s => ∀ c ∈ s.stack, c.Sound) ?_ ?_ ?_
  · intro c hc
    rw [List.mem_singleton.mp hc]
    exact ⟨d.settled_propagate, fun hmode => absurd hmode (by simp)⟩
  · rintro _ _ ⟨rest, o, levels, -⟩ hs
    exact sound_step page o hs
  · rintro _ _ ⟨rest, o, levels, -⟩ hs
    exact sound_step page o hs

/-! ## Printing on the line -/

section Flat

variable (page : Page) (levels : Nat)

mutual

/-- **A plain document in flat mode is printed on the line**, by induction on the document. -/
theorem onLine_flat (indent : Nat) (rest : List Command) (o : Output) : ∀ d : Doc, d.Plain →
    OnLine page ⟨⟨indent, .flat, d⟩ :: rest, o, levels⟩ ⟨rest, o.write d.flat, levels⟩
  | .empty, _ => .single (.intro rest o levels rfl)
  | .text t, _ => by
    rw [Doc.flat_text]
    exact .single (.intro rest o levels rfl)
  | .concat ds, h => by
    rw [Doc.flat_concat]
    exact .head (.intro rest o levels rfl)
      (onLine_commands indent rest o ds fun d hd => h.of_within (.concat hd .refl))
  | .indent d, h => by
    have hd := onLine_flat (indent + 1) rest o d (h.of_within (.indent .refl))
    rw [Doc.flat, Doc.items_indent]
    exact .head (.intro rest o levels rfl) hd
  | .group d broken, h => by
    have hd := onLine_flat indent rest o d (h.of_within (.group .refl))
    have hbroken : broken = false := by
      rw [← Bool.not_eq_true]
      rintro rfl
      exact h.2 ⟨d, .refl⟩
    subst hbroken
    rw [Doc.flat_group]
    exact .head (.intro rest o levels rfl) hd
  | .line kind, h => by
    have hkind : kind.isForced = false := by
      rw [← Bool.not_eq_true]
      exact fun hkind => h.1 ⟨kind, hkind, .refl⟩
    rw [Doc.flat_line]
    cases kind with
    | soft => exact .single (.intro rest o levels rfl)
    | normal => exact .single (.intro rest o levels rfl)
    | hard => exact absurd hkind (by decide)
    | verbatim => exact absurd hkind (by decide)
    | literal => exact absurd hkind (by decide)

theorem onLine_commands (indent : Nat) (rest : List Command) (o : Output) : ∀ ds : List Doc,
    (∀ d ∈ ds, d.Plain) → OnLine page ⟨commands indent .flat ds ++ rest, o, levels⟩
      ⟨rest, o.write (ds.flatMap Doc.flat), levels⟩
  | [], _ => .refl
  | d :: ds, h => by
    rw [List.forall_mem_cons] at h
    rw [List.flatMap_cons, write_append]
    exact (onLine_flat indent _ o d h.1).trans (onLine_commands indent rest _ ds h.2)

end

end Flat

/-- **Flat means one line.** The marking pass breaks the groups that are or hold a broken group, and
those that hold a forced line break. After it, in every state that is reached in printing a
document, the document of a command in flat mode holds no forced line break and no broken group, and
such a command prints what its document is on one line and starts no new line. -/
theorem flat_stays_on_line (page : Page) (d : Doc) :
    Doc.Marked d d.propagate ∧
      (∀ s, Reached page d s → ∀ c ∈ s.stack, c.mode = .flat → c.doc.Plain) ∧
      ∀ c rest o levels, Reached page d ⟨c :: rest, o, levels⟩ → c.mode = .flat →
        OnLine page ⟨c :: rest, o, levels⟩ ⟨rest, o.write c.doc.flat, levels⟩ := by
  refine ⟨d.marked_propagate, fun s hs c hc => (sound_of_reached hs c hc).plain, ?_⟩
  rintro ⟨indent, mode, doc⟩ rest o levels hs rfl
  exact onLine_flat page levels indent rest o doc
    ((sound_of_reached hs _ List.mem_cons_self).plain rfl)

/-- A line break in the first group breaks it, and the second group stays on the line. -/
theorem flat_stays_on_line_second :
    let d : Doc := .concat [.group (.concat [.text ['a'], .hardline]) false,
      .group (.concat [.text ['b'], .line .normal, .group (.text ['c']) false]) false]
    let c : Command := ⟨0, .flat, .concat [.text ['b'], .line .normal, .group (.text ['c']) false]⟩
    Reached {} d ⟨[c], ⟨['\n', 'a'], 0⟩, 0⟩ ∧ c.doc.Plain ∧
      OnLine {} ⟨[c], ⟨['\n', 'a'], 0⟩, 0⟩ ⟨[], ⟨['c', ' ', 'b', '\n', 'a'], 3⟩, 0⟩ := by
  intro d c
  have hflat : groupMode {} 0 0 .broken c.doc false [] = .flat := by decide +kernel
  have hreached : Reached {} d ⟨[c], ⟨['\n', 'a'], 0⟩, 0⟩ := by
    have hfirst : Reached {} d _ := .single (.inl (.intro [] ⟨[], 0⟩ 0 rfl))
    have hbreak := (((hfirst.tail (.inl (.intro _ _ _ rfl))).tail (.inl (.intro _ _ _ rfl))).tail
      (.inl (.intro _ _ _ rfl))).tail (.inr (.intro _ _ _ rfl))
    have hsecond : Reached {} d
        ⟨[⟨0, groupMode {} 0 0 .broken c.doc false [], c.doc⟩], ⟨['\n', 'a'], 0⟩, 0⟩ :=
      hbreak.tail (.inl (.intro _ _ _ rfl))
    rw [hflat] at hsecond
    exact hsecond
  obtain ⟨-, hplain, hprint⟩ := flat_stays_on_line {} d
  exact ⟨hreached, hplain _ hreached c List.mem_cons_self rfl, hprint c [] _ 0 hreached rfl⟩

end Render

end TemplateFormat
