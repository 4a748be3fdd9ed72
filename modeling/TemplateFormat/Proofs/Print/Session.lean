import TemplateFormat.Print.Session

/-!
# Printing that succeeds

`Prints x a` says that the printing `x` gives `a` in every session, leaves the state of the
markup formatter alone, and notes no node that was kept because of a failure. It is closed under
what printing is put together from.

Results:
* `run_bind_eq_ok`: a sequence succeeds if its parts do, one after the other.
* `Prints.bind`, `prints_record`: sequences and notes.
* `Prints.orKeep`: what succeeds is not kept as written, whatever the settings.
-/

namespace TemplateFormat

namespace PrintM

variable {σ α β : Type}

/-- **A sequence succeeds if its parts do**, the second in the session that the first leaves. -/
theorem run_bind_eq_ok {x : PrintM σ α} {k : α → PrintM σ β} {session session' : Session σ}
    {b : β} : (x >>= k).run.run session = (.ok b, session') ↔
      ∃ a middle, x.run.run session = (.ok a, middle) ∧
        (k a).run.run middle = (.ok b, session') := by
  rw [ExceptT.run_bind, StateT.run_bind]
  rcases x.run.run session with ⟨_ | a, middle⟩
  · constructor
    · intro h
      have herror : (Except.error _, middle) = (Except.ok b, session') := h
      exact absurd (congrArg Prod.fst herror) (by simp)
    · rintro ⟨a, middle, h, -⟩
      exact absurd (congrArg Prod.fst h) (by simp)
  · constructor
    · exact fun h => ⟨a, middle, rfl, h⟩
    · rintro ⟨a', middle', h, h'⟩
      obtain ⟨ha, rfl⟩ := Prod.mk.inj h
      obtain rfl := Except.ok.inj ha
      exact h'

/-- The printing gives `a`, and no node fails in it. -/
def Prints (x : PrintM σ α) (a : α) : Prop :=
  ∀ session : Session σ, ∃ visits,
    x.run.run session = (.ok a, ⟨session.markup, visits ++ session.visits⟩) ∧
      ∀ v ∈ visits, v.failure = none

theorem prints_pure (a : α) : Prints (σ := σ) (pure a) a :=
  fun _ => ⟨[], rfl, by simp⟩

/-- **One printing after another.** -/
theorem Prints.bind {x : PrintM σ α} {a : α} {k : α → PrintM σ β} {b : β} (hx : Prints x a)
    (hk : Prints (k a) b) : Prints (x >>= k) b := by
  intro session
  obtain ⟨visits, hrun, hvisits⟩ := hx session
  obtain ⟨visits', hrun', hvisits'⟩ := hk ⟨session.markup, visits ++ session.visits⟩
  refine ⟨visits' ++ visits, ?_, ?_⟩
  · rw [ExceptT.run_bind, StateT.run_bind, hrun, List.append_assoc]
    exact hrun'
  · intro v hv
    exact (List.mem_append.mp hv).elim (hvisits' v) (hvisits v)

theorem Prints.map {x : PrintM σ α} {a : α} (hx : Prints x a) (g : α → β) :
    Prints (do return g (← x)) (g a) :=
  hx.bind (prints_pure (g a))

theorem prints_record (id : Nat) (doc : Doc) : Prints (σ := σ) (record id doc none) doc :=
  fun _ => ⟨[⟨id, doc, none⟩], rfl, by simp⟩

/-- **What succeeds is not kept as written**, whether failures are contained or not. -/
theorem Prints.orKeep {body : PrintM σ Doc} {doc : Doc} (h : Prints body doc) (keep : Bool)
    (id : Nat) (kept : Doc) : Prints (orKeep keep id kept body) doc := by
  have hprinted : Prints (do record id (← body) none) doc := h.bind (prints_record id doc)
  unfold PrintM.orKeep
  cases keep with
  | false => exact hprinted
  | true =>
    intro session
    obtain ⟨visits, hrun, hvisits⟩ := hprinted session
    refine ⟨visits, ?_, hvisits⟩
    rw [if_pos rfl, ExceptT.run_tryCatch, StateT.run_bind, hrun]
    rfl

theorem prints_formatMarkup (embedded : Bool) (markup : Text) :
    Prints (σ := σ) (formatMarkup Markup.html embedded markup)
      (Markup.Html.format embedded markup) :=
  fun _ => ⟨[], rfl, by simp⟩

end PrintM

end TemplateFormat
