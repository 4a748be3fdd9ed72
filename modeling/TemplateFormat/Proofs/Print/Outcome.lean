import TemplateFormat.Proofs.Print.Splice

/-!
# Outcomes of printing

A printing may succeed or fail, and what it gives depends on the session: on the state of the markup
formatter, above all. `Gives V x P` says that a printing succeeds in every session with a value that
has `P`, and notes only nodes that have `V`; `Tries V x P` says the same of a printing that may
fail; and `Fails state err x` that it fails where the formatter is in the given state.

Which child of a container gives which document depends on the session in which it is printed. As
every placeholder is found once, each child is printed once, and its document can be named
afterwards (`Dealt`).

Results:
* `Gives.bind`, `Tries.bind`, `Prints.bind_fails`: sequences.
* `Tries.orKeep`, `Fails.orKeep`: failures that are contained.
* `Dealt.append`: documents given one after the other, as one list.
* `gives_splice`: what splicing gives, whatever the slots give.
-/

namespace TemplateFormat

namespace PrintM

variable {σ α β : Type} {V : Visit → Prop}

/-- In every session the outcome has the property `Q`, and the nodes that are noted have `V`. -/
def Ends (V : Visit → Prop) (x : PrintM σ α) (Q : Except FormatError α → Prop) : Prop :=
  ∀ session : Session σ, Q (x.run.run session).1 ∧
    ∃ visits, (x.run.run session).2.visits = visits ++ session.visits ∧ ∀ v ∈ visits, V v

/-- In every session the printing succeeds. -/
def Gives (V : Visit → Prop) (x : PrintM σ α) (P : α → Prop) : Prop :=
  Ends V x fun r => ∃ a, r = .ok a ∧ P a

/-- In every session the printing succeeds or fails. -/
def Tries (V : Visit → Prop) (x : PrintM σ α) (P : α → Prop) : Prop :=
  Ends V x fun r => ∀ a, r = .ok a → P a

/-- **One printing after another.** -/
theorem Ends.bind {x : PrintM σ α} {k : α → PrintM σ β} {Q : Except FormatError α → Prop}
    {R : Except FormatError β → Prop} (hx : Ends V x Q) (hk : ∀ a, Q (.ok a) → Ends V (k a) R)
    (herror : ∀ e, Q (.error e) → R (.error e)) : Ends V (x >>= k) R := by
  intro session
  obtain ⟨hQ, visits, hvisits, hV⟩ := hx session
  rw [ExceptT.run_bind, StateT.run_bind]
  rcases hrun : x.run.run session with ⟨e | a, middle⟩
  · rw [hrun] at hQ hvisits
    exact ⟨herror e hQ, visits, hvisits, hV⟩
  · rw [hrun] at hQ hvisits
    obtain ⟨hR, visits', hvisits', hV'⟩ := hk a hQ middle
    refine ⟨hR, visits' ++ visits, ?_, List.forall_mem_append.mpr ⟨hV', hV⟩⟩
    rw [List.append_assoc, ← hvisits]
    exact hvisits'

theorem gives_pure {a : α} {P : α → Prop} (h : P a) : Gives (σ := σ) V (pure a) P :=
  fun _ => ⟨⟨a, rfl, h⟩, [], rfl, by simp⟩

theorem Gives.bind {x : PrintM σ α} {k : α → PrintM σ β} {P : α → Prop} {R : β → Prop}
    (hx : Gives V x P) (hk : ∀ a, P a → Gives V (k a) R) : Gives V (x >>= k) R := by
  refine Ends.bind hx ?_ ?_
  · rintro a ⟨b, hb, hP⟩
    exact hk a (Except.ok.inj hb ▸ hP)
  · rintro e ⟨b, hb, -⟩
    exact absurd hb (by simp)

theorem Gives.map {x : PrintM σ α} {P : α → Prop} {R : β → Prop} (hx : Gives V x P) (g : α → β)
    (h : ∀ a, P a → R (g a)) : Gives V (do return g (← x)) R :=
  hx.bind fun a ha => gives_pure (h a ha)

theorem Gives.tries {x : PrintM σ α} {P : α → Prop} (h : Gives V x P) : Tries V x P := by
  intro session
  obtain ⟨⟨b, hb, hP⟩, hvisits⟩ := h session
  refine ⟨fun a ha => ?_, hvisits⟩
  rw [hb] at ha
  exact Except.ok.inj ha ▸ hP

theorem Tries.bind {x : PrintM σ α} {k : α → PrintM σ β} {P : α → Prop} {R : β → Prop}
    (hx : Tries V x P) (hk : ∀ a, P a → Tries V (k a) R) : Tries V (x >>= k) R :=
  Ends.bind hx (fun a ha => hk a (ha a rfl)) fun e _ a ha => absurd ha (by simp)

theorem Tries.map {x : PrintM σ α} {P : α → Prop} {R : β → Prop} (hx : Tries V x P) (g : α → β)
    (h : ∀ a, P a → R (g a)) : Tries V (do return g (← x)) R :=
  hx.bind fun a ha => (gives_pure (h a ha)).tries

theorem gives_record {id : Nat} {doc : Doc} {failure : Option FormatError} {P : Doc → Prop}
    (hV : V ⟨id, doc, failure⟩) (h : P doc) : Gives (σ := σ) V (record id doc failure) P :=
  fun _ => ⟨⟨doc, rfl, h⟩, [⟨id, doc, failure⟩], rfl, by simpa using hV⟩

/-- **A failure that is contained**: the source text is printed instead. -/
theorem Tries.orKeep {body : PrintM σ Doc} {P : Doc → Prop} {id : Nat} {kept : Doc}
    (h : Tries V body P) (hV : ∀ d, V ⟨id, d, none⟩) (hkept : ∀ e, V ⟨id, kept, some e⟩)
    (hP : P kept) : Gives V (orKeep true id kept body) P := by
  have hprinted : Tries V (do record id (← body) none) P :=
    h.bind fun d hd => (gives_record (hV d) hd).tries
  intro session
  obtain ⟨hQ, visits, hvisits, hall⟩ := hprinted session
  unfold PrintM.orKeep
  rw [if_pos rfl, ExceptT.run_tryCatch, StateT.run_bind]
  rcases hrun : (do record id (← body) none : PrintM σ Doc).run.run session with ⟨e | d, middle⟩
  · rw [hrun] at hvisits
    refine ⟨⟨kept, rfl, hP⟩, ⟨id, kept, some e⟩ :: visits, ?_, ?_⟩
    · show _ :: middle.visits = _
      rw [hvisits, List.cons_append]
    · exact List.forall_mem_cons.mpr ⟨hkept e, hall⟩
  · rw [hrun] at hvisits hQ
    exact ⟨⟨d, rfl, hQ d rfl⟩, visits, hvisits, hall⟩

end PrintM

/-! ## Printings that fail -/

namespace PrintM

variable {σ α β : Type} {state : σ} {err : FormatError}

/-- With the markup formatter in the given state, the printing fails. -/
def Fails (state : σ) (err : FormatError) (x : PrintM σ α) : Prop :=
  ∀ visits, ∃ session, x.run.run ⟨state, visits⟩ = (.error err, session)

theorem Fails.bind {x : PrintM σ α} (h : Fails state err x) (k : α → PrintM σ β) :
    Fails state err (x >>= k) := by
  intro visits
  obtain ⟨session, hrun⟩ := h visits
  refine ⟨session, ?_⟩
  rw [ExceptT.run_bind, StateT.run_bind, hrun]
  rfl

/-- A printing that leaves the formatter alone does not keep the next one from failing. -/
theorem Prints.bind_fails {x : PrintM σ α} {a : α} {k : α → PrintM σ β} (hx : Prints x a)
    (hk : Fails state err (k a)) : Fails state err (x >>= k) := by
  intro visits
  obtain ⟨noted, hrun, -⟩ := hx ⟨state, visits⟩
  obtain ⟨session, hrun'⟩ := hk (noted ++ visits)
  refine ⟨session, ?_⟩
  rw [ExceptT.run_bind, StateT.run_bind, hrun]
  exact hrun'

/-- **What fails is kept as written**, and noted with the error. -/
theorem Fails.orKeep {body : PrintM σ Doc} (h : Fails state err body) (id : Nat) (kept : Doc)
    (visits : List Visit) : ∃ session,
      (orKeep true id kept body).run.run ⟨state, visits⟩ = (.ok kept, session) ∧
        session.visits.head? = some ⟨id, kept, some err⟩ := by
  obtain ⟨session, hrun⟩ := h.bind (fun doc => record id doc none) visits
  refine ⟨⟨session.markup, ⟨id, kept, some err⟩ :: session.visits⟩, ?_, rfl⟩
  unfold PrintM.orKeep
  rw [if_pos rfl, ExceptT.run_tryCatch, StateT.run_bind, hrun]
  rfl

end PrintM

open PrintM

/-! ## Splicing -/

section Deal

variable {α β γ : Type} {P : Nat → Doc → Prop} {is js : List Nat}

/-- The value is what `F` makes of the documents that the slots with the numbers `is` gave. -/
def Dealt (P : Nat → Doc → Prop) (is : List Nat) (F : List Doc → α) (a : α) : Prop :=
  ∃ given : Nat → Doc, (∀ i ∈ is, P i (given i)) ∧
    ∀ docs : List Doc, (∀ i ∈ is, docs.getD i .empty = given i) → a = F docs

theorem dealt_nil (a : α) : Dealt P [] (fun _ => a) a :=
  ⟨fun _ => .empty, by simp, fun _ _ => rfl⟩

theorem Dealt.map {F : List Doc → α} {a : α} (h : Dealt P is F a) (g : α → β) :
    Dealt P is (fun docs => g (F docs)) (g a) := by
  obtain ⟨given, hP, hF⟩ := h
  exact ⟨given, hP, fun docs hdocs => congrArg g (hF docs hdocs)⟩

/-- **Slots that are dealt one after the other** give one list of documents, if no slot is dealt
twice. -/
theorem Dealt.append {F : List Doc → α} {G : List Doc → β} {a : α} {b : β} (ha : Dealt P is F a)
    (hb : Dealt P js G b) (hnodup : (is ++ js).Nodup) (g : α → β → γ) :
    Dealt P (is ++ js) (fun docs => g (F docs) (G docs)) (g a b) := by
  obtain ⟨given, hP, hF⟩ := ha
  obtain ⟨given', hP', hG⟩ := hb
  -- a slot that were dealt on both sides would have two documents, one from each session
  have hnot : ∀ j ∈ js, j ∉ is := fun j hj hi => List.disjoint_of_nodup_append hnodup hi hj
  refine ⟨fun i => if i ∈ is then given i else given' i, fun i hi => ?_, fun docs hdocs => ?_⟩
  · dsimp only
    rcases List.mem_append.mp hi with hi | hi
    · rw [if_pos hi]
      exact hP i hi
    · rw [if_neg (hnot i hi)]
      exact hP' i hi
  · have ha : a = F docs := hF docs fun i hi => by
      simpa only [if_pos hi] using hdocs i (List.mem_append_left js hi)
    have hb : b = G docs := hG docs fun i hi => by
      simpa only [if_neg (hnot i hi)] using hdocs i (List.mem_append_right is hi)
    rw [ha, hb]

/-- Where every slot is dealt, the documents are a list. -/
theorem Dealt.exists_docs {n : Nat} {F : List Doc → α} {a : α} (h : Dealt P (List.range n) F a) :
    ∃ docs : List Doc, docs.length = n ∧ (∀ i < n, P i (docs.getD i .empty)) ∧ a = F docs := by
  obtain ⟨given, hP, hF⟩ := h
  have hget : ∀ i < n, ((List.range n).map given).getD i .empty = given i := by
    intro i hi
    simp [hi]
  refine ⟨(List.range n).map given, by simp, fun i hi => ?_, hF _ fun i hi => ?_⟩
  · rw [hget i hi]
    exact hP i (List.mem_range.mpr hi)
  · exact hget i (List.mem_range.mp hi)

end Deal

section Splicing

variable {σ : Type} {V : Visit → Prop} {slots : List (Slot (PrintM σ))} {P : Nat → Doc → Prop}

theorem gives_printPieces (h : ∀ i, Gives V (Splice.printPiece slots (.slot i)) (P i)) :
    ∀ pieces : List Splice.Piece, (pieces.filterMap Splice.Piece.index?).Nodup →
      Gives V (Splice.printPieces slots pieces)
        (Dealt P (pieces.filterMap Splice.Piece.index?) fun docs => pieces.map (pieceDoc docs))
  | [], _ => gives_pure (dealt_nil [])
  | .literal t :: pieces, hnodup =>
    (gives_printPieces h pieces hnodup).map _ fun ds hds => hds.map (Doc.ofText t :: ·)
  | .slot i :: pieces, hnodup => by
    refine (h i).bind fun d hd => ?_
    refine (gives_printPieces h pieces (List.nodup_cons.mp hnodup).2).map _ fun ds hds => ?_
    have hslot : Dealt P [i] (fun docs => docs.getD i .empty) d :=
      ⟨fun _ => d, by simpa using hd, fun docs hdocs => (hdocs i (List.mem_singleton_self i)).symm⟩
    exact hslot.append hds hnodup fun d ds => d :: ds

mutual

/-- What replacing the texts of a document gives: the document with those of the slots. -/
theorem gives_mapTextM (h : ∀ i, Gives V (Splice.printPiece slots (.slot i)) (P i))
    (keys : List Text) (hkeys : slots.map Slot.key = keys) :
    ∀ d : Doc, (Splice.found keys d).Nodup → Gives V (d.mapTextM (Splice.spliceText slots))
      (Dealt P (Splice.found keys d) fun docs => d.mapText (splicedText keys docs))
  | .empty, _ => by
    simp only [Doc.mapTextM, Doc.mapText]
    exact gives_pure (dealt_nil _)
  | .text t, hnodup => by
    have hfound : Splice.found keys (.text t) =
        (Splice.pieces keys t).filterMap Splice.Piece.index? := by
      rw [Splice.found, Doc.leaves, List.flatMap_singleton]
    rw [hfound] at hnodup ⊢
    simp only [Doc.mapTextM, Doc.mapText]
    unfold Splice.spliceText
    rw [hkeys]
    exact (gives_printPieces h _ hnodup).map Doc.join fun ds hds => hds.map Doc.join
  | .concat ds, hnodup => by
    have hfound : Splice.found keys (.concat ds) =
        ((Doc.leavesAll ds).flatMap (Splice.pieces keys)).filterMap Splice.Piece.index? := by
      rw [Splice.found, Doc.leaves]
    rw [hfound] at hnodup ⊢
    simp only [Doc.mapTextM, Doc.mapText]
    exact (gives_mapTextAllM h keys hkeys ds hnodup).map Doc.concat fun r hr => hr.map Doc.concat
  | .indent d, hnodup => by
    have hfound : Splice.found keys (.indent d) = Splice.found keys d := by
      rw [Splice.found, Doc.leaves, Splice.found]
    rw [hfound] at hnodup ⊢
    simp only [Doc.mapTextM, Doc.mapText]
    exact (gives_mapTextM h keys hkeys d hnodup).map Doc.indent fun r hr => hr.map Doc.indent
  | .group d broken, hnodup => by
    have hfound : Splice.found keys (.group d broken) = Splice.found keys d := by
      rw [Splice.found, Doc.leaves, Splice.found]
    rw [hfound] at hnodup ⊢
    simp only [Doc.mapTextM, Doc.mapText]
    exact (gives_mapTextM h keys hkeys d hnodup).map (Doc.group · broken) fun r hr =>
      hr.map (Doc.group · broken)
  | .line kind, _ => by
    simp only [Doc.mapTextM, Doc.mapText]
    exact gives_pure (dealt_nil _)

theorem gives_mapTextAllM (h : ∀ i, Gives V (Splice.printPiece slots (.slot i)) (P i))
    (keys : List Text) (hkeys : slots.map Slot.key = keys) : ∀ ds : List Doc,
      (((Doc.leavesAll ds).flatMap (Splice.pieces keys)).filterMap Splice.Piece.index?).Nodup →
      Gives V (Doc.mapTextAllM (Splice.spliceText slots) ds)
        (Dealt P (((Doc.leavesAll ds).flatMap (Splice.pieces keys)).filterMap Splice.Piece.index?)
          fun docs => Doc.mapTextAll (splicedText keys docs) ds)
  | [], _ => by
    simp only [Doc.mapTextAllM, Doc.mapTextAll]
    exact gives_pure (dealt_nil _)
  | d :: ds, hnodup => by
    rw [Doc.leavesAll, List.flatMap_append, List.filterMap_append] at hnodup ⊢
    have hd := gives_mapTextM h keys hkeys d (List.nodup_append.mp hnodup).1
    have hds := gives_mapTextAllM h keys hkeys ds (List.nodup_append.mp hnodup).2.1
    simp only [Doc.mapTextAllM, Doc.mapTextAll]
    exact hd.bind fun r hr => hds.map _ fun rs hrs => hr.append hrs hnodup fun r rs => r :: rs

end

/-- **What splicing gives** if every placeholder is found once: the document with those of the
slots. -/
theorem gives_splice {keys : List Text} {doc : Doc} {n : Nat} (span : Span)
    (h : ∀ i, Gives V (Splice.printPiece slots (.slot i)) (P i))
    (hkeys : slots.map Slot.key = keys) (hlength : keys.length = n)
    (hfound : Splice.found keys doc = List.range n) :
    Gives V (Splice.splice doc slots span) fun d => ∃ docs : List Doc, docs.length = n ∧
      (∀ i < n, P i (docs.getD i .empty)) ∧ d = doc.mapText (splicedText keys docs) := by
  have hused : Splice.misused? (slots.map Slot.key) doc = none := by
    refine Splice.misused?_eq_none ?_
    rw [hkeys, hfound, hlength]
  have hmap := gives_mapTextM h keys hkeys doc (hfound ▸ List.nodup_range)
  rw [hfound] at hmap
  unfold Splice.splice
  refine hmap.bind fun d hd => ?_
  rw [hused]
  exact gives_pure hd.exists_docs

end Splicing

end TemplateFormat
