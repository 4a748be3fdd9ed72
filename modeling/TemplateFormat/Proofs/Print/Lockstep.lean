import TemplateFormat.Format
import TemplateFormat.Proofs.Doc.Chunks
import Mathlib.Data.List.Forall2

/-!
# Printing in lockstep

Two markup formatters, each with a state of its own, are asked for the same markup. If the second
one answers as the first does but for the chunks that its texts are cut into, then nothing that is
made of the answers differs: the printings go in lockstep. `Lockstep R Q x y` says so of two
printings: in sessions that agree, with the states of the formatters related by `R`, they both fail
with one error or both succeed with values that `Q` relates, and the sessions still agree.

A container looks at the answer only after the line break at its end is removed and its texts are
joined, and then the chunks are gone (`Doc.Chunked.mergeText_eq`). From there on the values are
equal.

Results:
* `Lockstep.bind`, `Lockstep.orKeep`, `lockstep_splice`: what printing is put together from.
* `Printer.lockstep_container`: chunks are gone behind a container.
* `Printer.lockstep_node`, `Printer.lockstep_tree`: nodes and whole templates.
* `formatWith_chunked`: the output does not depend on how texts are cut.
-/

namespace TemplateFormat

/-- Both failed with the same error, or both succeeded with related values. -/
inductive Matches {α β : Type} (Q : α → β → Prop) : Except FormatError α → Except FormatError β → Prop
  | error (e : FormatError) : Matches Q (.error e) (.error e)
  | ok {a : α} {b : β} : Q a b → Matches Q (.ok a) (.ok b)

theorem Matches.eq {α : Type} {r r' : Except FormatError α} (h : Matches Eq r r') : r = r' := by
  cases h with
  | error e => rfl
  | ok hab => rw [hab]

variable {σ τ : Type} {R : σ → τ → Prop}

namespace PrintM

variable {α β γ δ : Type} {Q : α → β → Prop} {P : γ → δ → Prop}

/-- The states of the markup formatters are related, and the same nodes have been noted. -/
structure Agree (R : σ → τ → Prop) (s : Session σ) (s' : Session τ) : Prop where
  markup : R s.markup s'.markup
  visits : s.visits = s'.visits

/-- In sessions that agree, the outcomes match, and the sessions agree afterwards. -/
def Lockstep (R : σ → τ → Prop) (Q : α → β → Prop) (x : PrintM σ α) (y : PrintM τ β) : Prop :=
  ∀ s s', Agree R s s' → Matches Q (x.run.run s).1 (y.run.run s').1 ∧
    Agree R (x.run.run s).2 (y.run.run s').2

theorem lockstep_pure {a : α} {b : β} (h : Q a b) : Lockstep R Q (pure a) (pure b) :=
  fun _ _ hs => ⟨.ok h, hs⟩

theorem lockstep_throw (e : FormatError) :
    Lockstep R Q (throw e : PrintM σ α) (throw e : PrintM τ β) :=
  fun _ _ hs => ⟨.error e, hs⟩

/-- **One printing after another.** -/
theorem Lockstep.bind {x : PrintM σ α} {y : PrintM τ β} {k : α → PrintM σ γ} {l : β → PrintM τ δ}
    (hx : Lockstep R Q x y) (hk : ∀ a b, Q a b → Lockstep R P (k a) (l b)) :
    Lockstep R P (x >>= k) (y >>= l) := by
  intro s s' hs
  obtain ⟨hmatch, hagree⟩ := hx s s' hs
  rw [ExceptT.run_bind, StateT.run_bind, ExceptT.run_bind, StateT.run_bind]
  rcases hrun : x.run.run s with ⟨r, middle⟩
  rcases hrun' : y.run.run s' with ⟨r', middle'⟩
  rw [hrun, hrun'] at hmatch hagree
  cases hmatch with
  | error e => exact ⟨.error e, hagree⟩
  | ok hab => exact hk _ _ hab middle middle' hagree

theorem Lockstep.map {x : PrintM σ α} {y : PrintM τ β} {g : α → γ} {g' : β → δ}
    (hx : Lockstep R Q x y) (h : ∀ a b, Q a b → P (g a) (g' b)) :
    Lockstep R P (do return g (← x)) (do return g' (← y)) :=
  hx.bind fun a b hab => lockstep_pure (h a b hab)

/-- The same function of equal values. -/
theorem Lockstep.map_eq {x : PrintM σ α} {y : PrintM τ α} (hx : Lockstep R Eq x y) (g : α → γ) :
    Lockstep R Eq (do return g (← x)) (do return g (← y)) :=
  hx.map fun _ _ h => congrArg g h

theorem lockstep_record (id : Nat) (doc : Doc) (failure : Option FormatError) :
    Lockstep R Eq (record id doc failure) (record id doc failure) :=
  fun _ _ hs => ⟨.ok rfl, hs.markup, congrArg (_ :: ·) hs.visits⟩

/-- **A container is kept as written in both or in neither.** -/
theorem Lockstep.orKeep {body : PrintM σ Doc} {body' : PrintM τ Doc} (h : Lockstep R Eq body body')
    (keep : Bool) (id : Nat) (kept : Doc) :
    Lockstep R Eq (orKeep keep id kept body) (orKeep keep id kept body') := by
  have hprinted : Lockstep R Eq (do record id (← body) none) (do record id (← body') none) :=
    h.bind fun d _ hd => hd ▸ lockstep_record id d none
  unfold PrintM.orKeep
  cases keep with
  | false => exact hprinted
  | true =>
    intro s s' hs
    obtain ⟨hmatch, hagree⟩ := hprinted s s' hs
    rw [if_pos rfl, if_pos rfl, ExceptT.run_tryCatch, ExceptT.run_tryCatch, StateT.run_bind,
      StateT.run_bind]
    rcases hrun : (do record id (← body) none : PrintM σ Doc).run.run s with ⟨r, middle⟩
    rcases hrun' : (do record id (← body') none : PrintM τ Doc).run.run s' with ⟨r', middle'⟩
    rw [hrun, hrun'] at hmatch hagree
    cases hmatch with
    | error e => exact lockstep_record id kept (some e) middle middle' hagree
    | ok hab => exact ⟨.ok hab, hagree⟩

/-! ## Splicing -/

section Texts

variable {g : Text → PrintM σ Doc} {g' : Text → PrintM τ Doc}

mutual

/-- Replacing the texts of one document. -/
theorem lockstep_mapTextM (h : ∀ t, Lockstep R Eq (g t) (g' t)) : ∀ d : Doc,
    Lockstep R Eq (d.mapTextM g) (d.mapTextM g')
  | .empty => by
    rw [Doc.mapTextM, Doc.mapTextM]
    exact lockstep_pure rfl
  | .text t => by
    rw [Doc.mapTextM, Doc.mapTextM]
    exact h t
  | .concat ds => by
    rw [Doc.mapTextM, Doc.mapTextM]
    exact (lockstep_mapTextAllM h ds).map_eq Doc.concat
  | .indent d => by
    rw [Doc.mapTextM, Doc.mapTextM]
    exact (lockstep_mapTextM h d).map_eq Doc.indent
  | .group d broken => by
    rw [Doc.mapTextM, Doc.mapTextM]
    exact (lockstep_mapTextM h d).map_eq (Doc.group · broken)
  | .line kind => by
    rw [Doc.mapTextM, Doc.mapTextM]
    exact lockstep_pure rfl

theorem lockstep_mapTextAllM (h : ∀ t, Lockstep R Eq (g t) (g' t)) : ∀ ds : List Doc,
    Lockstep R Eq (Doc.mapTextAllM g ds) (Doc.mapTextAllM g' ds)
  | [] => by
    rw [Doc.mapTextAllM, Doc.mapTextAllM]
    exact lockstep_pure rfl
  | d :: ds => by
    rw [Doc.mapTextAllM, Doc.mapTextAllM]
    exact (lockstep_mapTextM h d).bind fun d' _ hd =>
      hd ▸ (lockstep_mapTextAllM h ds).map_eq (d' :: ·)

end

end Texts

/-- The slots have the same placeholders, and are printed in lockstep. -/
def SlotsMatch (R : σ → τ → Prop) (slots : List (Slot (PrintM σ))) (slots' : List (Slot (PrintM τ))) :
    Prop :=
  List.Forall₂ (fun s s' => s.key = s'.key ∧ Lockstep R Eq s.print s'.print) slots slots'

variable {slots : List (Slot (PrintM σ))} {slots' : List (Slot (PrintM τ))}

theorem SlotsMatch.keys_eq (h : SlotsMatch R slots slots') :
    slots.map Slot.key = slots'.map Slot.key := by
  induction h with
  | nil => rfl
  | cons hs _ ih => rw [List.map_cons, List.map_cons, hs.1, ih]

theorem lockstep_printPiece (h : SlotsMatch R slots slots') : ∀ piece,
    Lockstep R Eq (Splice.printPiece slots piece) (Splice.printPiece slots' piece)
  | .literal t => lockstep_pure rfl
  | .slot index => by
    induction h generalizing index with
    | nil => exact lockstep_pure rfl
    | cons hs _ ih =>
      cases index with
      | zero => exact hs.2
      | succ index => exact ih index

theorem lockstep_printPieces (h : SlotsMatch R slots slots') : ∀ pieces,
    Lockstep R Eq (Splice.printPieces slots pieces) (Splice.printPieces slots' pieces)
  | [] => lockstep_pure rfl
  | piece :: pieces => (lockstep_printPiece h piece).bind fun d _ hd =>
      hd ▸ (lockstep_printPieces h pieces).map_eq (d :: ·)

/-- **Splicing one document**: the placeholders found in it are the same. -/
theorem lockstep_splice (h : SlotsMatch R slots slots') (doc : Doc) (span : Span) :
    Lockstep R Eq (Splice.splice doc slots span) (Splice.splice doc slots' span) := by
  have htext (t : Text) :
      Lockstep R Eq (Splice.spliceText slots t) (Splice.spliceText slots' t) := by
    unfold Splice.spliceText
    rw [h.keys_eq]
    exact (lockstep_printPieces h _).map_eq Doc.join
  unfold Splice.splice
  rw [h.keys_eq]
  refine (lockstep_mapTextM htext doc).bind fun d _ hd => ?_
  cases Splice.misused? (slots'.map Slot.key) doc with
  | none => exact lockstep_pure hd
  | some misuse => exact lockstep_throw _

end PrintM

open PrintM

/-! ## Formatters -/

/-- The second formatter answers as the first one does, but for the chunks that texts are cut into.
-/
def MarkupFormatter.Chunked (R : σ → τ → Prop) (f : MarkupFormatter σ) (g : MarkupFormatter τ) :
    Prop :=
  ∀ embedded markup s s', R s s' →
    Matches Doc.Chunked ((f embedded markup).run.run s).1 ((g embedded markup).run.run s').1 ∧
      R ((f embedded markup).run.run s).2 ((g embedded markup).run.run s').2

namespace Printer

variable {p : Printer σ} {g : MarkupFormatter τ}

/-- The printer with another markup formatter. -/
def withFormatter (p : Printer σ) (g : MarkupFormatter τ) : Printer τ :=
  ⟨p.source, p.stem, p.settings, g⟩

/-- **Behind a container the chunks are gone.** -/
theorem lockstep_container (hg : MarkupFormatter.Chunked R p.formatter g)
    {slots : List (Slot (PrintM σ))} {slots' : List (Slot (PrintM τ))} (h : SlotsMatch R slots slots')
    (embedded : Bool) (aliased : Text) (span : Span) :
    Lockstep R Eq (p.container embedded aliased slots span)
      ((p.withFormatter g).container embedded aliased slots' span) := by
  have hformat : Lockstep R Doc.Chunked (formatMarkup p.formatter embedded aliased)
      (formatMarkup g embedded aliased) := fun s s' hs =>
    have hanswer := hg embedded aliased s.markup s'.markup hs.markup
    ⟨hanswer.1, hanswer.2, hs.visits⟩
  refine hformat.bind fun d d' hd => ?_
  rw [hd.stripHardline.mergeText_eq]
  exact lockstep_splice h _ span

theorem lockstep_bodyEdges (hg : MarkupFormatter.Chunked R p.formatter g)
    {slots : List (Slot (PrintM σ))} {slots' : List (Slot (PrintM τ))} (h : SlotsMatch R slots slots')
    (aliased : Text) (span : Span) :
    Lockstep R Eq (p.bodyEdges aliased slots span)
      ((p.withFormatter g).bodyEdges aliased slots' span) := by
  unfold bodyEdges
  split
  · exact lockstep_pure rfl
  · exact (lockstep_container hg h true aliased span).map_eq splitEdges

theorem lockstep_leaf (l : Leaf) : Lockstep R Eq (p.leaf l) ((p.withFormatter g).leaf l) :=
  lockstep_record l.id _ none

theorem lockstep_optional (stop : Option Leaf) :
    Lockstep R Eq (optional (stop.map p.leaf)) (optional (stop.map (p.withFormatter g).leaf)) := by
  cases stop with
  | none => exact lockstep_pure rfl
  | some l => exact lockstep_leaf l

/-- **A block is printed from its parts in lockstep.** -/
theorem lockstep_block (hg : MarkupFormatter.Chunked R p.formatter g) (info : Info) (frame : Frame)
    (children : List Node) {slots : List (Slot (PrintM σ))} {slots' : List (Slot (PrintM τ))}
    (h : SlotsMatch R slots slots') :
    Lockstep R Eq
      (p.block info frame children (p.leaf frame.start) (frame.stop.map p.leaf) slots)
      ((p.withFormatter g).block info frame children ((p.withFormatter g).leaf frame.start)
        (frame.stop.map (p.withFormatter g).leaf) slots') := by
  unfold block
  by_cases hignored : info.ignored = true
  · rw [if_pos hignored, if_pos hignored]
    exact lockstep_pure rfl
  · rw [if_neg hignored, if_neg hignored]
    refine (lockstep_leaf frame.start).bind fun start _ hstart => ?_
    refine (lockstep_optional frame.stop).bind fun stop _ hstop => ?_
    subst hstart hstop
    by_cases hkeyword : frame.keyword = .ignoreStartKw
    · rw [if_pos hkeyword, if_pos hkeyword]
      exact lockstep_pure rfl
    · rw [if_neg hkeyword, if_neg hkeyword]
      exact (lockstep_bodyEdges hg h _ info.span).map_eq _

mutual

/-- **A node is printed in lockstep**, by induction on the tree. -/
theorem lockstep_node (hg : MarkupFormatter.Chunked R p.formatter g) : ∀ n : Node,
    Lockstep R Eq (p.node n) ((p.withFormatter g).node n)
  | .action info text act => by
    rw [node, node]
    exact lockstep_record _ _ _
  | .raw info text => by
    rw [node, node]
    exact lockstep_record _ _ _
  | .block info frame children => by
    rw [node, node]
    exact (lockstep_block hg info frame children (lockstep_slots hg children)).orKeep _ _ _
  | .chain info branches => by
    rw [node, node]
    split
    · exact lockstep_record _ _ _
    · exact (lockstep_nodes hg branches).bind fun docs _ hdocs => hdocs ▸ lockstep_record _ _ _

/-- The slots of siblings are printed in lockstep. -/
theorem lockstep_slots (hg : MarkupFormatter.Chunked R p.formatter g) : ∀ ns : List Node,
    SlotsMatch R (p.slots ns) ((p.withFormatter g).slots ns)
  | [] => by
    rw [slots, slots]
    exact .nil
  | n :: ns => by
    rw [slots, slots]
    exact .cons ⟨rfl, lockstep_node hg n⟩ (lockstep_slots hg ns)

/-- Siblings are printed in lockstep. -/
theorem lockstep_nodes (hg : MarkupFormatter.Chunked R p.formatter g) : ∀ ns : List Node,
    Lockstep R Eq (p.nodes ns) ((p.withFormatter g).nodes ns)
  | [] => by
    rw [nodes, nodes]
    exact lockstep_pure rfl
  | n :: ns => by
    rw [nodes, nodes]
    exact (lockstep_node hg n).bind fun d _ hd => hd ▸ (lockstep_nodes hg ns).map_eq (d :: ·)

end

/-- **A template is printed in lockstep.** -/
theorem lockstep_tree (hg : MarkupFormatter.Chunked R p.formatter g) (t : Tree) :
    Lockstep R Eq (p.tree t) ((p.withFormatter g).tree t) := by
  have hroot := lockstep_container hg (lockstep_slots hg t.children) false t.aliased t.span
  exact (hroot.map_eq fun d => Doc.join [d, .hardline]).orKeep _ _ _

end Printer

/-! ## Runs of the formatter -/

/-- **How a markup formatter cuts its texts does not matter.** If a formatter answers as another one
does, errors included, but for texts that are cut into chunks, then every template is formatted with
both to the same output or fails with both for the same reason. The two may keep different states,
and the cuts may go through placeholders. -/
theorem formatWith_chunked {f : MarkupFormatter σ} {g : MarkupFormatter τ} {s : σ} {s' : τ}
    (hg : MarkupFormatter.Chunked R f g) (hs : R s s') (settings : Settings) (source : Text) :
    ((formatWith g settings source).run.run { markup := s' }).1 =
      ((formatWith f settings source).run.run { markup := s }).1 := by
  have hlockstep : Lockstep R Eq (formatWith f settings source) (formatWith g settings source) := by
    unfold formatWith
    cases parse source with
    | error e => exact lockstep_throw e
    | ok tree =>
      refine (Printer.lockstep_tree (p := Printer.ofTree tree settings f) hg tree).bind
        fun doc _ hdoc => ?_
      subst hdoc
      dsimp only
      split
      · exact lockstep_throw _
      · exact lockstep_pure rfl
  exact (hlockstep { markup := s } { markup := s' } ⟨hs, rfl⟩).1.eq.symm

/-- The text in two chunks, the first of them `n` characters long; left whole if one would be empty.
-/
def Doc.cutAt (n : Nat) (t : Text) : Doc :=
  if 0 < n ∧ n < t.length then .concat [.text (t.take n), .text (t.drop n)] else .text t

theorem Doc.chunked_cutAt (n : Nat) (t : Text) : Doc.Chunked (.text t) (Doc.cutAt n t) := by
  unfold Doc.cutAt
  split
  · rename_i h
    have hflat : [t.take n, t.drop n].flatten = t := by
      rw [List.flatten_cons, List.flatten_cons, List.flatten_nil, List.append_nil,
        List.take_append_drop]
    have hmem : [] ∉ [t.take n, t.drop n] := by
      intro hmem
      rcases List.mem_pair.mp hmem with he | he
      · have := congrArg List.length he
        rw [List.length_nil, List.length_take] at this
        omega
      · have := congrArg List.length he
        rw [List.length_nil, List.length_drop] at this
        omega
    have hcut := Doc.Chunked.cut (by simp) hmem
    rwa [hflat] at hcut
  · exact .whole t

/-- Formats as HTML, and counts the calls: the call with number `n` cuts texts behind `n`
characters. -/
def Markup.cutting : MarkupFormatter Nat := fun embedded markup =>
  ExceptT.mk fun n => (.ok ((Markup.Html.format embedded markup).mapText (Doc.cutAt n)), n + 1)

theorem Markup.chunked_cutting :
    MarkupFormatter.Chunked (fun _ _ => True) (Markup.html (σ := Unit)) Markup.cutting :=
  fun embedded markup _ n _ =>
    ⟨.ok (Doc.chunked_mapText (Doc.chunked_cutAt n) (Markup.Html.format embedded markup)), trivial⟩

/-- The placeholder of the block is cut behind its first two characters, that of the action in the
block behind its first three. -/
theorem formatWith_chunked_cuts :
    ((formatWith Markup.cutting {} "{{if a}}\n{{b}} c{{end}}".toList).run.run { markup := 2 }).1 =
        format {} "{{if a}}\n{{b}} c{{end}}".toList ∧
      (format {} "{{if a}}\n{{b}} c{{end}}".toList).toOption =
        some "{{ if a }}{{ b }} c{{ end }}\n".toList :=
  ⟨formatWith_chunked Markup.chunked_cutting trivial {} _, by decide +kernel⟩

end TemplateFormat
