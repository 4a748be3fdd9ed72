import TemplateFormat.Format
import TemplateFormat.Proofs.Print.Session
import TemplateFormat.Proofs.Splice.Fill
import TemplateFormat.Proofs.Tree.Container
import TemplateFormat.Proofs.Tree.Reach

/-!
# Every node is printed once

A markup formatter may do anything with the placeholders it is given. Splicing counts what is left
of them, and fails unless each of them is found once; then each child has been printed once, in
whatever order. So where printing succeeds and failures are not contained, the nodes that were
printed are those that are reached from the root, each once (`Notes`), whatever the markup formatter
did.

Results:
* `Notes.bind`, `notes_mapTextM`, `notes_splice`: what sequences and splicing note.
* `Printer.notes_node`, `Printer.notes_tree`: what the printing of a node and of a template notes.
* `formatWith_prints_once`: the nodes printed in a run of the formatter.
-/

namespace TemplateFormat

namespace PrintM

variable {σ α β : Type}

/-- Where the printing succeeds, it has noted the nodes with the given numbers, in some order. -/
def Notes (x : PrintM σ α) (ids : List Nat) : Prop :=
  ∀ session a session', x.run.run session = (.ok a, session') →
    ∃ visits, session'.visits = visits ++ session.visits ∧ (visits.map Visit.id).Perm ids

theorem notes_pure (a : α) : Notes (σ := σ) (pure a) [] := by
  intro session b session' h
  obtain ⟨-, rfl⟩ := Prod.mk.inj h
  exact ⟨[], rfl, .refl _⟩

/-- **One printing after another.** -/
theorem Notes.bind {x : PrintM σ α} {k : α → PrintM σ β} {ids ids' : List Nat} (hx : Notes x ids)
    (hk : ∀ a, Notes (k a) ids') : Notes (x >>= k) (ids ++ ids') := by
  intro session b session' h
  obtain ⟨a, middle, hrun, hrun'⟩ := run_bind_eq_ok.mp h
  obtain ⟨visits, hvisits, hids⟩ := hx _ _ _ hrun
  obtain ⟨visits', hvisits', hids'⟩ := hk a _ _ _ hrun'
  refine ⟨visits' ++ visits, ?_, ?_⟩
  · rw [hvisits', hvisits, List.append_assoc]
  · rw [List.map_append]
    exact (hids'.append hids).trans List.perm_append_comm

theorem Notes.map {x : PrintM σ α} {ids : List Nat} (hx : Notes x ids) (g : α → β) :
    Notes (do return g (← x)) ids := by
  have := hx.bind (k := fun a => pure (g a)) fun a => notes_pure (g a)
  rwa [List.append_nil] at this

theorem Notes.perm {x : PrintM σ α} {ids ids' : List Nat} (hx : Notes x ids) (h : ids.Perm ids') :
    Notes x ids' := by
  intro session a session' hrun
  obtain ⟨visits, hvisits, hids⟩ := hx _ _ _ hrun
  exact ⟨visits, hvisits, hids.trans h⟩

theorem notes_record (id : Nat) (doc : Doc) (failure : Option FormatError) :
    Notes (σ := σ) (record id doc failure) [id] := by
  intro session a session' h
  obtain ⟨-, rfl⟩ := Prod.mk.inj h
  exact ⟨[⟨id, doc, failure⟩], rfl, .refl _⟩

/-- A markup formatter notes nothing. -/
theorem notes_formatMarkup (formatter : MarkupFormatter σ) (embedded : Bool) (markup : Text) :
    Notes (formatMarkup formatter embedded markup) [] := by
  intro session a session' h
  obtain ⟨-, rfl⟩ := Prod.mk.inj h
  exact ⟨[], rfl, .refl _⟩

/-- Where failures are not contained, the container is noted behind what is in it. -/
theorem Notes.orKeep {body : PrintM σ Doc} {ids : List Nat} (h : Notes body ids) (id : Nat)
    (kept : Doc) : Notes (orKeep false id kept body) (id :: ids) :=
  (h.bind fun doc => notes_record id doc none).perm List.perm_append_comm

/-! ## Splicing -/

section Texts

variable {g : Text → PrintM σ Doc} {ids : Text → List Nat}

mutual

/-- Replacing the texts of a document notes what each of them does. -/
theorem notes_mapTextM (h : ∀ t, Notes (g t) (ids t)) : ∀ d : Doc,
    Notes (d.mapTextM g) (d.leaves.flatMap ids)
  | .empty => by
    rw [Doc.mapTextM, Doc.leaves]
    exact notes_pure _
  | .text t => by
    rw [Doc.mapTextM, Doc.leaves, List.flatMap_singleton]
    exact h t
  | .concat ds => by
    rw [Doc.mapTextM, Doc.leaves]
    exact (notes_mapTextAllM h ds).map Doc.concat
  | .indent d => by
    rw [Doc.mapTextM, Doc.leaves]
    exact (notes_mapTextM h d).map Doc.indent
  | .group d broken => by
    rw [Doc.mapTextM, Doc.leaves]
    exact (notes_mapTextM h d).map (Doc.group · broken)
  | .line kind => by
    rw [Doc.mapTextM, Doc.leaves]
    exact notes_pure _

theorem notes_mapTextAllM (h : ∀ t, Notes (g t) (ids t)) : ∀ ds : List Doc,
    Notes (Doc.mapTextAllM g ds) ((Doc.leavesAll ds).flatMap ids)
  | [] => by
    rw [Doc.mapTextAllM, Doc.leavesAll]
    exact notes_pure _
  | d :: ds => by
    rw [Doc.mapTextAllM, Doc.leavesAll, List.flatMap_append]
    exact (notes_mapTextM h d).bind fun d' => (notes_mapTextAllM h ds).map (d' :: ·)

end

end Texts

variable {slots : List (Slot (PrintM σ))} {idss : List (List Nat)}

/-- What is noted for the slot at an index. -/
def slotIds (idss : List (List Nat)) (index : Nat) : List Nat := idss.getD index []

theorem notes_printPiece (h : List.Forall₂ (fun s is => Notes s.print is) slots idss) :
    ∀ piece, Notes (Splice.printPiece slots piece) (piece.index?.toList.flatMap (slotIds idss))
  | .literal t => notes_pure _
  | .slot index => by
    show Notes _ ([index].flatMap (slotIds idss))
    rw [List.flatMap_singleton]
    induction h generalizing index with
    | nil => exact notes_pure _
    | cons hd _ ih =>
      cases index with
      | zero => exact hd
      | succ index => exact ih index

theorem notes_printPieces (h : List.Forall₂ (fun s is => Notes s.print is) slots idss) :
    ∀ pieces, Notes (Splice.printPieces slots pieces)
      ((pieces.filterMap Splice.Piece.index?).flatMap (slotIds idss))
  | [] => notes_pure _
  | piece :: pieces => by
    have hpieces : (piece :: pieces).filterMap Splice.Piece.index? =
        piece.index?.toList ++ pieces.filterMap Splice.Piece.index? := by
      cases piece <;> rfl
    rw [hpieces, List.flatMap_append]
    exact (notes_printPiece h piece).bind fun d => (notes_printPieces h pieces).map (d :: ·)

/-- Each slot once, in order, notes what all slots do. -/
theorem flatMap_range_slotIds (idss : List (List Nat)) :
    (List.range idss.length).flatMap (slotIds idss) = idss.flatten := by
  have hmap : (List.range idss.length).map (slotIds idss) = idss := by
    refine List.ext_getElem (by simp) fun i h h' => ?_
    simp [slotIds, h']
  rw [List.flatMap_def, hmap]

/-- **Splicing prints each slot once**, or fails. -/
theorem notes_splice (h : List.Forall₂ (fun s is => Notes s.print is) slots idss) (doc : Doc)
    (span : Span) : Notes (Splice.splice doc slots span) idss.flatten := by
  have htext (t : Text) : Notes (Splice.spliceText slots t)
      (((Splice.pieces (slots.map Slot.key) t).filterMap Splice.Piece.index?).flatMap
        (slotIds idss)) :=
    (notes_printPieces h _).map Doc.join
  have hdoc := notes_mapTextM htext doc
  have hfound : (doc.leaves.flatMap fun t => ((Splice.pieces (slots.map Slot.key) t).filterMap
      Splice.Piece.index?).flatMap (slotIds idss)) =
        (Splice.found (slots.map Slot.key) doc).flatMap (slotIds idss) := by
    rw [Splice.found, List.filterMap_flatMap, List.flatMap_assoc]
  rw [hfound] at hdoc
  unfold Splice.splice
  cases hused : Splice.misused? (slots.map Slot.key) doc with
  | none =>
    have hperm := Splice.found_perm_of_misused? hused
    rw [List.length_map, h.length_eq] at hperm
    refine (hdoc.map id).perm ((hperm.flatMap_right _).trans ?_)
    rw [flatMap_range_slotIds]
  | some misuse =>
    intro session a session' hrun
    obtain ⟨out, middle, -, hthrow⟩ := run_bind_eq_ok.mp hrun
    exact absurd (Prod.mk.inj hthrow).1 (by simp)

end PrintM

/-! ## Nodes -/

open PrintM

namespace Printer

variable {σ : Type} {p : Printer σ}

theorem notes_leaf (p : Printer σ) (l : Leaf) : Notes (p.leaf l) [l.id] := notes_record l.id _ none

theorem notes_optional (p : Printer σ) (stop : Option Leaf) :
    Notes (optional (stop.map p.leaf)) (stop.map Leaf.id).toList := by
  cases stop with
  | none => exact notes_pure _
  | some l => exact notes_leaf p l

theorem notes_container {slots : List (Slot (PrintM σ))} {idss : List (List Nat)}
    (h : List.Forall₂ (fun s is => Notes s.print is) slots idss) (embedded : Bool) (aliased : Text)
    (span : Span) : Notes (p.container embedded aliased slots span) idss.flatten :=
  (notes_formatMarkup p.formatter embedded aliased).bind fun _ => notes_splice h _ span

/-- The body of a block notes its children, also where it is blank and not formatted at all. -/
theorem notes_bodyEdges {frame : Frame} {children : List Node} {idss : List (List Nat)}
    (h : List.Forall₂ (fun s is => Notes s.print is) (p.slots children) idss) (span : Span) :
    Notes (p.bodyEdges (frame.aliased p.stem children) (p.slots children) span) idss.flatten := by
  unfold bodyEdges
  split
  · rename_i hblank
    obtain rfl : children = [] :=
      Container.children_eq_nil (c := ⟨children, frame.tail, span⟩) hblank
    rw [slots] at h
    cases h
    exact notes_pure _
  · exact (notes_container h true _ span).map splitEdges

/-- What is noted in a block, the block itself apart. -/
def blockIds (info : Info) (frame : Frame) (ids : List Nat) : List Nat :=
  if info.ignored then []
  else frame.start.id :: ((frame.stop.map Leaf.id).toList ++
    if frame.keyword = .ignoreStartKw then [] else ids)

/-- **A block notes its actions and its children**, unless they are kept as written. -/
theorem notes_block (info : Info) (frame : Frame) {children : List Node} {idss : List (List Nat)}
    (h : List.Forall₂ (fun s is => Notes s.print is) (p.slots children) idss) :
    Notes (p.block info frame children (p.leaf frame.start) (frame.stop.map p.leaf)
      (p.slots children)) (blockIds info frame idss.flatten) := by
  unfold block blockIds
  by_cases hignored : info.ignored = true
  · rw [if_pos hignored, if_pos hignored]
    exact notes_pure _
  · rw [if_neg hignored, if_neg hignored]
    refine (notes_leaf p frame.start).bind fun start => ?_
    refine (notes_optional p frame.stop).bind fun stop => ?_
    by_cases hkeyword : frame.keyword = .ignoreStartKw
    · rw [if_pos hkeyword, if_pos hkeyword]
      exact notes_pure _
    · rw [if_neg hkeyword, if_neg hkeyword]
      exact (notes_bodyEdges h info.span).map _

/-- The numbers reached from a block are its own and those noted in it. -/
theorem reach_block_perm (info : Info) (frame : Frame) (children : List Node) :
    (info.id :: blockIds info frame ((Node.reachAll children).map Entry.id)).Perm
      ((Node.block info frame children).reach.map Entry.id) := by
  have hstop : ((frame.stop.map (Entry.edge .closes)).toList.map Entry.id) =
      (frame.stop.map Leaf.id).toList := by
    cases frame.stop <;> rfl
  rw [Node.reach, blockIds, List.map_cons]
  refine List.Perm.cons _ ?_
  split
  · exact .refl _
  · rw [List.map_cons, List.map_append, hstop]
    refine List.Perm.cons _ (List.perm_append_comm.trans ?_)
    split <;> exact .refl _

mutual

/-- **Printing a node notes what is reached from it**, once each. -/
theorem notes_node (hp : p.keeps = false) : ∀ n : Node,
    Notes (p.node n) (n.reach.map Entry.id)
  | .action info text act => by
    rw [node, Node.reach]
    exact notes_record _ _ _
  | .raw info text => by
    rw [node, Node.reach]
    exact notes_record _ _ _
  | .block info frame children => by
    rw [node, hp]
    have hblock := notes_block info frame (notes_slots hp children)
    rw [← List.flatMap_def, ← List.map_flatMap, ← Node.reachAll_eq_flatMap] at hblock
    exact (hblock.orKeep _ _).perm (reach_block_perm info frame children)
  | .chain info branches => by
    rw [node, Node.reach]
    split
    · exact notes_record _ _ _
    · exact ((notes_nodes hp branches).bind fun docs => notes_record _ _ _).perm
        List.perm_append_comm

/-- The slots of siblings note what is reached from them. -/
theorem notes_slots (hp : p.keeps = false) : ∀ ns : List Node,
    List.Forall₂ (fun s is => Notes s.print is) (p.slots ns)
      (ns.map fun n => n.reach.map Entry.id)
  | [] => by
    rw [slots]
    exact .nil
  | n :: ns => by
    rw [slots]
    exact .cons (notes_node hp n) (notes_slots hp ns)

/-- Printing siblings notes what is reached from them. -/
theorem notes_nodes (hp : p.keeps = false) : ∀ ns : List Node,
    Notes (p.nodes ns) ((Node.reachAll ns).map Entry.id)
  | [] => by
    rw [nodes, Node.reachAll]
    exact notes_pure _
  | n :: ns => by
    rw [nodes, Node.reachAll, List.map_append]
    exact (notes_node hp n).bind fun d => (notes_nodes hp ns).map (d :: ·)

end

/-- **Printing a template notes what is reached in it**, once each. -/
theorem notes_tree (hp : p.keeps = false) (t : Tree) :
    Notes (p.tree t) (t.reach.map Entry.id) := by
  have hroot : Notes (p.root t (p.slots t.children)) ((Node.reachAll t.children).map Entry.id) := by
    have hcontainer := notes_container (p := p) (notes_slots hp t.children) false t.aliased t.span
    rw [← List.flatMap_def, ← List.map_flatMap, ← Node.reachAll_eq_flatMap] at hcontainer
    exact hcontainer.map fun d => Doc.join [d, .hardline]
  unfold Printer.tree
  rw [hp]
  exact hroot.orKeep 0 _

end Printer

/-! ## Runs of the formatter -/

variable {σ : Type} {source out : Text} {settings : Settings}

/-- A run that succeeds has read the template and printed its tree. -/
theorem exists_run_tree {formatter : MarkupFormatter σ} {session session' : Session σ}
    (h : (formatWith formatter settings source).run.run session = (.ok out, session')) :
    ∃ tree doc, parse source = .ok tree ∧
      ((Printer.ofTree tree settings formatter).tree tree).run.run session =
        (.ok doc, session') := by
  unfold formatWith at h
  cases hp : parse source with
  | error e =>
    rw [hp] at h
    exact absurd (Prod.mk.inj h).1 (by simp)
  | ok tree =>
    rw [hp] at h
    obtain ⟨doc, middle, hrun, hrest⟩ := run_bind_eq_ok.mp h
    refine ⟨tree, doc, rfl, ?_⟩
    -- the last check of the output leaves the session alone
    dsimp only at hrest
    split at hrest
    · exact absurd (Prod.mk.inj hrest).1 (by simp)
    · rw [hrun, (Prod.mk.inj hrest).2]

/-- **No markup formatter can lose or double a node.** Where a template is formatted and failures
are not contained, every node that is reached from the root has been printed exactly once, and
nothing else has been printed, whatever documents the markup formatter returned. -/
theorem formatWith_prints_once (formatter : MarkupFormatter σ) {state : σ} {session : Session σ}
    (hstrict : settings.embedErrors = .strict)
    (h : (formatWith formatter settings source).run.run { markup := state } = (.ok out, session)) :
    ∃ tree, parse source = .ok tree ∧
      (∀ e, tree.Reached e → (session.visits.map Visit.id).count e.id = 1) ∧
      (∀ v ∈ session.visits, ∃ e, tree.Reached e ∧ e.id = v.id) ∧
      ∀ e e', tree.Reached e → tree.Reached e' → e.id = e'.id → e = e' := by
  obtain ⟨tree, doc, hparse, hrun⟩ := exists_run_tree h
  have hkeeps : (Printer.ofTree tree settings formatter).keeps = false := by
    show (settings.embedErrors == EmbedErrors.passthrough) = false
    rw [hstrict]
    rfl
  have hnodup := (parse_numbered hparse).nodup_reach
  obtain ⟨visits, hvisits, hperm⟩ := Printer.notes_tree hkeeps tree _ _ _ hrun
  rw [List.append_nil] at hvisits
  subst hvisits
  refine ⟨tree, hparse, fun e he => ?_, fun v hv => ?_, fun e e' he he' hid => ?_⟩
  · rw [hperm.count_eq]
    exact List.count_eq_one_of_mem hnodup (List.mem_map_of_mem (Tree.mem_reach.mpr he))
  · have hmem := hperm.mem_iff.mp (List.mem_map_of_mem (f := Visit.id) hv)
    obtain ⟨e, he, hid⟩ := List.mem_map.mp hmem
    exact ⟨e, Tree.mem_reach.mp he, hid⟩
  · exact List.inj_on_of_nodup_map hnodup (Tree.mem_reach.mpr he) (Tree.mem_reach.mpr he') hid

/-- A markup formatter that puts the chain of a template before the block above it. -/
def turnedAround : MarkupFormatter Unit := fun embedded markup =>
  pure (if embedded then .text markup
    else .concat [.text "_gt10_ <!-- prettier-ignore -->".toList, .hardline,
      .indent (.text "_gt0_".toList)])

/-- An ignored block, of which nothing else is printed, and a chain, which is printed before it. -/
theorem formatWith_prints_once_turned : ∃ out session tree,
    (formatWith turnedAround {} ("<!-- prettier-ignore -->\n{{with a}}{{x}}{{end}}\n" ++
        "{{if b}}{{c}}{{else}}y{{end}}").toList).run.run { markup := () } = (.ok out, session) ∧
      session.visits.map Visit.id = [0, 1, 11, 8, 10, 9, 5, 7, 6] ∧
      parse ("<!-- prettier-ignore -->\n{{with a}}{{x}}{{end}}\n" ++
        "{{if b}}{{c}}{{else}}y{{end}}").toList = .ok tree ∧
      (∀ e, tree.Reached e → (session.visits.map Visit.id).count e.id = 1) ∧
      ∀ v ∈ session.visits, ∃ e, tree.Reached e ∧ e.id = v.id := by
  rcases hrun : (formatWith turnedAround {} ("<!-- prettier-ignore -->\n{{with a}}{{x}}{{end}}\n" ++
    "{{if b}}{{c}}{{else}}y{{end}}").toList).run.run { markup := () } with ⟨result, session⟩
  have hok : (result.toOption.isSome, session.visits.map Visit.id) =
      (true, [0, 1, 11, 8, 10, 9, 5, 7, 6]) := by
    have : result = _ ∧ session = _ := ⟨congrArg Prod.fst hrun.symm, congrArg Prod.snd hrun.symm⟩
    rw [this.1, this.2]
    decide +kernel
  cases result with
  | error e => exact absurd (Prod.mk.inj hok).1 (by simp [Except.toOption])
  | ok out =>
    obtain ⟨tree, hparse, honce, honly, -⟩ := formatWith_prints_once turnedAround rfl hrun
    exact ⟨out, session, tree, rfl, (Prod.mk.inj hok).2, hparse, honce, honly⟩

end TemplateFormat
