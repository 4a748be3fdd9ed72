import TemplateFormat.Proofs.Format
import TemplateFormat.Proofs.Print.Outcome
import TemplateFormat.Proofs.Tree.Reach

/-!
# Failures are contained

A markup formatter may fail on any of its calls (`Markup.Faulty`). Where the settings say so, a
container whose markup is not formatted is kept as written, and what encloses it is printed with
that. So every node gives a document in every session, and the document shows the node: either as it
is printed from its parts, which show theirs, or as it stands in the source.

Results:
* `Printer.tries_container`, `Printer.tries_block`: what is printed where the markup is formatted.
* `Printer.gives_node`, `Printer.gives_tree`: every node and every template is printed, and shown.
* `Printer.run_entry_of_error`: what is printed where the markup is not formatted.
* `formatWith_contains`: no failure of the markup formatter escapes or loses a character.
-/

namespace TemplateFormat

open Placeholder PrintM

/-! ## Containers -/

/-- On every call the formatter answers as the one for HTML does, or it fails. -/
def Markup.Faulty {σ : Type} (formatter : MarkupFormatter σ) : Prop :=
  ∀ embedded markup state,
    ((formatter embedded markup).run.run state).1 = .ok (Markup.Html.format embedded markup) ∨
      ∃ e, ((formatter embedded markup).run.run state).1 = .error e

namespace Printer

variable {σ : Type} {source : Text} {p : Printer σ} {V : Visit → Prop}

/-- Markup that is formatted is formatted as HTML. -/
theorem tries_formatMarkup {formatter : MarkupFormatter σ} (h : Markup.Faulty formatter)
    (embedded : Bool) (markup : Text) :
    Tries V (formatMarkup formatter embedded markup) (· = Markup.Html.format embedded markup) := by
  intro session
  refine ⟨fun d hd => ?_, [], rfl, by simp⟩
  rcases h embedded markup session.markup with hok | ⟨e, he⟩
  · exact Except.ok.inj (hd.symm.trans hok)
  · exact absurd (hd.symm.trans he) (by simp)

/-- What the slot of a child gives shows the child; there are no other slots. -/
theorem gives_slot {ns : List Node}
    (h : ∀ n ∈ ns, Gives V (p.node n) fun d => Shows source d n.text) (i : Nat) :
    Gives V (Splice.printPiece (p.slots ns) (.slot i)) fun d =>
      ∀ n, ns[i]? = some n → Shows source d n.text := by
  rw [slots_eq, slotsOf]
  simp only [Splice.printPiece, List.getElem?_map]
  cases hn : ns[i]? with
  | none => exact gives_pure (by simp)
  | some n =>
    intro session
    obtain ⟨⟨d, hd, hshows⟩, hvisits⟩ := h n (List.mem_of_getElem? hn) session
    refine ⟨⟨d, hd, fun m hm => ?_⟩, hvisits⟩
    obtain rfl := Option.some.inj hm
    exact hshows

/-- **The content of a container is printed, or its markup is not formatted.** -/
theorem tries_container {c : Container} (hformatter : Markup.Faulty p.formatter)
    (hstem : p.stem = Placeholder.stem source) (hc : c.Stands source)
    (h : ∀ n ∈ c.children, Gives V (p.node n) fun d => Shows source d n.text) (embedded : Bool)
    (span : Span) :
    Tries V (p.container embedded (c.aliased p.stem) (p.slots c.children) span) fun d =>
      ∃ docs, ShowsAll source c.children docs ∧ d = containerDoc p.stem embedded c docs := by
  rw [hstem]
  refine (tries_formatMarkup hformatter embedded _).bind ?_
  rintro _ rfl
  have hkeys : (p.slots c.children).map Slot.key = c.keys (Placeholder.stem source) := by
    rw [slots_eq, hstem, keys_slotsOf]
  have hsplice := gives_splice span (gives_slot h) hkeys (List.length_map _)
    (found_container hc embedded)
  refine Gives.tries ?_
  intro session
  obtain ⟨⟨d, hd, docs, hlength, hshows, hdoc⟩, hvisits⟩ := hsplice session
  refine ⟨⟨d, hd, docs, ?_, hdoc⟩, hvisits⟩
  refine List.forall₂_iff_get.mpr ⟨hlength.symm, fun i hi hi' => ?_⟩
  have hget := hshows i hi _ (List.getElem?_eq_getElem hi)
  rwa [List.getD_eq_getElem _ _ hi'] at hget

/-- The body of a block is printed, or its markup is not formatted. -/
theorem tries_bodyEdges {c : Container} (hformatter : Markup.Faulty p.formatter)
    (hstem : p.stem = Placeholder.stem source) (hc : c.Stands source)
    (h : ∀ n ∈ c.children, Gives V (p.node n) fun d => Shows source d n.text) (span : Span) :
    Tries V (p.bodyEdges (c.aliased p.stem) (p.slots c.children) span) fun edges =>
      ∃ docs, ShowsAll source c.children docs ∧ edges = bodyParts p.stem c docs := by
  unfold bodyEdges bodyParts
  split
  · rename_i hblank
    refine (gives_pure ⟨[], ?_, rfl⟩).tries
    rw [Container.children_eq_nil hblank]
    exact .nil
  · refine (tries_container hformatter hstem hc h true span).map splitEdges ?_
    rintro d ⟨docs, hdocs, rfl⟩
    exact ⟨docs, hdocs, rfl⟩

/-! ## Nodes -/

/-- The document for an entry whose markup is not formatted: its source text, and a line break after
that of the root. -/
def fallback (p : Printer σ) : Entry → Doc
  | .root t => .join [p.verbatimAt t.span t.source, .hardline]
  | e => p.verbatimAt e.span e.text

/-- The nodes that are noted with a failure are entries that are reached, kept as written. -/
def Noted (p : Printer σ) (tree : Tree) (v : Visit) : Prop :=
  ∀ err, v.failure = some err → ∃ e, tree.Reached e ∧ e.id = v.id ∧ v.doc = p.fallback e

theorem noted_none (p : Printer σ) (tree : Tree) (id : Nat) (d : Doc) :
    p.Noted tree ⟨id, d, none⟩ := by
  intro err h
  exact absurd h (by simp)

/-- The printer is that of a template, and contains the failures of its formatter. -/
structure Contains (p : Printer σ) (source : Text) : Prop where
  stem_eq : p.stem = Placeholder.stem source
  formatter : Markup.Faulty p.formatter
  keeps : p.keeps = true

variable {tree : Tree}

theorem gives_leaf (p : Printer σ) (tree : Tree) (l : Leaf) :
    Gives (p.Noted tree) (p.leaf l) (· = p.edge l) :=
  gives_record (p.noted_none tree _ _) rfl

theorem gives_stop (p : Printer σ) (tree : Tree) (stop : Option Leaf) :
    Gives (p.Noted tree) (optional (stop.map p.leaf)) (· = p.stopDoc stop) := by
  cases stop with
  | none => exact gives_pure rfl
  | some l => exact gives_leaf p tree l

/-- **A block is printed from its parts, or its markup is not formatted.** -/
theorem tries_block (hp : p.Contains source) {info : Info} {frame : Frame} {children : List Node}
    (hs : (Node.block info frame children).Stands source)
    (h : info.ignored = false → frame.keyword ≠ .ignoreStartKw → ∀ n ∈ children,
      Gives (p.Noted tree) (p.node n) fun d => Shows source d n.text) :
    Tries (p.Noted tree) (p.block info frame children (p.leaf frame.start)
      (frame.stop.map p.leaf) (p.slots children)) fun d =>
        Shows source d (Node.block info frame children).text := by
  have hc := Container.stands_ofBlock hs
  obtain ⟨any, hany⟩ := exists_showsAll hc
  have hshows : ∀ docs, ShowsAll source children docs →
      Shows source (p.blockDoc info frame children docs) (Node.block info frame children).text :=
    fun docs => shows_blockDoc hp.stem_eq hs
  unfold block
  unfold blockDoc at hshows
  by_cases hignored : info.ignored = true
  · simp only [if_pos hignored] at hshows ⊢
    refine Gives.tries (gives_pure ?_)
    exact hshows any hany
  · simp only [if_neg hignored] at hshows ⊢
    refine (gives_leaf p tree frame.start).tries.bind ?_
    rintro _ rfl
    refine (gives_stop p tree frame.stop).tries.bind ?_
    rintro _ rfl
    by_cases hkeyword : frame.keyword = .ignoreStartKw
    · simp only [if_pos hkeyword] at hshows ⊢
      refine Gives.tries (gives_pure ?_)
      exact hshows any hany
    · simp only [if_neg hkeyword] at hshows ⊢
      have hedges := tries_bodyEdges hp.formatter hp.stem_eq hc
        (h (by simpa using hignored) hkeyword) info.span
      rw [Container.aliased_ofBlock] at hedges
      refine hedges.map _ ?_
      rintro _ ⟨docs, hdocs, rfl⟩
      exact hshows docs hdocs

theorem gives_all {ns : List Node}
    (h : ∀ n ∈ ns, Gives V (p.node n) fun d => Shows source d n.text) :
    Gives V (p.nodes ns) (ShowsAll source ns) := by
  induction ns with
  | nil =>
    rw [nodes]
    exact gives_pure .nil
  | cons n ns ih =>
    rw [nodes]
    refine (h n List.mem_cons_self).bind fun d hd => ?_
    exact (ih fun m hm => h m (List.mem_cons_of_mem n hm)).map _ fun ds hds => .cons hd hds

/-- A node that is reached and kept because of a failure may be noted. -/
theorem noted_fallback {n : Node} (h : tree.Reached (.node n)) (err : FormatError) :
    p.Noted tree ⟨n.info.id, p.verbatimAt n.info.span n.text, some err⟩ :=
  fun _ _ => ⟨.node n, h, rfl, rfl⟩

mutual

/-- **Every node is printed, and shown**, by induction on the tree: from its parts, or as it stands.
-/
theorem gives_node (hp : p.Contains source) : ∀ {n : Node}, n.Stands source →
    tree.Reached (.node n) → Gives (p.Noted tree) (p.node n) fun d => Shows source d n.text
  | .action info text act, hs, _ => by
    have hfree := (free_source source).of_isInfix hs.isInfix
    obtain ⟨pre, post, -, -, hact⟩ := hs
    rw [Node.text] at hfree
    rw [node, Node.text]
    refine gives_record (noted_none _ _ _ _) ?_
    split
    · exact shows_keptText _ _ hfree
    · exact ((shows_action hact hfree _).join_keptBlankLine _).group _
  | .raw info text, hs, _ => by
    have hfree := (free_source source).of_isInfix hs.isInfix
    rw [Node.text] at hfree
    rw [node, Node.text]
    exact gives_record (noted_none _ _ _ _) (shows_keptText _ _ hfree)
  | .block info frame children, hs, hreached => by
    have hfree := (free_source source).of_isInfix hs.isInfix
    -- the children are reached, and printed, only where the block is not kept as written
    have hblock := tries_block hp hs fun hignored hkeyword n hn =>
      gives_nodes hp (fun m hm => ⟨((Container.stands_ofBlock hs).children m hm).1,
        hreached.tail (by
          have hm : m ∈ children := hm
          simp [Entry.next, hignored, hkeyword, hm])⟩) n hn
    rw [node, hp.keeps]
    exact hblock.orKeep (noted_none _ _ _) (noted_fallback hreached) (shows_verbatim _ hfree)
  | .chain info branches, hs, hreached => by
    have hfree := (free_source source).of_isInfix hs.isInfix
    rw [node]
    split
    · exact gives_record (noted_none _ _ _ _) (shows_keptText _ _ hfree)
    · rename_i hignored
      have hbranches := gives_all (gives_nodes hp fun n hn =>
        ⟨hs.branches n hn, hreached.tail (by simp [Entry.next, hignored, hn])⟩)
      refine hbranches.bind fun docs hdocs => gives_record (noted_none _ _ _ _) ?_
      have hshows := shows_chainDoc (p := p) hs hdocs
      rwa [chainDoc, if_neg hignored] at hshows

/-- Siblings that stand in the source and are reached are printed, and shown. -/
theorem gives_nodes (hp : p.Contains source) : ∀ {ns : List Node},
    (∀ n ∈ ns, n.Stands source ∧ tree.Reached (.node n)) → ∀ n ∈ ns,
      Gives (p.Noted tree) (p.node n) fun d => Shows source d n.text
  | [], _, n, hn => absurd hn List.not_mem_nil
  | m :: ns, h, n, hn => by
    by_cases he : n = m
    · rw [he]
      exact gives_node hp (h m List.mem_cons_self).1 (h m List.mem_cons_self).2
    · exact gives_nodes hp (fun k hk => h k (List.mem_cons_of_mem m hk)) n
        ((List.mem_cons.mp hn).resolve_left he)

end

/-- **Every template is printed, and shown.** -/
theorem gives_tree (hp : p.Contains source) (h : tree.Placed source) :
    Gives (p.Noted tree) (p.tree tree) fun d => Shows source d source := by
  have hc := Container.stands_ofTree h
  have hchildren := gives_nodes hp fun n hn => ⟨(hc.children n hn).1,
    Relation.ReflTransGen.single (List.mem_map_of_mem hn)⟩
  have hroot : Tries (p.Noted tree) (p.root tree (p.slots tree.children)) fun d =>
      Shows source d source := by
    have hcontainer := tries_container hp.formatter hp.stem_eq hc hchildren false tree.span
    have haliased : (Container.ofTree tree).aliased p.stem = tree.aliased := by
      rw [hp.stem_eq, ← h.stem_eq, Container.aliased_ofTree]
    rw [haliased] at hcontainer
    refine hcontainer.map (fun d => Doc.join [d, .hardline]) ?_
    rintro _ ⟨docs, hdocs, rfl⟩
    exact shows_root hp.stem_eq h hdocs
  have hkept : Shows source (.join [p.verbatimAt tree.span tree.source, .hardline]) source := by
    rw [h.source_eq]
    exact (shows_verbatim _ (free_source source)).join_hardline
  unfold Printer.tree
  rw [hp.keeps]
  exact hroot.orKeep (noted_none _ _ _) (fun err _ _ => ⟨.root tree, .refl, rfl, rfl⟩) hkept

end Printer

/-! ## The node whose markup is not formatted -/

/-- The markup of a root or a block that is formatted when it is printed, and whether it is the body
of a block. -/
def Entry.markup? (stem : Text) : Entry → Option (Bool × Text)
  | root t => some (false, t.aliased)
  | node (.block info frame children) =>
    if info.ignored || frame.keyword = .ignoreStartKw ||
        Text.isBlank (frame.aliased stem children) then none
    else some (true, frame.aliased stem children)
  | _ => none

namespace Printer

variable {σ : Type} {p : Printer σ} {state : σ} {err : FormatError}

/-- Prints an entry. -/
def entry (p : Printer σ) : Entry → PrintM σ Doc
  | .root t => p.tree t
  | .node n => p.node n
  | .edge _ l => p.leaf l

theorem fails_container {embedded : Bool} {markup : Text}
    (h : ((p.formatter embedded markup).run.run state).1 = .error err)
    (slots : List (Slot (PrintM σ))) (span : Span) :
    Fails state err (p.container embedded markup slots span) := by
  have hmarkup : Fails state err (formatMarkup p.formatter embedded markup) :=
    fun visits => ⟨_, Prod.ext h rfl⟩
  exact hmarkup.bind _

/-- **An entry whose markup is not formatted is kept as written**, and noted with the error. -/
theorem run_entry_of_error (hp : p.keeps = true) {e : Entry} {embedded : Bool} {markup : Text}
    (hmarkup : e.markup? p.stem = some (embedded, markup))
    (h : ((p.formatter embedded markup).run.run state).1 = .error err) (visits : List Visit) :
    ∃ session, (p.entry e).run.run ⟨state, visits⟩ = (.ok (p.fallback e), session) ∧
      session.visits.head? = some ⟨e.id, p.fallback e, some err⟩ := by
  match e, hmarkup with
  | .root t, hmarkup =>
    obtain ⟨rfl, rfl⟩ := Prod.mk.inj (Option.some.inj hmarkup)
    rw [entry, Printer.tree, hp]
    exact ((fails_container h _ _).bind _).orKeep 0 _ visits
  | .node (.block info frame children), hmarkup =>
    rw [Entry.markup?] at hmarkup
    split at hmarkup
    · exact absurd hmarkup (by simp)
    · rename_i hcond
      obtain ⟨rfl, rfl⟩ := Prod.mk.inj (Option.some.inj hmarkup)
      simp only [Bool.or_eq_true, not_or, decide_eq_true_eq] at hcond
      obtain ⟨⟨hignored, hkeyword⟩, hblank⟩ := hcond
      rw [entry, node, hp]
      refine Fails.orKeep ?_ info.id _ visits
      unfold block
      rw [if_neg hignored]
      refine (prints_leaf p frame.start).bind_fails ((prints_stop p frame.stop).bind_fails ?_)
      simp only [if_neg hkeyword]
      unfold bodyEdges
      rw [if_neg hblank]
      exact ((fails_container h _ _).bind _).bind _

end Printer

/-! ## Runs of the formatter -/

variable {σ : Type} {formatter : MarkupFormatter σ} {settings : Settings} {source : Text}
  {tree : Tree}

/-- What is printed for a template is laid out, and no placeholder is left. -/
theorem gives_formatWith {V : Visit → Prop} (hparse : parse source = .ok tree)
    (h : Gives V ((Printer.ofTree tree settings formatter).tree tree) fun d =>
      Shows source d source) :
    Gives V (formatWith formatter settings source) fun out =>
      Text.solid out = Text.solid source := by
  unfold formatWith
  rw [hparse]
  refine h.bind fun doc hdoc => ?_
  have hfree : Free source (doc.render settings.toPage) := Doc.free_render _ hdoc.free
  have hcheck : ¬ Text.contains tree.stem (doc.render settings.toPage) = true := by
    rw [(parse_placed hparse).stem_eq]
    exact fun hc => hfree (Text.isInfix_of_contains hc)
  simp only [hcheck]
  refine gives_pure ?_
  rw [Doc.solid_render, hdoc.solid]

/-- **Failures of the markup formatter are contained.** Where the settings say so, a template that
can be read is formatted even if any calls of the markup formatter fail: the output has the
characters of the template up to white space, and every node that is noted with a failure is printed
as it stands in the source. So is every root or block whose own markup is not formatted, in whatever
session it is printed. -/
theorem formatWith_contains (hformatter : Markup.Faulty formatter)
    (hkeep : settings.embedErrors = .passthrough) (hparse : parse source = .ok tree) :
    (∀ state, ∃ out session,
      (formatWith formatter settings source).run.run { markup := state } = (.ok out, session) ∧
        Text.solid out = Text.solid source ∧
        ∀ v ∈ session.visits, ∀ err, v.failure = some err → ∃ e, tree.Reached e ∧ e.id = v.id ∧
          v.doc = (Printer.ofTree tree settings formatter).fallback e) ∧
      ∀ e, tree.Reached e → ∀ embedded markup, e.markup? tree.stem = some (embedded, markup) →
        ∀ session err, ((formatter embedded markup).run.run session.markup).1 = .error err →
          ∃ session', ((Printer.ofTree tree settings formatter).entry e).run.run session =
              (.ok ((Printer.ofTree tree settings formatter).fallback e), session') ∧
            session'.visits.head? =
              some ⟨e.id, (Printer.ofTree tree settings formatter).fallback e, some err⟩ := by
  have hplaced := parse_placed hparse
  have hkeeps : (Printer.ofTree tree settings formatter).keeps = true := by
    show (settings.embedErrors == .passthrough) = true
    rw [hkeep]
    rfl
  refine ⟨fun state => ?_, fun e _ embedded markup hmarkup session err herr =>
    Printer.run_entry_of_error hkeeps hmarkup herr session.visits⟩
  have hgives := gives_formatWith hparse (Printer.gives_tree
    (p := Printer.ofTree tree settings formatter) ⟨hplaced.stem_eq, hformatter, hkeeps⟩ hplaced)
  obtain ⟨⟨out, hout, hsolid⟩, visits, hvisits, hnoted⟩ := hgives { markup := state }
  refine ⟨out, _, Prod.ext hout rfl, hsolid, ?_⟩
  rw [hvisits, List.append_nil]
  exact hnoted

/-- Fails on every second call, and counts the calls. -/
def Markup.flaky : MarkupFormatter Nat := fun embedded markup =>
  ExceptT.mk fun n =>
    (if n % 2 = 0 then .error (.io "no answer") else .ok (Markup.Html.format embedded markup),
      n + 1)

theorem Markup.faulty_flaky : Markup.Faulty Markup.flaky := by
  intro embedded markup n
  by_cases h : n % 2 = 0
  · exact .inr ⟨.io "no answer", if_pos h⟩
  · exact .inl (if_neg h)

/-- The first branch of a chain and a block in its second branch are kept as they stand, the rest of
the chain is printed. -/
theorem formatWith_contains_flaky : ∃ out session tree,
    parse "<p>{{if a}}\n {{b}}\n{{else}}{{with c}}x{{end}}\n{{end}}</p>".toList = .ok tree ∧
      (formatWith Markup.flaky { embedErrors := .passthrough }
          "<p>{{if a}}\n {{b}}\n{{else}}{{with c}}x{{end}}\n{{end}}</p>".toList).run.run
        { markup := 1 } = (.ok out, session) ∧
      out = "<p>{{if a}}\n {{b}}\n{{ else }}\n  {{with c}}x{{end}}\n{{ end }}</p>\n".toList ∧
      (session.visits.filter fun v => v.failure.isSome).map Visit.id = [6, 1] ∧
      ∀ v ∈ session.visits, ∀ err, v.failure = some err → ∃ e, tree.Reached e ∧ e.id = v.id ∧
        v.doc = (Printer.ofTree tree { embedErrors := .passthrough } Markup.flaky).fallback e := by
  cases hparse : parse "<p>{{if a}}\n {{b}}\n{{else}}{{with c}}x{{end}}\n{{end}}</p>".toList with
  | error e =>
    have hok : (parse
        "<p>{{if a}}\n {{b}}\n{{else}}{{with c}}x{{end}}\n{{end}}</p>".toList).toOption.isSome =
          true := by decide +kernel
    rw [hparse] at hok
    exact absurd hok (by simp [Except.toOption])
  | ok tree =>
    have hkeep : ({ embedErrors := .passthrough } : Settings).embedErrors = .passthrough := rfl
    obtain ⟨out, session, hrun, -, hkept⟩ :=
      (formatWith_contains Markup.faulty_flaky hkeep hparse).1 1
    have hvalue : ((formatWith Markup.flaky { embedErrors := .passthrough }
          "<p>{{if a}}\n {{b}}\n{{else}}{{with c}}x{{end}}\n{{end}}</p>".toList).run.run
        { markup := 1 }).1.toOption =
          some "<p>{{if a}}\n {{b}}\n{{ else }}\n  {{with c}}x{{end}}\n{{ end }}</p>\n".toList ∧
        ((((formatWith Markup.flaky { embedErrors := .passthrough }
          "<p>{{if a}}\n {{b}}\n{{else}}{{with c}}x{{end}}\n{{end}}</p>".toList).run.run
        { markup := 1 }).2.visits.filter fun v => v.failure.isSome).map Visit.id) = [6, 1] := by
      decide +kernel
    rw [hrun] at hvalue
    exact ⟨out, session, tree, rfl, hrun, Option.some.inj hvalue.1, hvalue.2, hkept⟩

end TemplateFormat
