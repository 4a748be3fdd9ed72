import TemplateFormat.Proofs.Format
import TemplateFormat.Proofs.Token.Respelled
import TemplateFormat.Proofs.Tree.Bare
import TemplateFormat.Proofs.Tree.Glyphs
import TemplateFormat.Proofs.Tree.Reach

/-!
# The output does not depend on the spelling

Two templates whose tokens are the same actions with the same literals between them are read alike
(`parse_bare`), so every node of one has a counterpart in the other. The two stand at places that
look alike (`Alike`): what comes before and after them is respelled. So the layout treats them
alike, and by induction on the tree they are printed as the same document. Nothing in it is kept as
written, as raw regions and ignored nodes would be.

Results:
* `respelled_text`: the texts of a node and its counterpart.
* `Printer.nodeDoc_eq`, `Printer.treeDoc_eq`: both are printed as the same document.
* `format_respelled`: both templates are formatted to the same output, or fail with the same error.
-/

namespace TemplateFormat

/-- Nothing in the node itself is kept as written. -/
def Node.Plain : Node → Prop
  | .action info _ _ => info.ignored = false
  | .raw _ _ => False
  | .block info frame _ => info.ignored = false ∧ frame.keyword ≠ .ignoreStartKw
  | .chain info _ => info.ignored = false

/-- No node of the tree is kept as written. -/
def Tree.Plain (tree : Tree) : Prop := ∀ n, tree.Reached (.node n) → n.Plain

namespace Tree.Plain

variable {tree : Tree} {info : Info}

theorem children (h : tree.Plain) {frame : Frame} {children : List Node}
    (hn : tree.Reached (.node (.block info frame children))) :
    ∀ n ∈ children, tree.Reached (.node n) := by
  obtain ⟨hignored, hkeyword⟩ := h _ hn
  exact fun n hmem => hn.tail (by simp [Entry.next, hignored, hkeyword, hmem])

theorem branches (h : tree.Plain) {branches : List Node}
    (hn : tree.Reached (.node (.chain info branches))) :
    ∀ n ∈ branches, tree.Reached (.node n) := by
  have hignored : info.ignored = false := h _ hn
  exact fun n hmem => hn.tail (by simp [Entry.next, hignored, hmem])

end Tree.Plain

/-! ## Texts -/

section Texts

variable {tree : Tree}

/-- The literals of actions of a block that are bare alike. -/
theorem respelled_stop {stop stop' : Option Leaf} (h : stop.map Leaf.bare = stop'.map Leaf.bare)
    (hs : ∀ l ∈ stop, ∃ o, l.Placed o) (hs' : ∀ l ∈ stop', ∃ o, l.Placed o) :
    Respelled ((stop.map Leaf.text).getD []) ((stop'.map Leaf.text).getD []) := by
  cases stop with
  | none =>
    cases stop' with
    | none => exact .nil
    | some l' => exact absurd h (by simp)
  | some l =>
    cases stop' with
    | none => exact absurd h (by simp)
    | some l' =>
      have haction : l.action = l'.action := Leaf.action_eq_of_bare (Option.some.inj h)
      obtain ⟨o, hl⟩ := hs l rfl
      obtain ⟨o', hl'⟩ := hs' l' rfl
      exact .of_isAction hl.2 (haction ▸ hl'.2)

namespace Node

mutual

/-- **The text of a node is that of its counterpart, respelled.** -/
theorem respelled_text (ht : tree.Plain) : ∀ {n n' : Node} {o o' : Nat}, tree.Reached (.node n) →
    n.bare = n'.bare → n.Placed o → n'.Placed o' → Respelled n.text n'.text
  | .action info t act, n', o, o', _, hbare, hp, hp' => by
    obtain ⟨info', t', rfl, -⟩ := eq_action_of_bare hbare
    rw [text, text]
    exact .of_isAction hp.2 hp'.2
  | .raw info t, n', o, o', hn, _, _, _ => (ht _ hn).elim
  | .block info frame children, n', o, o', hn, hbare, hp, hp' => by
    obtain ⟨info', frame', children', rfl, -, hframe, hchildren⟩ := eq_block_of_bare hbare
    obtain ⟨-, hstart, hplaced, -, hstop⟩ := hp
    obtain ⟨-, hstart', hplaced', -, hstop'⟩ := hp'
    rw [text, text, hframe.tail]
    refine Respelled.append (.append (.append ?_ ?_) (.refl _)) ?_
    · exact .of_isAction hstart.2 (hframe.start ▸ hstart'.2)
    · exact respelled_spellAll ht (ht.children hn) hchildren hplaced hplaced'
    · exact respelled_stop hframe.stop (fun l hl => ⟨_, hstop l hl⟩)
        (fun l hl => ⟨_, hstop' l hl⟩)
  | .chain info branches, n', o, o', hn, hbare, hp, hp' => by
    obtain ⟨info', branches', rfl, -, hbranches⟩ := eq_chain_of_bare hbare
    rw [text, text]
    exact respelled_spellAll ht (ht.branches hn) hbranches hp.2.1 hp'.2.1

/-- The text of siblings is that of their counterparts, respelled. -/
theorem respelled_spellAll (ht : tree.Plain) : ∀ {ns ns' : List Node} {o o' : Nat},
    (∀ n ∈ ns, tree.Reached (.node n)) → bareAll ns = bareAll ns' → PlacedAll o ns →
      PlacedAll o' ns' → Respelled (spellAll ns) (spellAll ns')
  | [], ns', o, o', _, hbare, _, _ => by
    rw [eq_nil_of_bareAll hbare]
    exact .refl _
  | n :: ns, ms, o, o', hns, hbare, hp, hp' => by
    obtain ⟨m, ms, rfl, hn, hns'⟩ := eq_cons_of_bareAll hbare
    rw [spellAll, spellAll, (info_eq_of_bare hn).2]
    refine Respelled.append (.append (.refl _) ?_) ?_
    · exact respelled_text ht (hns n List.mem_cons_self) hn hp.1 hp'.1
    · exact respelled_spellAll ht (fun k hk => hns k (List.mem_cons_of_mem n hk)) hns' hp.2 hp'.2

end

end Node

/-! ## Places -/

/-- A node and its counterpart stand at places that look alike. -/
def Alike (source source' : Text) (n n' : Node) : Prop :=
  ∃ pre post pre' post', source = pre ++ (n.text ++ post) ∧ source' = pre' ++ (n'.text ++ post') ∧
    n.Placed (Text.bytes pre) ∧ n'.Placed (Text.bytes pre') ∧ Respelled pre pre' ∧
      Respelled post post'

namespace Alike

variable {source source' : Text} {n n' : Node}

theorem before (h : Alike source source' n n') :
    Respelled (n.info.span.before source) (n'.info.span.before source') := by
  obtain ⟨pre, post, pre', post', rfl, rfl, hp, hp', hpre, -⟩ := h
  rw [hp.span_eq, hp'.span_eq, Span.before, Span.before, Text.takeBytes_append,
    Text.takeBytes_append]
  exact hpre

theorem after (h : Alike source source' n n') :
    Respelled (n.info.span.after source) (n'.info.span.after source') := by
  obtain ⟨pre, post, pre', post', rfl, rfl, hp, hp', -, hpost⟩ := h
  rw [hp.span_eq, hp'.span_eq, Span.after, Span.after, Span.stop, Span.stop, ← Text.bytes_append,
    ← Text.bytes_append, ← List.append_assoc, ← List.append_assoc, Text.dropBytes_append,
    Text.dropBytes_append]
  exact hpost

/-- Siblings and their counterparts stand at places that look alike, one after the other. -/
theorem of_placedAll (ht : tree.Plain) : ∀ {ns ns' : List Node} (pre post pre' post' : Text),
    (∀ n ∈ ns, tree.Reached (.node n)) → Node.bareAll ns = Node.bareAll ns' →
      source = pre ++ (Node.spellAll ns ++ post) → source' = pre' ++ (Node.spellAll ns' ++ post') →
      Node.PlacedAll (Text.bytes pre) ns → Node.PlacedAll (Text.bytes pre') ns' →
      Respelled pre pre' → Respelled post post' → List.Forall₂ (Alike source source') ns ns'
  | [], ns', pre, post, pre', post', _, hbare, _, _, _, _, _, _ => by
    rw [Node.eq_nil_of_bareAll hbare]
    exact .nil
  | n :: ns, ms, pre, post, pre', post', hns, hbare, he, he', hp, hp', hpre, hpost => by
    obtain ⟨m, ms, rfl, hn, hms⟩ := Node.eq_cons_of_bareAll hbare
    have hns' : ∀ k ∈ ns, tree.Reached (.node k) := fun k hk => hns k (List.mem_cons_of_mem n hk)
    have hlead : Respelled (pre ++ n.info.lead) (pre' ++ m.info.lead) := by
      rw [(Node.info_eq_of_bare hn).2]
      exact hpre.append (.refl _)
    have htext := Node.respelled_text ht (hns n List.mem_cons_self) hn hp.1 hp'.1
    have hrest := Node.respelled_spellAll ht hns' hms hp.2 hp'.2
    rw [Node.spellAll] at he he'
    refine .cons ⟨pre ++ n.info.lead, Node.spellAll ns ++ post, pre' ++ m.info.lead,
      Node.spellAll ms ++ post', ?_, ?_, ?_, ?_, hlead, hrest.append hpost⟩ ?_
    · rw [he]
      simp only [List.append_assoc]
    · rw [he']
      simp only [List.append_assoc]
    · rw [Text.bytes_append]
      exact hp.1
    · rw [Text.bytes_append]
      exact hp'.1
    · refine of_placedAll ht (pre ++ n.info.lead ++ n.text) post (pre' ++ m.info.lead ++ m.text)
        post' hns' hms ?_ ?_ ?_ ?_ (hlead.append htext) hpost
      · rw [he]
        simp only [List.append_assoc]
      · rw [he']
        simp only [List.append_assoc]
      · rw [Text.bytes_append, Text.bytes_append]
        exact hp.2
      · rw [Text.bytes_append, Text.bytes_append]
        exact hp'.2

/-- The children of a block and of its counterpart. -/
theorem children (ht : tree.Plain) {info info' : Info} {frame frame' : Frame}
    {children children' : List Node} (hn : tree.Reached (.node (.block info frame children)))
    (hframe : frame.Same frame') (hbare : Node.bareAll children = Node.bareAll children')
    (h : Alike source source' (.block info frame children) (.block info' frame' children')) :
    List.Forall₂ (Alike source source') children children' ∧
      Respelled (frame.content children) (frame'.content children') := by
  obtain ⟨pre, post, pre', post', he, he', ⟨-, hstart, hp, -, hstop⟩, ⟨-, hstart', hp', -, hstop'⟩,
    hpre, hpost⟩ := h
  have hopen : Respelled (pre ++ frame.start.text) (pre' ++ frame'.start.text) :=
    hpre.append (.of_isAction hstart.2 (hframe.start ▸ hstart'.2))
  have hclose : Respelled ((frame.stop.map Leaf.text).getD [])
      ((frame'.stop.map Leaf.text).getD []) :=
    respelled_stop hframe.stop (fun l hl => ⟨_, hstop l hl⟩) (fun l hl => ⟨_, hstop' l hl⟩)
  have htail : Respelled frame.tail frame'.tail := by
    rw [hframe.tail]
    exact .refl _
  rw [Node.text] at he he'
  refine ⟨?_, (Node.respelled_spellAll ht (ht.children hn) hbare hp hp').append htail⟩
  refine of_placedAll ht (pre ++ frame.start.text)
    (frame.tail ++ ((frame.stop.map Leaf.text).getD [] ++ post)) (pre' ++ frame'.start.text)
    (frame'.tail ++ ((frame'.stop.map Leaf.text).getD [] ++ post')) (ht.children hn) hbare
    ?_ ?_ ?_ ?_ hopen (htail.append (hclose.append hpost))
  · rw [he]
    simp only [List.append_assoc]
  · rw [he']
    simp only [List.append_assoc]
  · rw [Text.bytes_append]
    exact hp
  · rw [Text.bytes_append]
    exact hp'

/-- The branches of a chain and of its counterpart. -/
theorem branches (ht : tree.Plain) {info info' : Info} {branches branches' : List Node}
    (hn : tree.Reached (.node (.chain info branches)))
    (hbare : Node.bareAll branches = Node.bareAll branches')
    (h : Alike source source' (.chain info branches) (.chain info' branches')) :
    List.Forall₂ (Alike source source') branches branches' := by
  obtain ⟨pre, post, pre', post', he, he', ⟨-, hp, -⟩, ⟨-, hp', -⟩, hpre, hpost⟩ := h
  rw [Node.text] at he he'
  exact of_placedAll ht pre post pre' post' (ht.branches hn) hbare he he' hp hp' hpre hpost

end Alike

end Texts

/-! ## Documents -/

namespace Printer

variable {σ : Type} {p p' : Printer σ} {tree : Tree}

/-- The printers differ in their sources only. -/
structure Like (p p' : Printer σ) : Prop where
  stem_eq : p.stem = p'.stem
  settings_eq : p.settings = p'.settings

theorem blankLineAt_eq {n n' : Node} (h : Alike p.source p'.source n n') :
    p.blankLineAt n.info.span = p'.blankLineAt n'.info.span := by
  rw [blankLineAt, blankLineAt, keptBlankLine, keptBlankLine, h.after.blankLineFollows_eq]

theorem lone_eq (hp : p.Like p') {n n' : Node} (h : Alike p.source p'.source n n') (act : Action) :
    p.lone n.info.span act = p'.lone n'.info.span act := by
  rw [lone, lone, blankLineAt_eq h, h.before.aloneOnLine_eq h.after, hp.settings_eq]

theorem edge_eq (hp : p.Like p') {l l' : Leaf} (h : l.action = l'.action) :
    p.edge l = p'.edge l' := by
  rw [edge, edge, h, hp.settings_eq]

theorem stopDoc_eq (hp : p.Like p') {stop stop' : Option Leaf}
    (h : stop.map Leaf.bare = stop'.map Leaf.bare) : p.stopDoc stop = p'.stopDoc stop' := by
  cases stop with
  | none =>
    cases stop' with
    | none => rfl
    | some l' => exact absurd h (by simp)
  | some l =>
    cases stop' with
    | none => exact absurd h (by simp)
    | some l' => exact edge_eq hp (Leaf.action_eq_of_bare (Option.some.inj h))

/-- The placeholders of siblings are those of their counterparts, and so is what they stand in. -/
theorem aliasAll_eq (stem : Text) : ∀ {ns ns' : List Node}, Node.bareAll ns = Node.bareAll ns' →
    Node.aliasAll stem ns = Node.aliasAll stem ns' ∧
      ns.map (Node.placeholder stem) = ns'.map (Node.placeholder stem)
  | [], ns', h => by
    rw [Node.eq_nil_of_bareAll h]
    exact ⟨rfl, rfl⟩
  | n :: ns, ms, h => by
    obtain ⟨m, ms, rfl, hn, hms⟩ := Node.eq_cons_of_bareAll h
    obtain ⟨hid, hlead⟩ := Node.info_eq_of_bare hn
    obtain ⟨halias, hkeys⟩ := aliasAll_eq stem hms
    rw [Node.aliasAll, Node.aliasAll, List.map_cons, List.map_cons, halias, hkeys, hlead,
      Node.placeholder, Node.placeholder, hid]
    exact ⟨rfl, rfl⟩

theorem containerDoc_eq (stem : Text) (embedded : Bool) (c c' : Container)
    (hchildren : Node.bareAll c.children = Node.bareAll c'.children) (htail : c.tail = c'.tail)
    (docs : List Doc) : containerDoc stem embedded c docs = containerDoc stem embedded c' docs := by
  obtain ⟨halias, hkeys⟩ := aliasAll_eq stem hchildren
  rw [containerDoc, containerDoc, Container.aliased, Container.aliased, Container.keys,
    Container.keys, halias, hkeys, htail]

theorem bodyParts_eq (stem : Text) (c c' : Container)
    (hchildren : Node.bareAll c.children = Node.bareAll c'.children) (htail : c.tail = c'.tail)
    (docs : List Doc) : bodyParts stem c docs = bodyParts stem c' docs := by
  rw [bodyParts, bodyParts, containerDoc_eq stem true c c' hchildren htail, Container.aliased,
    Container.aliased, (aliasAll_eq stem hchildren).1, htail]

/-- Whether a chain is broken is seen on its last branch. -/
theorem chainBreaks_eq (ht : tree.Plain) : ∀ {ns ns' : List Node},
    (∀ n ∈ ns, tree.Reached (.node n)) → Node.bareAll ns = Node.bareAll ns' →
      List.Forall₂ (Alike p.source p'.source) ns ns' → chainBreaks ns = chainBreaks ns'
  | [], ns', _, hbare, _ => by rw [Node.eq_nil_of_bareAll hbare]
  | [n], ms, hns, hbare, halike => by
    obtain ⟨m, ms, rfl, hn, hms⟩ := Node.eq_cons_of_bareAll hbare
    rw [Node.eq_nil_of_bareAll hms] at halike ⊢
    have hplace := (List.forall₂_cons.mp halike).1
    have hreached := hns n List.mem_cons_self
    cases n with
    | action info t act =>
      obtain ⟨info', t', rfl, -⟩ := Node.eq_action_of_bare hn
      rfl
    | raw info t => exact (ht _ hreached).elim
    | block info frame children =>
      obtain ⟨info', frame', children', rfl, -, hframe, hchildren⟩ := Node.eq_block_of_bare hn
      exact (hplace.children ht hreached hframe hchildren).2.endsWithNewLine_eq
    | chain info branches =>
      obtain ⟨info', branches', rfl, -⟩ := Node.eq_chain_of_bare hn
      rfl
  | n :: k :: ns, ms, hns, hbare, halike => by
    obtain ⟨m, ms, rfl, -, hms⟩ := Node.eq_cons_of_bareAll hbare
    obtain ⟨l, ms, rfl, -, -⟩ := Node.eq_cons_of_bareAll hms
    have hrest : chainBreaks (k :: ns) = chainBreaks (l :: ms) :=
      chainBreaks_eq ht (fun i hi => hns i (List.mem_cons_of_mem n hi)) hms
        (List.forall₂_cons.mp halike).2
    exact hrest

mutual

/-- **A node is printed as its counterpart is.** -/
theorem nodeDoc_eq (hp : p.Like p') (ht : tree.Plain) : ∀ {n n' : Node}, tree.Reached (.node n) →
    n.bare = n'.bare → Alike p.source p'.source n n' → p.nodeDoc n = p'.nodeDoc n'
  | .action info t act, n', hn, hbare, halike => by
    obtain ⟨info', t', rfl, hinfo⟩ := Node.eq_action_of_bare hbare
    have hignored : info.ignored = false := ht _ hn
    have hignored' : info'.ignored = false := (Info.eq_of_bare hinfo).2.2 ▸ hignored
    rw [nodeDoc, nodeDoc, hignored, hignored']
    exact lone_eq hp halike act
  | .raw info t, n', hn, _, _ => (ht _ hn).elim
  | .block info frame children, n', hn, hbare, halike => by
    obtain ⟨info', frame', children', rfl, hinfo, hframe, hchildren⟩ := Node.eq_block_of_bare hbare
    obtain ⟨hignored, hkeyword⟩ := ht _ hn
    have hignored' : info'.ignored = false := (Info.eq_of_bare hinfo).2.2 ▸ hignored
    have hkeyword' : frame'.keyword ≠ .ignoreStartKw := hframe.keyword ▸ hkeyword
    obtain ⟨hplaces, hcontent⟩ := halike.children ht hn hframe hchildren
    have hdocs := nodeDocs_eq hp ht (ht.children hn) hchildren hplaces
    have hbody := bodyParts_eq p'.stem (.ofBlock info frame children)
      (.ofBlock info' frame' children') hchildren hframe.tail
    have hblank : p.blankLineAt info.span = p'.blankLineAt info'.span := blankLineAt_eq halike
    rw [nodeDoc, nodeDoc, blockDoc_of_plain p _ _ hignored hkeyword,
      blockDoc_of_plain p' _ _ hignored' hkeyword', hdocs, hp.stem_eq, hbody,
      edge_eq hp hframe.start, stopDoc_eq hp hframe.stop, hframe.keyword, blockGroup, blockGroup,
      hframe.branch, hcontent.endsWithNewLine_eq, hblank]
  | .chain info branches, n', hn, hbare, halike => by
    obtain ⟨info', branches', rfl, hinfo, hbranches⟩ := Node.eq_chain_of_bare hbare
    have hignored : info.ignored = false := ht _ hn
    have hignored' : info'.ignored = false := (Info.eq_of_bare hinfo).2.2 ▸ hignored
    have hplaces := halike.branches ht hn hbranches
    have hdocs := nodeDocs_eq hp ht (ht.branches hn) hbranches hplaces
    have hblank : p.blankLineAt info.span = p'.blankLineAt info'.span := blankLineAt_eq halike
    rw [nodeDoc, nodeDoc, chainDoc_of_plain p _ _ hignored, chainDoc_of_plain p' _ _ hignored',
      hdocs, Printer.chain, Printer.chain, hblank,
      chainBreaks_eq ht (ht.branches hn) hbranches hplaces]

/-- Siblings are printed as their counterparts are. -/
theorem nodeDocs_eq (hp : p.Like p') (ht : tree.Plain) : ∀ {ns ns' : List Node},
    (∀ n ∈ ns, tree.Reached (.node n)) → Node.bareAll ns = Node.bareAll ns' →
      List.Forall₂ (Alike p.source p'.source) ns ns' → p.nodeDocs ns = p'.nodeDocs ns'
  | [], ns', _, hbare, _ => by
    rw [Node.eq_nil_of_bareAll hbare, nodeDocs, nodeDocs]
  | n :: ns, ms, hns, hbare, halike => by
    obtain ⟨m, ms, rfl, hn, hms⟩ := Node.eq_cons_of_bareAll hbare
    obtain ⟨hplace, hplaces⟩ := List.forall₂_cons.mp halike
    rw [nodeDocs, nodeDocs, nodeDoc_eq hp ht (hns n List.mem_cons_self) hn hplace,
      nodeDocs_eq hp ht (fun k hk => hns k (List.mem_cons_of_mem n hk)) hms hplaces]

end

/-- **Two spellings of a template are printed as the same document.** -/
theorem treeDoc_eq {source source' : Text} {tree' : Tree} (settings : Settings)
    (formatter : MarkupFormatter σ) (h : tree.Placed source) (h' : tree'.Placed source')
    (ht : tree.Plain) (hbare : Node.bareAll tree.children = Node.bareAll tree'.children)
    (htail : tree.tail = tree'.tail) :
    (ofTree tree settings formatter).treeDoc tree =
      (ofTree tree' settings formatter).treeDoc tree' := by
  have htop : ∀ n ∈ tree.children, tree.Reached (.node n) := fun n hn =>
    Relation.ReflTransGen.single (List.mem_map_of_mem hn)
  -- the stems are chosen by the whole texts, so these are compared before any node is
  have hsource : Respelled source source' := by
    rw [← h.spelled, ← h'.spelled, htail]
    exact (Node.respelled_spellAll ht htop hbare h.children h'.children).append (.refl _)
  have hstem : tree.stem = tree'.stem := by
    rw [h.stem_eq, h'.stem_eq, hsource.stem_eq]
  have hplaces : List.Forall₂ (Alike source source') tree.children tree'.children :=
    Alike.of_placedAll ht [] tree.tail [] tree'.tail htop hbare h.spelled.symm h'.spelled.symm
      h.children h'.children .nil (htail ▸ .refl _)
  rw [← h.source_eq, ← h'.source_eq] at hplaces
  have hlike : (ofTree tree settings formatter).Like (ofTree tree' settings formatter) :=
    ⟨hstem, rfl⟩
  have hdocs := nodeDocs_eq hlike ht htop hbare hplaces
  have hcontainer := containerDoc_eq tree'.stem false (.ofTree tree) (.ofTree tree') hbare htail
  rw [treeDoc, treeDoc, hdocs]
  show Doc.join [containerDoc tree.stem false _ _, _] =
    Doc.join [containerDoc tree'.stem false _ _, _]
  rw [hstem, hcontainer]

end Printer

/-! ## Runs of the formatter -/

/-- The node is ignored, or opens a region that is ignored. -/
def Node.ignores : Node → Bool
  | .block info frame _ => info.ignored || frame.keyword == .ignoreStartKw
  | n => n.info.ignored

/-- Something in the tree is ignored. -/
def Tree.ignores (t : Tree) : Bool :=
  t.unsorted.any fun l => match l.entry with
    | .node n => n.ignores
    | _ => false

/-- A template of actions has no raw region in its tree. -/
theorem not_raw_of_listing {source : Text} {tree : Tree} (h : parse source = .ok tree)
    (hactions : ∀ t ∈ (scan source).tokens, t.kind ≠ .raw) : ∀ l ∈ tree.listing, ∀ n,
      l.entry = .node n → ∀ g ∈ n.glyphs, ∀ t, g ≠ .token t .raw := by
  have htop : ∀ g ∈ Node.glyphsAll tree.children, ∀ t, g ≠ .token t .raw := by
    intro g hg t ht
    rw [(parse_glyphs h).1] at hg
    obtain ⟨token, htoken, hg⟩ := List.mem_flatMap.mp hg
    rcases List.mem_append.mp hg with hg | hg
    · obtain ⟨c, -, hc⟩ := List.mem_map.mp hg
      exact absurd (hc.trans ht) (by simp)
    · have hkind := (List.mem_singleton.mp hg).symm.trans ht
      exact hactions token htoken (Glyph.token.inj hkind).2
  intro l hl n hn
  have hlisted := Tree.listing_induction (P := fun n => ∀ g ∈ n.glyphs, ∀ t, g ≠ .token t .raw)
    ?_ ?_ (fun n hn g hg => htop g (Node.mem_glyphsAll hn hg)) hl
  · rw [hn] at hlisted
    exact hlisted.resolve_left (by simp)
  · intro info frame children hblock m hm g hg
    refine hblock g ?_
    rw [Node.glyphs]
    exact List.mem_cons_of_mem _ (List.mem_append_left _ (Node.mem_glyphsAll hm hg))
  · intro info branches hchain m hm g hg
    refine hchain g ?_
    rw [Node.glyphs]
    exact Node.mem_glyphsAll hm hg

/-- A tree of actions in which nothing is ignored is plain. -/
theorem plain_of_parse {source : Text} {tree : Tree} (h : parse source = .ok tree)
    (hactions : ∀ t ∈ (scan source).tokens, t.kind ≠ .raw) (hnone : tree.ignores = false) :
    tree.Plain := by
  have hraw := not_raw_of_listing h hactions
  intro n hreached
  obtain ⟨l, hl, hentry⟩ := Tree.reached_listed hreached
  have hignores := List.any_eq_false.mp hnone l ((Tree.listing_perm tree).mem_iff.mp hl)
  simp only [hentry, Bool.not_eq_true] at hignores
  cases n with
  | action info t act => exact hignores
  | raw info t =>
    refine hraw l hl _ hentry (.token t .raw) ?_ t rfl
    rw [Node.glyphs]
    exact List.mem_singleton_self _
  | block info frame children =>
    rw [Node.ignores, Bool.or_eq_false_iff, beq_eq_false_iff_ne] at hignores
    exact hignores
  | chain info branches => exact hignores

/-- **The output does not depend on how actions are spelled.** Let two templates be made of the same
actions, token by token, with the same literals before, between and after them, and let nothing in
them be ignored. Then both are formatted to the same output, or both fail with errors that differ in
their place only. -/
theorem format_respelled {source source' : Text} (settings : Settings)
    (htokens : (scan source).tokens.map (fun t => (t.lead, t.kind)) =
      (scan source').tokens.map fun t => (t.lead, t.kind))
    (htail : (scan source).tail = (scan source').tail)
    (hactions : ∀ t ∈ (scan source).tokens, t.kind ≠ .raw)
    (hnone : ∀ tree, parse source = .ok tree → tree.ignores = false) :
    (∃ out, format settings source = .ok out ∧ format settings source' = .ok out) ∨
      ∃ e e', format settings source = .error e ∧ format settings source' = .error e' ∧
        e.bare = e'.bare := by
  have hbare : (scan source).tokens.map Token.bare = (scan source').tokens.map Token.bare := by
    have hmap := congrArg (List.map fun p : Text × Token.Kind =>
      (⟨p.1, [], .zero, p.2⟩ : Token)) htokens
    rw [List.map_map, List.map_map] at hmap
    exact hmap
  rcases parse_bare hbare with ⟨tree, tree', hparse, hparse', hchildren⟩ | ⟨e, e', he, he', hkind⟩
  · have hplain := plain_of_parse hparse hactions (hnone tree hparse)
    have htails : tree.tail = tree'.tail := by
      rw [(parse_glyphs hparse).2, (parse_glyphs hparse').2, htail]
    refine .inl ⟨_, format_of_parse settings hparse, ?_⟩
    rw [format_of_parse settings hparse', layout, layout, Printer.treeDoc_eq settings _
      (parse_placed hparse) (parse_placed hparse') hplain hchildren htails]
  · refine .inr ⟨e, e', ?_, ?_, hkind⟩
    · rw [format, run_formatWith_error settings he]
    · rw [format, run_formatWith_error settings he']

/-- Line feeds at the inner edges of an action in the first spelling, none in the second. -/
theorem format_respelled_lines : ∃ out,
    format {} "{{if a}}\n<p>\x7b\x7b\n b\n\x7d\x7d</p>\n{{   end}}\n\n{{c}}".toList = .ok out ∧
      format {} "{{ if a }}\n<p>{{ b }}</p>\n{{end}}\n\n{{   c}}".toList = .ok out ∧
      out = "{{ if a }}\n  <p>{{ b }}</p>\n{{ end }}\n\n{{ c }}\n".toList := by
  have hformat : (format {}
      "{{if a}}\n<p>\x7b\x7b\n b\n\x7d\x7d</p>\n{{   end}}\n\n{{c}}".toList).toOption =
        some "{{ if a }}\n  <p>{{ b }}</p>\n{{ end }}\n\n{{ c }}\n".toList := by decide +kernel
  have hnone : (parse
      "{{if a}}\n<p>\x7b\x7b\n b\n\x7d\x7d</p>\n{{   end}}\n\n{{c}}".toList).toOption.map
        Tree.ignores = some false := by decide +kernel
  have htokens :
      (scan "{{if a}}\n<p>\x7b\x7b\n b\n\x7d\x7d</p>\n{{   end}}\n\n{{c}}".toList).tokens.map
        (fun t => (t.lead, t.kind)) =
      (scan "{{ if a }}\n<p>{{ b }}</p>\n{{end}}\n\n{{   c}}".toList).tokens.map
        fun t => (t.lead, t.kind) := by decide +kernel
  have hspellings := format_respelled {} htokens (by decide +kernel) (by decide +kernel)
    fun tree h => by
      rw [h] at hnone
      exact Option.some.inj hnone
  rcases hspellings with ⟨out, hout, hout'⟩ | ⟨e, e', he, -⟩
  · rw [hout] at hformat
    exact ⟨out, hout, hout', Option.some.inj hformat⟩
  · rw [he] at hformat
    exact absurd hformat (by simp [Except.toOption])

end TemplateFormat
