import TemplateFormat.Proofs.Print.Embed

/-!
# Printed nodes

By induction on the tree, every node of a template is printed without a failure, and what is
printed shows the node. The two statements are proved together: that no placeholder is lost in a
container is seen on the formatted content, but that the stem stays out of it needs the documents
of its children.

Results:
* `nodeDoc`, `treeDoc`: the documents that are printed.
* `shows_blockDoc`, `prints_block`: a block is printed from its parts, and shows them.
* `printed_node`: every node that stands in the source is printed, and shown.
* `printed_tree`: so is the whole template.
-/

namespace TemplateFormat

open Placeholder PrintM

variable {σ : Type} {source : Text}

namespace Printer

/-- The printer is that of a template with the HTML formatter. -/
structure Serves (p : Printer σ) (source : Text) : Prop where
  stem_eq : p.stem = Placeholder.stem source
  formatter_eq : p.formatter = Markup.html

variable {p : Printer σ}

theorem slots_eq (p : Printer σ) (ns : List Node) : p.slots ns = slotsOf p.stem p.node ns := by
  induction ns with
  | nil => rw [slots, slotsOf, List.map_nil]
  | cons n ns ih => rw [slots, ih, slotsOf, slotsOf, List.map_cons]

theorem prints_nodes {ns : List Node} {docs : List Doc}
    (h : List.Forall₂ (Printed source p.node) ns docs) : Prints (p.nodes ns) docs := by
  induction h with
  | nil =>
    rw [nodes]
    exact prints_pure _
  | cons hd _ ih =>
    rw [nodes]
    exact hd.1.bind (ih.map _)

/-! ## Actions of blocks -/

theorem prints_leaf (p : Printer σ) (l : Leaf) : Prints (p.leaf l) (p.edge l) :=
  prints_record l.id (p.edge l)

theorem shows_edge (p : Printer σ) {l : Leaf} {offset : Nat} (h : l.Placed offset)
    (hfree : Free source l.text) : Shows source (p.edge l) l.text ∧ Framed (p.edge l).flat := by
  have hshows : Shows source (p.edge l) l.text :=
    (shows_action h.2 hfree p.settings.bracketSpacing).group false
  refine ⟨hshows, framed_of_solid ?_⟩
  rw [hshows.solid]
  exact framed_isAction h.2

/-- The closing action of a block, if it has one. -/
def stopDoc (p : Printer σ) (stop : Option Leaf) : Doc := (stop.map p.edge).getD .empty

theorem prints_stop (p : Printer σ) (stop : Option Leaf) :
    Prints (optional (stop.map p.leaf)) (p.stopDoc stop) := by
  cases stop with
  | none => exact prints_pure _
  | some l => exact prints_leaf p l

theorem shows_stop (p : Printer σ) (stop : Option Leaf)
    (h : ∀ l ∈ stop, (∃ offset, l.Placed offset) ∧ Free source l.text) :
    Shows source (p.stopDoc stop) ((stop.map Leaf.text).getD []) ∧
      StartsClear (p.stopDoc stop).flat := by
  cases stop with
  | none =>
    refine ⟨⟨rfl, ?_⟩, ?_⟩
    · show Free source Doc.empty.flat
      rw [Doc.flat_empty]
      exact free_nil
    · show StartsClear Doc.empty.flat
      rw [Doc.flat_empty]
      simp [StartsClear]
  | some l =>
    obtain ⟨⟨offset, hl⟩, hfree⟩ := h l rfl
    obtain ⟨hshows, hframed⟩ := shows_edge p hl hfree
    exact ⟨hshows, hframed.starts⟩

/-! ## Blocks -/

theorem shows_blockGroup {info : Info} {frame : Frame} {content t : Text} {d : Doc}
    (h : Shows source d t) : Shows source (p.blockGroup info frame content d) t := by
  unfold blockGroup
  split
  · exact h
  · exact (h.group _).join_keptBlankLine _

theorem text_block (info : Info) (frame : Frame) (children : List Node) :
    (Node.block info frame children).text = frame.start.text ++
      (Container.ofBlock info frame children).text ++ (frame.stop.map Leaf.text).getD [] := by
  rw [Node.text]
  simp only [Container.ofBlock, Container.text, List.append_assoc]

/-- A block, with the documents of its children. -/
def blockDoc (p : Printer σ) (info : Info) (frame : Frame) (children : List Node)
    (docs : List Doc) : Doc :=
  if info.ignored then p.keptAt info.span (Node.block info frame children).text
  else if frame.keyword = .ignoreStartKw then
    .join [ignoredRegion (p.edge frame.start) (frame.content children) (p.stopDoc frame.stop),
      p.blankLineAt info.span]
  else
    p.blockGroup info frame (frame.content children) (blockBody frame.keyword
      (bodyParts p.stem (.ofBlock info frame children) docs) (p.edge frame.start)
        (p.stopDoc frame.stop))

/-- A block that is not kept as written. -/
theorem blockDoc_of_plain (p : Printer σ) {info : Info} {frame : Frame} (children : List Node)
    (docs : List Doc) (hignored : info.ignored = false) (hkeyword : frame.keyword ≠ .ignoreStartKw) :
    p.blockDoc info frame children docs =
      p.blockGroup info frame (frame.content children) (blockBody frame.keyword
        (bodyParts p.stem (.ofBlock info frame children) docs) (p.edge frame.start)
          (p.stopDoc frame.stop)) := by
  rw [blockDoc, if_neg (by simp [hignored]), if_neg hkeyword]

/-- **A block shows its parts.** -/
theorem shows_blockDoc {info : Info} {frame : Frame} {children : List Node} {docs : List Doc}
    (hstem : p.stem = Placeholder.stem source) (h : (Node.block info frame children).Stands source)
    (hdocs : ShowsAll source children docs) :
    Shows source (p.blockDoc info frame children docs) (Node.block info frame children).text := by
  have hfree := (free_source source).of_isInfix h.isInfix
  have hc := Container.stands_ofBlock h
  unfold blockDoc
  by_cases hignored : info.ignored = true
  · rw [if_pos hignored]
    exact shows_keptText _ _ hfree
  · rw [if_neg hignored]
    obtain ⟨pre, post, -, -, hstart, -, -, hstop⟩ := h
    rw [text_block info frame children] at hfree ⊢
    have hcontent : Free source (Container.ofBlock info frame children).text :=
      hfree.of_isInfix ⟨_, _, rfl⟩
    obtain ⟨hshowsStart, hframed⟩ := shows_edge p hstart
      (hfree.of_isInfix (by rw [List.append_assoc]; exact (List.prefix_append ..).isInfix))
    obtain ⟨hshowsStop, hstarts⟩ := shows_stop p frame.stop fun l hl => by
      refine ⟨⟨_, hstop l hl⟩, hfree.of_isInfix ?_⟩
      rw [show frame.stop = some l from hl]
      exact (List.suffix_append ..).isInfix
    by_cases hkeyword : frame.keyword = .ignoreStartKw
    · rw [if_pos hkeyword]
      exact (shows_ignoredRegion hshowsStart hcontent hshowsStop).join_keptBlankLine _
    · rw [if_neg hkeyword, hstem]
      exact shows_blockGroup (shows_blockBody frame.keyword hshowsStart hframed.ends
        (shows_bodyParts hc hdocs) hshowsStop hstarts)

/-- **A block is printed from its parts.** -/
theorem prints_block {info : Info} {frame : Frame} {children : List Node} {docs : List Doc}
    (hp : p.Serves source) (h : (Node.block info frame children).Stands source)
    (hdocs : List.Forall₂ (Printed source p.node) children docs) :
    Prints (p.block info frame children (p.leaf frame.start) (frame.stop.map p.leaf)
        (p.slots children)) (p.blockDoc info frame children docs) := by
  unfold block blockDoc
  by_cases hignored : info.ignored = true
  · rw [if_pos hignored, if_pos hignored]
    exact prints_pure _
  · rw [if_neg hignored, if_neg hignored]
    refine (prints_leaf p frame.start).bind ((prints_stop p frame.stop).bind ?_)
    by_cases hkeyword : frame.keyword = .ignoreStartKw
    · simp only [if_pos hkeyword]
      exact prints_pure _
    · simp only [if_neg hkeyword]
      have hedges := prints_bodyEdges hp.formatter_eq (Container.stands_ofBlock h) hdocs info.span
      rw [← hp.stem_eq, Container.aliased_ofBlock] at hedges
      rw [slots_eq]
      exact hedges.map _

/-! ## Chains -/

/-- Branches follow each other directly, and each starts with an action. -/
theorem shows_branches {branches : List Node} {docs : List Doc}
    (hdocs : ShowsAll source branches docs) (h : ∀ n ∈ branches, n.Joined ∧ Opens n.text) :
    Shows source (.join docs) (Node.spellAll branches) ∧ StartsClear (Doc.join docs).flat := by
  induction hdocs with
  | nil =>
    refine ⟨⟨rfl, ?_⟩, ?_⟩
    · rw [Doc.flat_join, List.flatMap_nil]
      exact free_nil
    · simp [StartsClear]
  | @cons n d ns docs hd _ ih =>
    obtain ⟨hrest, hclear⟩ := ih fun m hm => h m (List.mem_cons_of_mem n hm)
    obtain ⟨hjoined, hne, hopens⟩ := h n List.mem_cons_self
    rw [← hd.solid] at hopens
    have hstarts := startsClear_of_solid hopens
    have hflat : (Doc.join (d :: docs)).flat = d.flat ++ (Doc.join docs).flat := by
      rw [Doc.flat_join, List.flatMap_cons, Doc.flat_join]
    refine ⟨⟨?_, ?_⟩, ?_⟩
    · rw [hflat, Text.solid_append, hd.solid, hrest.solid, Node.spellAll, hjoined.lead_eq,
        List.nil_append, Text.solid_append]
    · rw [hflat]
      exact free_append hd.free hrest.free (Or.inr hclear)
    · rw [hflat]
      exact startsClear_append hstarts hclear

/-- A chain, with the documents of its branches. -/
def chainDoc (p : Printer σ) (info : Info) (branches : List Node) (docs : List Doc) : Doc :=
  if info.ignored then p.keptAt info.span (Node.chain info branches).text
  else p.chain info.span branches docs

/-- A chain that is not kept as written. -/
theorem chainDoc_of_plain (p : Printer σ) {info : Info} (branches : List Node) (docs : List Doc)
    (hignored : info.ignored = false) :
    p.chainDoc info branches docs = p.chain info.span branches docs := by
  rw [chainDoc, if_neg (by simp [hignored])]

/-- **A chain shows its branches.** -/
theorem shows_chainDoc {info : Info} {branches : List Node} {docs : List Doc}
    (h : (Node.chain info branches).Stands source) (hdocs : ShowsAll source branches docs) :
    Shows source (p.chainDoc info branches docs) (Node.chain info branches).text := by
  have hfree := (free_source source).of_isInfix h.isInfix
  obtain ⟨pre, post, -, -, hplaced, hbranches⟩ := h
  unfold chainDoc
  split
  · exact shows_keptText _ _ hfree
  · have hopens : ∀ n ∈ branches, n.Joined ∧ Opens n.text := by
      intro n hn
      obtain ⟨o, ho⟩ := Node.exists_placed_of_mem hplaced n hn
      exact ⟨hbranches.joined n hn, (hbranches.joined n hn).opens ho⟩
    rw [Node.text]
    exact ((shows_branches hdocs hopens).1.group _).join_keptBlankLine _

/-- **A chain is printed from its branches.** -/
theorem prints_chain {info : Info} {branches : List Node} {docs : List Doc}
    (hdocs : List.Forall₂ (Printed source p.node) branches docs) :
    Prints (p.node (.chain info branches)) (p.chainDoc info branches docs) := by
  unfold chainDoc
  rw [node]
  split
  · exact prints_record _ _
  · exact (prints_nodes hdocs).bind (prints_record _ _)

/-! ## Trees -/

mutual

/-- What is printed for a node. -/
def nodeDoc (p : Printer σ) : Node → Doc
  | .action info text act =>
    if info.ignored then p.keptAt info.span text else p.lone info.span act
  | .raw info text => p.keptAt info.span text
  | .block info frame children => p.blockDoc info frame children (nodeDocs p children)
  | .chain info branches => p.chainDoc info branches (nodeDocs p branches)

/-- What is printed for siblings. -/
def nodeDocs (p : Printer σ) : List Node → List Doc
  | [] => []
  | n :: ns => nodeDoc p n :: nodeDocs p ns

end

mutual

/-- **Every node that stands in the source is printed, and shown.** -/
theorem printed_node (hp : p.Serves source) : ∀ {n : Node}, n.Stands source →
    Printed source p.node n (p.nodeDoc n)
  | .action info text act, h => by
    have hfree := (free_source source).of_isInfix h.isInfix
    obtain ⟨pre, post, -, -, hact⟩ := h
    rw [Node.text] at hfree
    unfold Printed
    rw [node, nodeDoc, Node.text]
    refine ⟨prints_record _ _, ?_⟩
    split
    · exact shows_keptText _ _ hfree
    · exact ((shows_action hact hfree _).join_keptBlankLine _).group _
  | .raw info text, h => by
    have hfree := (free_source source).of_isInfix h.isInfix
    rw [Node.text] at hfree
    unfold Printed
    rw [node, nodeDoc, Node.text]
    exact ⟨prints_record _ _, shows_keptText _ _ hfree⟩
  | .block info frame children, h => by
    have hdocs := printed_nodes hp fun n hn => ((Container.stands_ofBlock h).children n hn).1
    unfold Printed
    rw [node, nodeDoc]
    exact ⟨(prints_block hp h hdocs).orKeep _ _ _,
      shows_blockDoc hp.stem_eq h (showsAll_of_printed hdocs)⟩
  | .chain info branches, h => by
    have hdocs := printed_nodes hp h.branches
    rw [nodeDoc]
    exact ⟨prints_chain hdocs, shows_chainDoc h (showsAll_of_printed hdocs)⟩

/-- Siblings that stand in the source are printed, and shown. -/
theorem printed_nodes (hp : p.Serves source) : ∀ {ns : List Node}, (∀ n ∈ ns, n.Stands source) →
    List.Forall₂ (Printed source p.node) ns (p.nodeDocs ns)
  | [], _ => by
    rw [nodeDocs]
    exact .nil
  | n :: ns, h => by
    rw [nodeDocs]
    exact .cons (printed_node hp (h n List.mem_cons_self))
      (printed_nodes hp fun m hm => h m (List.mem_cons_of_mem n hm))

end

/-- What is printed for a template. -/
def treeDoc (p : Printer σ) (tree : Tree) : Doc :=
  .join [containerDoc p.stem false (.ofTree tree) (p.nodeDocs tree.children), .hardline]

/-- **The document of a template shows it**, whatever shows its nodes. -/
theorem shows_root {tree : Tree} {docs : List Doc} (hstem : p.stem = Placeholder.stem source)
    (h : tree.Placed source) (hdocs : ShowsAll source tree.children docs) :
    Shows source (.join [containerDoc p.stem false (.ofTree tree) docs, .hardline]) source := by
  have hshows := (shows_containerDoc (Container.stands_ofTree h) hdocs false).join_hardline
  rw [← hstem] at hshows
  have htext : (Container.ofTree tree).text = source := h.spelled
  rwa [htext] at hshows

/-- **The whole template is printed, and shown.** -/
theorem printed_tree {tree : Tree} (hp : p.Serves source) (h : tree.Placed source) :
    Prints (p.tree tree) (p.treeDoc tree) ∧ Shows source (p.treeDoc tree) source := by
  have hc := Container.stands_ofTree h
  have hdocs : List.Forall₂ (Printed source p.node) tree.children (p.nodeDocs tree.children) :=
    printed_nodes hp fun n hn => (hc.children n hn).1
  have hprints := prints_container hp.formatter_eq hc hdocs false tree.span
  refine ⟨?_, shows_root hp.stem_eq h (showsAll_of_printed hdocs)⟩
  unfold Printer.tree treeDoc
  refine Prints.orKeep ?_ _ _ _
  rw [slots_eq]
  rw [← hp.stem_eq] at hprints
  have haliased : (Container.ofTree tree).aliased p.stem = tree.aliased := by
    rw [hp.stem_eq, ← h.stem_eq, Container.aliased_ofTree]
  rw [haliased] at hprints
  exact hprints.map fun d => Doc.join [d, .hardline]

end Printer

end TemplateFormat
