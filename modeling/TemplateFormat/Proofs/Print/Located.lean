import TemplateFormat.Proofs.Doc.Turn
import TemplateFormat.Proofs.Print.Kept
import TemplateFormat.Proofs.Tree.Geometry

/-!
# Where what is printed for a node stands

What is printed in the group of a block or a chain (`Printer.core?`) is a part of the document of
the template, behind what is printed for the text before the node. In a container this is seen on
the markup with placeholders: the formatter cuts it at white space only, so what comes before a
placeholder in the laid out markup has the characters of the literals and siblings before the child.

Results:
* `Splice.exists_text_of_lays`: the text that holds a placeholder, and what comes before it.
* `exists_after_child`: the document of a child in that of its container.
* `Printer.after_leading`, `Printer.after_body`, `Printer.after_trailing`: the parts of a block.
* `Printer.found_of_reached`: everything that is reached stands where it does in the template.
-/

namespace TemplateFormat

open Doc (After)

variable {σ : Type} {source : Text}

/-! ## Slots in laid out markup -/

namespace Word

theorem group_append_slot (v u : Word) (i : Nat) :
    group (v ++ .slot i :: u) = group v ++ .slot i :: group u := by
  have hcons (c : Char) (ps qs : List Splice.Piece) :
      Splice.consChar c (ps ++ .slot i :: qs) = Splice.consChar c ps ++ .slot i :: qs := by
    match ps with
    | [] => rfl
    | .literal t :: ps => rfl
    | .slot j :: ps => rfl
  induction v with
  | nil => rfl
  | cons s v ih =>
    cases s with
    | char c =>
      show Splice.consChar c (group (v ++ .slot i :: u)) = _
      rw [ih, hcons]
      rfl
    | slot j => exact congrArg (.slot j :: ·) ih

theorem slot_notMem_ofText (i : Nat) (t : Text) : .slot i ∉ ofText t := by
  intro hmem
  obtain ⟨c, -, hc⟩ := List.mem_map.mp hmem
  exact absurd hc (by simp)

/-- Where a word with a slot is cut, the slot is before the cut or behind it. -/
theorem append_slot_eq_append {v u x y : Word} {i : Nat} (h : v ++ .slot i :: u = x ++ y) :
    (∃ w, x = v ++ .slot i :: w) ∨ ∃ w, v = x ++ w ∧ y = w ++ .slot i :: u := by
  rcases List.append_eq_append_iff.mp h with ⟨w, rfl, hw⟩ | ⟨w, rfl, hw⟩
  · cases w with
    | nil => exact .inr ⟨[], by simp, hw.symm⟩
    | cons s w => exact .inl ⟨w, by rw [(List.cons.inj hw).1]⟩
  · exact .inr ⟨w, rfl, hw⟩

end Word

open Markup in
/-- **The text that holds a placeholder**, and what comes before it. The induction is on the items
that lay out the markup. -/
theorem Splice.exists_text_of_lays {keys : List Text} (hkeys : IsKeys source keys) {is : List Item}
    {t : Text} (h : Lays is t) {v u : Word} {i : Nat}
    (hspell : Word.spell keys (v ++ .slot i :: u) = t)
    (hfresh : Word.Fresh source (v ++ .slot i :: u))
    (hwithin : Word.Within keys.length (v ++ .slot i :: u)) :
    ∃ is' s js v' u', is = is' ++ .text s :: js ∧ pieces keys s = Word.group (v' ++ .slot i :: u') ∧
      ∀ f, Text.solid (is'.flatMap (fill keys f) ++ Word.restore f v') =
        Text.solid (Word.restore f v) := by
  induction h generalizing v with
  | done hb =>
    subst hspell
    have hword := spell_blank hkeys hwithin hb
    exact absurd (hword ▸ List.mem_append_right v List.mem_cons_self) (Word.slot_notMem_ofText i _)
  | line kind _ ih =>
    obtain ⟨is', s, js, v', u', rfl, hs, hsolid⟩ := ih hspell hfresh hwithin
    refine ⟨.line kind :: is', s, js, v', u', rfl, hs, fun f => ?_⟩
    rw [List.flatMap_cons, List.append_assoc, Text.solid_append, fill,
      Text.solid_of_isBlank (Printer.isBlank_flat_line kind)]
    exact hsolid f
  | @text b s t is hb _ hblank _ ih =>
    obtain ⟨w, hw, hrest⟩ := spell_blank_append hkeys hwithin hspell hb
    obtain ⟨v, rfl, rfl⟩ : ∃ v', v = Word.ofText b ++ v' ∧ w = v' ++ .slot i :: u := by
      rcases Word.append_slot_eq_append hw with ⟨w', hmem⟩ | h
      · exact absurd (hmem ▸ List.mem_append_right v List.mem_cons_self)
          (Word.slot_notMem_ofText i b)
      · exact h
    have hbefore (f : Nat → Text) :
        Text.solid (Word.restore f (Word.ofText b ++ v)) = Text.solid (Word.restore f v) := by
      rw [Word.restore_append, Word.restore_ofText, Text.solid_append, Text.solid_of_isBlank hb,
        List.nil_append]
    have hsub : v ++ .slot i :: u <:+: Word.ofText b ++ v ++ .slot i :: u := by
      rw [List.append_assoc]
      exact (List.suffix_append ..).isInfix
    obtain ⟨x, y, hxy, hx, hy⟩ := spell_split hkeys (hwithin.of_isInfix hsub) hrest hblank
    have hxsub : x <:+: Word.ofText b ++ v ++ .slot i :: u :=
      (hxy ▸ (List.prefix_append x y).isInfix).trans hsub
    have hysub : y <:+: Word.ofText b ++ v ++ .slot i :: u :=
      (hxy ▸ (List.suffix_append x y).isInfix).trans hsub
    have hpieces : pieces keys s = x.group :=
      hx ▸ pieces_spell hkeys (hfresh.of_isInfix hxsub) (hwithin.of_isInfix hxsub)
    -- the slot is in this text, or in a later one
    rcases Word.append_slot_eq_append hxy with ⟨w, rfl⟩ | ⟨w, rfl, rfl⟩
    · exact ⟨[], s, is, v, w, rfl, hpieces, fun f => (hbefore f).symm⟩
    · obtain ⟨is', s', js, v', u', rfl, hs', hsolid⟩ :=
        ih hy (hfresh.of_isInfix hysub) (hwithin.of_isInfix hysub)
      refine ⟨.text s :: is', s', js, v', u', rfl, hs', fun f => ?_⟩
      rw [hbefore, List.flatMap_cons, List.append_assoc, Text.solid_append, fill, hpieces,
        Word.restore_group, hsolid, Word.restore_append, Text.solid_append]

/-! ## Containers -/

section Containers

variable {c : Container} {docs : List Doc}

theorem flat_itemsWith_splicedText (keys : List Text) (docs : List Doc) (is : List Item) :
    (is.flatMap (Doc.itemsWith (splicedText keys docs))).flatMap Item.flat =
      is.flatMap (Splice.fill keys fun i => (docs.getD i .empty).flat) := by
  rw [List.flatMap_assoc]
  congr 1
  funext i
  cases i with
  | text t => exact flat_splicedText keys docs t
  | line kind => exact List.flatMap_singleton ..

theorem flat_items_group (docs : List Doc) (w : Word) :
    ((w.group.map (pieceDoc docs)).flatMap Doc.items).flatMap Item.flat =
      w.restore fun i => (docs.getD i .empty).flat := by
  rw [Doc.flat_flatMap, List.flatMap_map, ← Word.restore_group]
  congr 1
  funext piece
  exact flat_pieceDoc docs piece

/-- **The document in a slot** is a part of the container, behind what the word has before the slot.
-/
theorem exists_after_slot (hc : c.Stands source) (embedded : Bool) {v u : Word} {i : Nat}
    (hword : c.word = v ++ .slot i :: u) (hdoc : (docs.getD i .empty).isEmpty = false) :
    ∃ direct is, After (docs.getD i .empty) direct is
        (containerDoc (Placeholder.stem source) embedded c docs) ∧
      Text.solid (is.flatMap Item.flat) =
        Text.solid (v.restore fun i => (docs.getD i .empty).flat) := by
  obtain ⟨is, s, js, v', u', hitems, hpieces, hsolid⟩ := Splice.exists_text_of_lays hc.isKeys
    (Markup.Html.lays_stripped embedded (c.aliased (Placeholder.stem source)))
    (hword ▸ c.spell_word _) (hword ▸ hc.fresh) (hword ▸ c.within_keys _)
  have htext : After (docs.getD i .empty) true
      (((Word.group v').map (pieceDoc docs)).flatMap Doc.items)
        (splicedText (c.keys (Placeholder.stem source)) docs s) := by
    have hjoin := After.join ((Word.group v').map (pieceDoc docs))
      ((Word.group u').map (pieceDoc docs)) hdoc .refl
    rw [List.append_nil] at hjoin
    rw [splicedText, hpieces, Word.group_append_slot, List.map_append, List.map_cons]
    exact hjoin
  obtain ⟨direct, hafter⟩ := After.of_items _ hitems
  obtain ⟨direct, hafter⟩ := After.mapText (items_splicedText_nil _ docs) htext hafter
  refine ⟨direct, _, hafter, ?_⟩
  rw [List.flatMap_append, flat_itemsWith_splicedText, flat_items_group]
  exact hsolid _

/-- The literals and siblings before a child. -/
theorem word_eq_of_children {ns ms : List Node} {n : Node} (h : c.children = ns ++ n :: ms) :
    ∃ u, c.word = Node.aliasWord 0 ns ++ Word.ofText n.info.lead ++ .slot ns.length :: u := by
  have happend (k : Nat) (ns : List Node) : Node.aliasWord k (ns ++ n :: ms) =
      Node.aliasWord k ns ++ Word.ofText n.info.lead ++
        .slot (k + ns.length) :: Node.aliasWord (k + ns.length + 1) ms := by
    induction ns generalizing k with
    | nil => rfl
    | cons m ns ih =>
      rw [List.cons_append, Node.aliasWord, ih, Node.aliasWord, List.length_cons,
        show k + 1 + ns.length = k + (ns.length + 1) by omega]
      simp only [List.append_assoc, List.cons_append]
  refine ⟨Node.aliasWord (ns.length + 1) ms ++ Word.ofText c.tail, ?_⟩
  rw [Container.word, h, happend, Nat.zero_add, List.append_assoc, List.cons_append]

/-- **The document of a child** is a part of the container, behind the literals and siblings before
the child. -/
theorem exists_after_child (hc : c.Stands source) (hdocs : ShowsAll source c.children docs)
    (embedded : Bool) {ns ms : List Node} {n : Node} (hchildren : c.children = ns ++ n :: ms) :
    ∃ direct is, After (docs.getD ns.length .empty) direct is
        (containerDoc (Placeholder.stem source) embedded c docs) ∧
      Text.solid (is.flatMap Item.flat) = Text.solid (Node.spellAll ns ++ n.info.lead) := by
  obtain ⟨u, hword⟩ := word_eq_of_children hchildren
  have hn : c.children[ns.length]? = some n := by
    rw [hchildren, List.getElem?_append_right (Nat.le_refl _), Nat.sub_self]
    rfl
  have hdoc : (docs.getD ns.length .empty).isEmpty = false := by
    rw [Bool.eq_false_iff]
    intro hempty
    exact (shows_slot hc hdocs hn).2.ne_nil (Doc.flat_eq_nil_of_isEmpty hempty)
  obtain ⟨direct, is, hafter, hsolid⟩ := exists_after_slot hc embedded hword hdoc
  refine ⟨direct, is, hafter, hsolid.trans ?_⟩
  have hbefore : Word.restore c.childText (Node.aliasWord 0 ns ++ Word.ofText n.info.lead) =
      Node.spellAll ns ++ n.info.lead := by
    rw [Word.restore_append, Word.restore_ofText, Node.spellAll_eq_flatMap,
      Node.restore_aliasWord 0 ns]
    intro i m hm
    have hlt := (List.getElem?_eq_some_iff.mp hm).1
    rw [Nat.zero_add, Container.childText, hchildren, List.getElem?_append_left hlt, hm]
    rfl
  rw [← hbefore]
  refine Word.solid_restore fun i hi => ?_
  have hlt : i < c.children.length := c.within_word i (hword ▸ List.mem_append_left _ hi)
  have hm := List.getElem?_eq_getElem hlt
  rw [(shows_slot hc hdocs hm).1.solid, Container.childText, hm]
  rfl

end Containers

/-! ## Blocks -/

theorem Node.IsChain.isBranch {branches : List Node} (h : IsChain branches) {n : Node}
    (hn : n ∈ branches) : ∃ first last, n.IsBranch first last := by
  obtain ⟨first, mid, last, rfl, hfirst, hmid, hlast⟩ := h
  rcases List.mem_cons.mp hn with rfl | hn
  · exact ⟨_, _, hfirst⟩
  · rcases List.mem_append.mp hn with hn | hn
    · exact ⟨_, _, hmid n hn⟩
    · exact ⟨_, _, List.mem_singleton.mp hn ▸ hlast⟩

namespace Printer

variable {d : Doc} {direct : Bool} {is : List Item}

theorem solid_flat_line (kind : Line) : Text.solid (Item.line kind).flat = [] :=
  Text.solid_of_isBlank (isBlank_flat_line kind)

/-- **A firm part of a body** stays where it is without the line breaks at the ends of the body. -/
theorem after_splitEdges {e : Doc} (hd : d.Firm) (h : After d direct is e) : ∃ is',
    After d direct is' (splitEdges e).2.1 ∧
      Text.solid (is'.flatMap Item.flat) = Text.solid (is.flatMap Item.flat) := by
  cases h with
  | refl =>
    rw [hd.edges]
    exact ⟨[], .refl, rfl⟩
  | @concat _ is e ds es h =>
    have hline := h.within.isLine_eq_false hd
    obtain ⟨ds', htail, hsolid⟩ : ∃ ds', (if (ds ++ e :: es).head?.any (Doc.isLine .normal) then
        (ds ++ e :: es).tail else ds ++ e :: es) = ds' ++ e :: es ∧
          Text.solid ((ds'.flatMap Doc.items).flatMap Item.flat) =
            Text.solid ((ds.flatMap Doc.items).flatMap Item.flat) := by
      cases ds with
      | nil => exact ⟨[], if_neg (by simp [hline]), rfl⟩
      | cons x ds =>
        by_cases hx : x.isLine .normal = true
        · refine ⟨ds, if_pos (by simpa using hx), ?_⟩
          rw [Doc.eq_line_of_isLine hx, List.flatMap_cons, Doc.items_line, List.flatMap_append,
            List.flatMap_singleton, Text.solid_append, solid_flat_line, List.nil_append]
        · exact ⟨x :: ds, if_neg (by simpa using hx), rfl⟩
    obtain ⟨es', hlast⟩ : ∃ es', (if (ds' ++ e :: es).getLast?.any (Doc.isLine .normal) then
        (ds' ++ e :: es).dropLast else ds' ++ e :: es) = ds' ++ e :: es' := by
      rcases List.eq_nil_or_concat es with rfl | ⟨es, x, rfl⟩
      · exact ⟨[], if_neg (by simp [hline])⟩
      · rw [List.concat_eq_append, ← List.cons_append, ← List.append_assoc, List.getLast?_concat,
          List.dropLast_concat]
        split
        · exact ⟨es, rfl⟩
        · exact ⟨es ++ [x], List.append_assoc ..⟩
    refine ⟨ds'.flatMap Doc.items ++ is, ?_, ?_⟩
    · rw [splitEdges]
      simp only [htail, hlast]
      exact h.join ds' es' hd.shown
    · rw [List.flatMap_append, List.flatMap_append, Text.solid_append, Text.solid_append, hsolid]
  | indent h => exact ⟨is, .indent h, rfl⟩
  | group broken h => exact ⟨is, .group broken h, rfl⟩

section Body

variable (keyword : Keyword) (leading trailing : Line) (start stop : Doc) {body : Doc}

/-- What is in the body of a block, and the line break before it. -/
theorem after_blockBody_inner (hd : d.isEmpty = false) (hbody : body.isEmpty = false)
    (h : After d direct is (.join [.line leading, body])) :
    After d direct (start.items ++ is)
      (blockBody keyword (leading, body, trailing) start stop) := by
  have hinner : After d direct is (if keyword = .defineKw then .join [.line leading, body]
      else .nest (.join [.line leading, body])) := by
    split
    · exact h
    · exact h.nest hd
  have hjoin := hinner.join [start] [.line trailing, stop] hd
  rw [List.flatMap_singleton] at hjoin
  rw [blockBody]
  simpa [hbody] using hjoin

/-- **The line break before a body.** -/
theorem after_leading (hbody : body.isEmpty = false) : After (.line leading) true start.items
    (blockBody keyword (leading, body, trailing) start stop) := by
  have hline := After.join [] [body] (d := .line leading) rfl .refl
  have := after_blockBody_inner keyword leading trailing start stop rfl hbody hline
  rwa [List.flatMap_nil, List.append_nil, List.append_nil] at this

/-- **A part of a body.** -/
theorem after_body (hd : d.isEmpty = false) (h : After d direct is body) :
    After d direct (start.items ++ .line leading :: is)
      (blockBody keyword (leading, body, trailing) start stop) := by
  have hinner := h.join [.line leading] [] hd
  rw [List.flatMap_singleton, Doc.items_line, List.singleton_append] at hinner
  exact after_blockBody_inner keyword leading trailing start stop hd
    (h.within.isEmpty_eq_false hd) hinner

/-- **The line break behind a body.** -/
theorem after_trailing (hbody : body.isEmpty = false) :
    After (.line trailing) true (start.items ++ .line leading :: body.items)
      (blockBody keyword (leading, body, trailing) start stop) := by
  have hjoin := After.join [start, if keyword = .defineKw then .join [.line leading, body]
    else .nest (.join [.line leading, body])] [stop] (d := .line trailing) rfl .refl
  have hitems : [start, if keyword = .defineKw then Doc.join [.line leading, body]
      else .nest (.join [.line leading, body])].flatMap Doc.items ++ [] =
        start.items ++ .line leading :: body.items := by
    split <;> simp
  rw [hitems] at hjoin
  rw [blockBody]
  simpa [hbody] using hjoin

end Body

/-! ## Nodes -/

variable {p : Printer σ} {tree : Tree} {n : Node} {pre post : Text}

/-- What is printed in the group of a block or a chain that is not kept as written. A branch is
printed in the group of its chain. -/
def core? (p : Printer σ) : Node → Option Doc
  | .block info frame children =>
    if info.ignored = true ∨ frame.keyword = .ignoreStartKw then none
    else some (blockBody frame.keyword
      (bodyParts p.stem (.ofBlock info frame children) (p.nodeDocs children)) (p.edge frame.start)
        (p.stopDoc frame.stop))
  | .chain info branches => if info.ignored then none else some (.join (p.nodeDocs branches))
  | _ => none

theorem core?_block {info : Info} {frame : Frame} {children : List Node}
    (h : p.core? (.block info frame children) = some d) : info.ignored = false ∧
      frame.keyword ≠ .ignoreStartKw ∧ d = blockBody frame.keyword
        (bodyParts p.stem (.ofBlock info frame children) (p.nodeDocs children)) (p.edge frame.start)
          (p.stopDoc frame.stop) := by
  rw [core?] at h
  split at h
  · exact absurd h (by simp)
  · rename_i hplain
    rw [not_or, Bool.not_eq_true] at hplain
    exact ⟨hplain.1, hplain.2, (Option.some.inj h).symm⟩

theorem core?_of_plain (p : Printer σ) {info : Info} {frame : Frame} (children : List Node)
    (hignored : info.ignored = false) (hkeyword : frame.keyword ≠ .ignoreStartKw) :
    p.core? (.block info frame children) = some (blockBody frame.keyword
      (bodyParts p.stem (.ofBlock info frame children) (p.nodeDocs children)) (p.edge frame.start)
        (p.stopDoc frame.stop)) := by
  rw [core?, if_neg (by simp [hignored, hkeyword])]

theorem core?_chain {info : Info} {branches : List Node}
    (h : p.core? (.chain info branches) = some d) :
    info.ignored = false ∧ d = .join (p.nodeDocs branches) := by
  rw [core?] at h
  split at h
  · exact absurd h (by simp)
  · rename_i hplain
    exact ⟨by simpa using hplain, (Option.some.inj h).symm⟩

theorem core?_of_chain (p : Printer σ) {info : Info} (branches : List Node)
    (hignored : info.ignored = false) :
    p.core? (.chain info branches) = some (.join (p.nodeDocs branches)) := by
  rw [core?, if_neg (by simp [hignored])]

/-- A block is printed in its own group, unless it is a branch. -/
theorem nodeDoc_of_core?_block {info : Info} {frame : Frame} {children : List Node}
    (h : p.core? (.block info frame children) = some d) :
    p.nodeDoc (.block info frame children) =
      p.blockGroup info frame (frame.content children) d := by
  obtain ⟨hignored, hkeyword, rfl⟩ := core?_block h
  rw [nodeDoc, blockDoc_of_plain p _ _ hignored hkeyword]

theorem nodeDoc_of_core?_chain {info : Info} {branches : List Node}
    (h : p.core? (.chain info branches) = some d) : p.nodeDoc (.chain info branches) =
      .join [.group d (chainBreaks branches), p.blankLineAt info.span] := by
  obtain ⟨hignored, rfl⟩ := core?_chain h
  rw [nodeDoc, chainDoc_of_plain p _ _ hignored, chain]

/-- A group has the characters of the node. -/
theorem solid_core? (hp : p.Serves source) (hn : n.Stands source) (h : p.core? n = some d) :
    Text.solid d.flat = Text.solid n.text := by
  have hflat : (p.nodeDoc n).flat = d.flat := by
    have hjoin (broken : Bool) (span : Span) :
        (Doc.join [.group d broken, p.blankLineAt span]).flat = d.flat := by
      rw [Doc.flat_join, List.flatMap_cons, List.flatMap_singleton, Doc.flat_group, blankLineAt,
        flat_keptBlankLine, List.append_nil]
    cases n with
    | block info frame children =>
      rw [nodeDoc_of_core?_block h, blockGroup]
      split
      · rfl
      · exact hjoin _ _
    | chain info branches => rw [nodeDoc_of_core?_chain h, hjoin]
    | action info text act => exact absurd h (by simp [core?])
    | raw info text => exact absurd h (by simp [core?])
  rw [← hflat, (printed_node hp hn).2.solid]

theorem isEmpty_core? (hp : p.Serves source) (hn : n.Stands source) (hne : Text.solid n.text ≠ [])
    (h : p.core? n = some d) : d.isEmpty = false := by
  rw [Bool.eq_false_iff]
  intro hempty
  rw [← solid_core? hp hn h, Doc.flat_eq_nil_of_isEmpty hempty] at hne
  exact hne rfl

theorem firm_group {broken : Bool} (hd : d.isEmpty = false) : (Doc.group d broken).Firm :=
  ⟨by rwa [Doc.isEmpty], by simp, rfl⟩

/-- **The group of a block outside a chain, or of a chain,** is what is printed first for it. -/
theorem exists_firm_of_core? (hw : n.Whole) (hd : d.isEmpty = false) (h : p.core? n = some d) :
    ∃ e, e.Firm ∧ After d false [] e ∧ After e true [] (p.nodeDoc n) := by
  have hgroup (broken : Bool) (span : Span) : After (.group d broken) true []
      (.join [.group d broken, p.blankLineAt span]) :=
    After.join [] [p.blankLineAt span] (firm_group hd).shown .refl
  cases n with
  | block info frame children =>
    refine ⟨_, firm_group hd, .group (endsWithNewLine (frame.content children)) .refl, ?_⟩
    rw [nodeDoc_of_core?_block h, blockGroup, if_neg (by simp [hw.2.2])]
    exact hgroup _ _
  | chain info branches =>
    refine ⟨_, firm_group hd, .group (chainBreaks branches) .refl, ?_⟩
    rw [nodeDoc_of_core?_chain h]
    exact hgroup _ _
  | action info text act => exact absurd h (by simp [core?])
  | raw info text => exact absurd h (by simp [core?])

/-- A branch is printed in the group of its chain. -/
theorem nodeDoc_of_branch {first last : Bool} (hn : n.IsBranch first last)
    (h : p.core? n = some d) : p.nodeDoc n = d := by
  cases n with
  | block info frame children => rw [nodeDoc_of_core?_block h, blockGroup, if_pos hn.1]
  | chain info branches => exact hn.elim
  | action info text act => exact hn.elim
  | raw info text => exact hn.elim

/-- The document is a part of what is printed for the tree, behind a text. -/
def Behind (p : Printer σ) (tree : Tree) (before : Text) (d : Doc) : Prop :=
  ∃ direct is, After d direct is (p.treeDoc tree) ∧
    Text.solid (is.flatMap Item.flat) = Text.solid before

theorem Behind.part {e : Doc} (text : Text) (h : p.Behind tree pre e) (hd : After d direct is e)
    (hsolid : Text.solid (is.flatMap Item.flat) = Text.solid text) :
    p.Behind tree (pre ++ text) d := by
  obtain ⟨direct', is', hafter, hbefore⟩ := h
  refine ⟨_, _, hd.trans hafter, ?_⟩
  rw [List.flatMap_append, Text.solid_append, Text.solid_append, hbefore, hsolid]

/-- The node stands between two parts of the source, and what is printed in its group behind what is
printed for the first of them. Something is read behind it, if it has no closing action. -/
structure Located (p : Printer σ) (source : Text) (tree : Tree) (n : Node) (pre post : Text) :
    Prop where
  eq : source = pre ++ (n.text ++ post)
  placed : n.Placed (Text.bytes pre)
  formed : n.Formed
  followed : n.Closed ∨ Text.solid post ≠ []
  core : ∀ d ∈ p.core? n, p.Behind tree pre d

theorem Located.stands (h : p.Located source tree n pre post) : n.Stands source :=
  ⟨pre, post, h.eq, h.placed⟩

theorem getD_nodeDocs_of_children {children ns ms : List Node} (h : children = ns ++ n :: ms) :
    (p.nodeDocs children).getD ns.length .empty = p.nodeDoc n := by
  simp [nodeDocs_eq_map, h]

/-- **The children of a container**, if their groups stand where they should in the document. -/
theorem located_children (hp : p.Serves source) {c : Container}
    (he : source = pre ++ (c.text ++ post)) (hplaced : Node.PlacedAll (Text.bytes pre) c.children)
    (hsiblings : Node.Siblings c.children) (hformed : ∀ n ∈ c.children, n.Formed ∧ n.Whole)
    (hdoc : ∀ {ns ms : List Node} {n : Node} {e : Doc} {direct : Bool}, c.children = ns ++ n :: ms →
      e.Firm → After e direct [] (p.nodeDoc n) →
        p.Behind tree (pre ++ (Node.spellAll ns ++ n.info.lead)) e) :
    ∀ n ∈ c.children, ∃ pre post, p.Located source tree n pre post := by
  intro n hn
  obtain ⟨ns, ms, hchildren⟩ := List.append_of_mem hn
  have heq : source = (pre ++ (Node.spellAll ns ++ n.info.lead)) ++
      (n.text ++ (Node.spellAll ms ++ c.tail ++ post)) := by
    rw [he, Container.text, hchildren, Node.spellAll_append, Node.spellAll]
    simp only [List.append_assoc]
  have hn' : n.Placed (Text.bytes (pre ++ (Node.spellAll ns ++ n.info.lead))) := by
    rw [hchildren] at hplaced
    rw [Text.bytes_append, Text.bytes_append, ← Nat.add_assoc]
    exact (Node.placedAll_append hplaced).1
  have hclosed := hsiblings.closed n hn
  refine ⟨_, _, heq, hn', (hformed n hn).1, .inl hclosed, fun d hd => ?_⟩
  have hstands : n.Stands source := ⟨_, _, heq, hn'⟩
  have hshown := isEmpty_core? hp hstands (Node.framed hn' hclosed).ne_nil hd
  obtain ⟨e, hfirm, hcore, hgroup⟩ := exists_firm_of_core? (hformed n hn).2 hshown hd
  have hbehind := (hdoc hchildren hfirm hgroup).part [] hcore rfl
  rwa [List.append_nil] at hbehind

/-- The top nodes stand in the document of the tree. -/
theorem located_root (hp : p.Serves source) (ht : tree.Placed source)
    (hf : Builder.FormedChildren tree.children) :
    ∀ n ∈ tree.children, ∃ pre post, p.Located source tree n pre post := by
  have hc := Container.stands_ofTree ht
  have hdocs := showsAll_of_printed (printed_nodes hp fun n hn => (hc.children n hn).1)
  have he : source = [] ++ ((Container.ofTree tree).text ++ []) := by
    rw [List.nil_append, List.append_nil]
    exact ht.spelled.symm
  refine located_children (c := .ofTree tree) hp he ht.children ht.siblings
    (fun n hn => ⟨hf.formed n hn, hf.whole n hn⟩)
    fun {ns ms n e direct} hchildren hfirm hafter => ?_
  obtain ⟨direct', is, hchild, hsolid⟩ := exists_after_child hc hdocs false hchildren
  rw [getD_nodeDocs_of_children hchildren, ← hp.stem_eq] at hchild
  have hjoin := (hafter.trans hchild).join [] [.hardline] hfirm.shown
  rw [List.flatMap_nil, List.nil_append, List.append_nil] at hjoin
  exact ⟨_, is, hjoin, hsolid⟩

theorem solid_edge (p : Printer σ) {l : Leaf} {offset : Nat} (h : l.Placed offset) :
    Text.solid (p.edge l).flat = Text.solid l.text :=
  (shows_edge p h (Placeholder.free_source l.text)).1.solid

/-- A body with children is not blank. -/
theorem bodyParts_of_children {stem : Text} {c : Container} {docs : List Doc} {ns ms : List Node}
    (h : c.children = ns ++ n :: ms) :
    bodyParts stem c docs = splitEdges (containerDoc stem true c docs) := by
  refine if_neg fun hblank => ?_
  rw [Container.children_eq_nil hblank] at h
  exact absurd h (by simp)

/-- The children of a block stand in what is printed for the block. -/
theorem located_block (hp : p.Serves source) {info : Info} {frame : Frame} {children : List Node}
    (h : p.Located source tree (.block info frame children) pre post)
    (hignored : info.ignored = false) (hkeyword : frame.keyword ≠ .ignoreStartKw) :
    ∀ n ∈ children, ∃ pre post, p.Located source tree n pre post := by
  have hc := Container.stands_ofBlock h.stands
  have hdocs := showsAll_of_printed (printed_nodes hp fun n hn => (hc.children n hn).1)
  obtain ⟨-, hstart, hplaced, hsiblings, -⟩ := h.placed
  obtain ⟨-, hwhole, hformed⟩ := h.formed
  have he : source = (pre ++ frame.start.text) ++
      ((Container.ofBlock info frame children).text ++
        ((frame.stop.map Leaf.text).getD [] ++ post)) := by
    rw [h.eq, text_block]
    simp only [List.append_assoc]
  rw [← Text.bytes_append] at hplaced
  refine located_children (c := .ofBlock info frame children) hp he hplaced hsiblings
    (fun n hn => ⟨Node.formedAll_iff.mp hformed n hn, hwhole n hn⟩)
    fun {ns ms n e direct} hchildren hfirm hafter => ?_
  obtain ⟨direct', is, hchild, hsolid⟩ := exists_after_child hc hdocs true hchildren
  rw [getD_nodeDocs_of_children hchildren] at hchild
  obtain ⟨is', hbody, hedges⟩ := after_splitEdges hfirm (hafter.trans hchild)
  rw [← bodyParts_of_children hchildren, ← hp.stem_eq] at hbody
  have hblock := h.core _ (core?_of_plain p children hignored hkeyword)
  rw [List.append_assoc]
  refine hblock.part _ (after_body frame.keyword _ _ (p.edge frame.start) (p.stopDoc frame.stop)
    hfirm.shown hbody) ?_
  rw [List.append_nil] at hedges
  rw [List.flatMap_append, List.flatMap_cons, Text.solid_append, Text.solid_append, solid_flat_line,
    hedges, hsolid, Text.solid_append frame.start.text, ← solid_edge p hstart]
  rfl

/-- The branches of a chain stand in what is printed for the chain. -/
theorem located_chain (hp : p.Serves source) {info : Info} {branches : List Node}
    (h : p.Located source tree (.chain info branches) pre post) (hignored : info.ignored = false) :
    ∀ n ∈ branches, ∃ pre post, p.Located source tree n pre post := by
  intro n hn
  obtain ⟨ns, ms, rfl⟩ := List.append_of_mem hn
  obtain ⟨-, hplaced, hbranches⟩ := h.placed
  obtain ⟨hchain, hformed⟩ := h.formed
  have hjoined : ∀ m ∈ ns ++ n :: ms, m.Joined ∧ Opens m.text := by
    intro m hm
    obtain ⟨o, ho⟩ := Node.exists_placed_of_mem hplaced m hm
    exact ⟨hbranches.joined m hm, (hbranches.joined m hm).opens ho⟩
  have hlead : n.info.lead = [] := (hjoined n hn).1.lead_eq
  have heq : source = (pre ++ Node.spellAll ns) ++ (n.text ++ (Node.spellAll ms ++ post)) := by
    rw [h.eq, Node.text, Node.spellAll_append, Node.spellAll, hlead]
    simp only [List.append_assoc, List.nil_append]
  have hn' : n.Placed (Text.bytes (pre ++ Node.spellAll ns)) := by
    have := (Node.placedAll_append hplaced).1
    rwa [hlead, Text.bytes_nil, Nat.add_zero, ← Text.bytes_append] at this
  refine ⟨_, _, heq, hn', Node.formedAll_iff.mp hformed n hn, ?_, fun d hd => ?_⟩
  · -- a branch without a closing action is followed by another one
    cases ms with
    | nil =>
      obtain ⟨init, last, hlast, hclosed⟩ := hbranches.closed
      obtain ⟨-, hlast⟩ := List.append_inj' hlast rfl
      exact .inl ((List.cons.inj hlast).1 ▸ hclosed)
    | cons m ms =>
      have hm := hjoined m (List.mem_append_right _ (List.mem_cons_of_mem _ List.mem_cons_self))
      refine .inr ?_
      rw [Node.spellAll, hm.1.lead_eq, List.nil_append, List.append_assoc, Text.solid_append]
      exact List.append_ne_nil_of_left_ne_nil hm.2.1 _
  · have hbefore := shows_branches (showsAll_of_printed (printed_nodes hp fun m hm =>
        h.stands.branches m (List.mem_append_left _ hm))) fun m hm =>
      hjoined m (List.mem_append_left _ hm)
    have hsolid := hbefore.1.solid
    rw [Doc.flat_join, ← Doc.flat_flatMap] at hsolid
    have hstands : n.Stands source := ⟨_, _, heq, hn'⟩
    have hshown : d.isEmpty = false :=
      isEmpty_core? hp hstands (hjoined n hn).2.1 hd
    obtain ⟨first, last, hbranch⟩ := hchain.isBranch hn
    have hafter : After d true ((p.nodeDocs ns).flatMap Doc.items)
        (.join (p.nodeDocs (ns ++ n :: ms))) := by
      have hjoin := After.join (p.nodeDocs ns) (p.nodeDocs ms) hshown .refl
      rw [List.append_nil] at hjoin
      rw [nodeDocs_eq_map p (ns ++ n :: ms), List.map_append, List.map_cons,
        nodeDoc_of_branch hbranch hd, ← nodeDocs_eq_map, ← nodeDocs_eq_map]
      exact hjoin
    exact (h.core _ (core?_of_chain p (ns ++ n :: ms) hignored)).part _ hafter hsolid

/-- What is known of an entry that is reached: it is the root, or a node that stands where it does
in the source. -/
def Found (p : Printer σ) (source : Text) (tree : Tree) : Entry → Prop
  | .root t => t = tree
  | .node n => ∃ pre post, p.Located source tree n pre post
  | .edge _ _ => True

/-- Printing goes from what is found to what is found. -/
theorem found_next (hp : p.Serves source) (ht : tree.Placed source)
    (hf : Builder.FormedChildren tree.children) {e e' : Entry} (h : p.Found source tree e)
    (he : e' ∈ e.next) : p.Found source tree e' := by
  match e, h, he with
  | .root t, h, he =>
    obtain ⟨n, hn, rfl⟩ := List.mem_map.mp he
    rw [show t = tree from h] at hn
    exact located_root hp ht hf n hn
  | .node (.block info frame children), h, he =>
    obtain ⟨pre, post, h⟩ := h
    by_cases hignored : info.ignored = true
    · simp [Entry.next, hignored] at he
    · rw [Entry.next, if_neg hignored, List.mem_cons, List.mem_append] at he
      rcases he with rfl | he | he
      · trivial
      · by_cases hkeyword : frame.keyword = .ignoreStartKw
        · simp [hkeyword] at he
        · rw [if_neg hkeyword] at he
          obtain ⟨n, hn, rfl⟩ := List.mem_map.mp he
          exact located_block hp h (by simpa using hignored) hkeyword n hn
      · obtain ⟨l, -, rfl⟩ := Option.map_eq_some_iff.mp (Option.mem_toList.mp he)
        trivial
  | .node (.chain info branches), h, he =>
    obtain ⟨pre, post, h⟩ := h
    by_cases hignored : info.ignored = true
    · simp [Entry.next, hignored] at he
    · rw [Entry.next, if_neg hignored] at he
      obtain ⟨n, hn, rfl⟩ := List.mem_map.mp he
      exact located_chain hp h (by simpa using hignored) n hn
  | .node (.action _ _ _), _, he => simp [Entry.next] at he
  | .node (.raw _ _), _, he => simp [Entry.next] at he
  | .edge _ _, _, he => simp [Entry.next] at he

/-- **Everything that is reached stands where it does in the source**, by induction on the moves
from the root. -/
theorem found_of_reached (hp : p.Serves source) (ht : tree.Placed source)
    (hf : Builder.FormedChildren tree.children) {e : Entry} (h : tree.Reached e) :
    p.Found source tree e := by
  induction h with
  | refl => rfl
  | tail _ he ih => exact found_next hp ht hf ih he

end Printer

end TemplateFormat
