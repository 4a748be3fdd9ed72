import TemplateFormat.Proofs.Doc.Known
import TemplateFormat.Proofs.Print.Edges
import TemplateFormat.Proofs.Print.Region
import TemplateFormat.Proofs.Splice.Lines

/-!
# Lines that are kept in blocks and chains

The lines of a region that is kept as written stand behind literal breaks, so they are lines of the
output, whatever encloses the region. `Node.keptLines` are these lines for a node, and
`Printer.sure_node` finds them in its document, by induction on the node. `Container.keptLines` are
the lines of a content that is not laid out anew, such as that of a preformatted element: its lines
without nodes, and what is kept of its nodes.

Results:
* `Printer.sure_ignoredRegion`: the lines of a region, also behind anything on the same line.
* `Printer.sure_node`: the kept lines of a node.
* `Container.plainLines_sublist`: the lines of a content without nodes are lines of the source.
* `Container.keptOf_sublist_shown`: what is kept of a line, where the line is printed.
-/

namespace TemplateFormat

open Word (ofText)

variable {σ : Type} {source : Text}

/-! ## The lines that are kept -/

namespace Node

mutual

/-- The lines of a node that are kept: those of the regions in it. -/
def keptLines : Node → List Text
  | .action _ _ _ => []
  | .raw _ _ => []
  | .block info frame children =>
    if info.ignored then []
    else if frame.keyword = .ignoreStartKw then Printer.regionLines (frame.content children)
    else keptLinesAll children
  | .chain info branches => if info.ignored then [] else keptLinesAll branches

/-- The lines of siblings that are kept. -/
def keptLinesAll : List Node → List Text
  | [] => []
  | n :: ns => keptLines n ++ keptLinesAll ns

end

theorem keptLinesAll_eq_flatMap (ns : List Node) : keptLinesAll ns = ns.flatMap keptLines := by
  induction ns with
  | nil => rw [keptLinesAll, List.flatMap_nil]
  | cons n ns ih => rw [keptLinesAll, ih, List.flatMap_cons]

end Node

namespace Container

/-- The kept lines of the child with a number. -/
def childLines (c : Container) (index : Nat) : List Text :=
  (c.children[index]?.map Node.keptLines).getD []

/-- What is kept of a line: the line without the white space at its end, if no child stands on it,
else what is kept of its children. -/
def keptOf (c : Container) (line : Word) : List Text :=
  if line.slots = [] then [Text.trimEnd (line.restore c.childText)]
  else line.slots.flatMap c.childLines

/-- The lines that are kept of those that a line feed ends. -/
def keptLines (c : Container) : List Text := c.word.lines.dropLast.flatMap c.keptOf

theorem flatMap_childLines (c : Container) :
    (List.range c.children.length).flatMap c.childLines = Node.keptLinesAll c.children := by
  have hlines : c.childLines = fun i => ((c.children.map Node.keptLines)[i]?).getD [] := by
    funext i
    rw [childLines, List.getElem?_map]
  rw [Node.keptLinesAll_eq_flatMap, List.flatMap_def, List.flatMap_def, hlines]
  congr 1
  refine List.ext_getElem (by simp) fun i hi _ => ?_
  rw [List.length_map, List.length_range] at hi
  simp [hi]

end Container

/-! ## Regions -/

/-- A text that does not end with white space has other characters than spaces and tabs. -/
theorem inks_of_trimEnd {l : Text} (h : Text.trimEnd l = l) (hne : l ≠ []) : l.inks = true := by
  obtain ⟨init, c, rfl⟩ := (List.eq_nil_or_concat l).resolve_left hne
  rw [List.concat_eq_append] at h ⊢
  have hc := Text.last_trimEnd (init ++ [c]) c (by rw [h, List.getLast?_concat]; rfl)
  rw [Known.inks_append, Text.inks, Text.inks]
  simp [isSpace_eq_false hc]

namespace Known

/-- Texts are all on the current line. -/
theorem after_texts {is : List Item} (h : ∀ i ∈ is, ∃ t, i = .text t) (k : Known)
    (hinks : Text.inks (is.flatMap Item.flat) = true) :
    (k.after is).full = true ∧ (k.after is).started = true := by
  suffices (k.after is).full = (k.full || Text.inks (is.flatMap Item.flat)) ∧
      (k.after is).started = (k.started || Text.inks (is.flatMap Item.flat)) by
    rw [this.1, this.2, hinks, Bool.or_true, Bool.or_true]
    exact ⟨rfl, rfl⟩
  clear hinks
  induction is generalizing k with
  | nil => simp [after, Text.inks]
  | cons i is ih =>
    rw [List.forall_mem_cons] at h
    obtain ⟨⟨t, rfl⟩, h⟩ := h
    obtain ⟨hfull, hstarted⟩ := ih h (k.next (.text t))
    rw [after_cons, hfull, hstarted, List.flatMap_cons, inks_append, ← Bool.or_assoc,
      ← Bool.or_assoc]
    exact ⟨rfl, rfl⟩

/-- Lines, each behind a literal break. -/
def rows (ls : List Text) : List Item := ls.flatMap fun l => .line .literal :: (Doc.ofText l).items

theorem shown_ofText {k : Known} (h : k.line = some []) (l : Text) :
    k.shown (Doc.ofText l).items = [l] := by
  rw [Doc.items_ofText]
  by_cases hl : l = []
  · simp [hl, Doc.items_text_nil, shown, lines, after, h]
  · simp [Doc.items_text hl, shown, lines, after, ended, next, h]

theorem rows_concat (ls : List Text) (l : Text) :
    rows (ls ++ [l]) = rows ls ++ .line .literal :: (Doc.ofText l).items := by
  rw [rows, rows, List.flatMap_append, List.flatMap_singleton]

/-- Each line is ended by the next one. -/
theorem sublist_shown_rows {k : Known} (hk : k.started = true) (ls : List Text) :
    ls.Sublist (k.shown (rows ls)) := by
  have h : (k.line.toList ++ ls.flatMap fun l => [l]).Sublist (k.shown (rows ls)) :=
    sublist_shown (fun l _ j hj => by rw [shown_ofText hj]) hk
  rw [List.flatMap_singleton'] at h
  exact (List.sublist_append_right _ _).trans h

/-- What is known behind the last of the lines. -/
theorem after_rows_concat (k : Known) (ls : List Text) (l : Text) :
    (k.after (rows (ls ++ [l]))).full = l.inks ∧
      (k.after (rows (ls ++ [l]))).backed = (k.after (rows ls)).full := by
  rw [rows_concat, after_append, after_cons, Doc.items_ofText]
  by_cases hl : l = []
  · simp [hl, Doc.items_text_nil, after, next, Line.isForced, Text.inks]
  · simp [Doc.items_text hl, after, next, Line.isForced]

end Known

namespace Printer

theorem items_ignoredRegion (start : Doc) (body : Text) (stop : Doc) :
    (ignoredRegion start body stop).items = start.items.flatMap Doc.Item.onLine ++
      (Known.rows (ignoredLines body) ++ .line .hard :: stop.items) := by
  rw [ignoredRegion, Doc.items_join, List.flatMap_append, List.flatMap_cons, Doc.items_removeLines,
    List.flatMap_assoc, List.append_assoc]
  simp [Known.rows, Doc.hardline]

/-- **The lines of a region are kept**, whatever stands before it. -/
theorem sure_ignoredRegion {start : Doc} (hstart : Text.inks start.flat = true) (body : Text)
    (stop : Doc) : Sure (regionLines body) (ignoredRegion start body stop).items := by
  intro k
  have htexts : ∀ i ∈ start.items.flatMap Doc.Item.onLine, ∃ t, i = .text t := by
    intro i hi
    obtain ⟨j, -, hj⟩ := List.mem_flatMap.mp hi
    cases j with
    | text t => exact ⟨t, List.mem_singleton.mp hj⟩
    | line kind =>
      cases kind with
      | soft => exact absurd hj List.not_mem_nil
      | _ => exact ⟨_, List.mem_singleton.mp hj⟩
  have hflat : (start.items.flatMap Doc.Item.onLine).flatMap Item.flat = start.flat := by
    rw [← Doc.items_removeLines, ← Doc.flat_removeLines, Doc.flat]
  obtain ⟨hfull, hstarted⟩ := Known.after_texts htexts k (hflat ▸ hstart)
  rw [items_ignoredRegion, Known.lines_append]
  refine List.Sublist.trans ?_ (List.sublist_append_right _ _)
  generalize k.after (start.items.flatMap Doc.Item.onLine) = j at hfull hstarted
  have hinks : ∀ l ∈ ignoredLines body, l ≠ [] → l.inks = true :=
    fun l hl hne => inks_of_trimEnd (trimEnd_of_mem_ignoredLines hl) hne
  rw [regionLines]
  generalize ignoredLines body = ls at hinks
  rcases List.eq_nil_or_concat ls with rfl | ⟨init, l, rfl⟩
  · exact List.nil_sublist _
  · rw [List.concat_eq_append] at hinks ⊢
    obtain ⟨hlast, hbacked⟩ := Known.after_rows_concat j init l
    split
    · -- the last line may be left out, but it ends the line before it
      rw [List.dropLast_concat, Known.rows_concat, List.append_assoc, List.cons_append]
      exact (Known.sublist_shown_rows hstarted init).trans
        (Known.shown_sublist_literal hstarted _ _)
    · rename_i hblank
      refine (Known.sublist_shown_rows hstarted _).trans (Known.shown_sublist_hard ?_ _)
      rw [hlast, hbacked]
      by_cases hl : l = []
      · refine .inr ?_
        rcases List.eq_nil_or_concat init with rfl | ⟨init, m, rfl⟩
        · exact hfull
        · rw [List.concat_eq_append] at hinks hblank ⊢
          rw [(Known.after_rows_concat j init m).1]
          refine hinks m (by simp) fun hm => hblank ?_
          rw [Render.two_blanks_suffix, hm, List.getLast?_concat]
          exact ⟨rfl, hl⟩
      · exact .inl (hinks l (by simp) hl)

/-! ## Nodes -/

/-- **The slots of a text keep their lines** where they are spliced. -/
theorem sure_splicedText {kept : Nat → List Text} {docs : List Doc}
    (h : ∀ i, Sure (kept i) (docs.getD i .empty).items) (keys : List Text) (t : Text) :
    Sure (((Splice.pieces keys t).filterMap Splice.Piece.index?).flatMap kept)
      (splicedText keys docs t).items := by
  rw [splicedText, Doc.items_join, List.flatMap_map, List.filterMap_eq_flatMap_toList,
    List.flatMap_assoc]
  refine Sure.flatMap fun piece _ => ?_
  cases piece with
  | literal t => exact .nil _
  | slot i =>
    show Sure ([i].flatMap kept) _
    rw [List.flatMap_singleton]
    exact h i

/-- The slots of a document keep their lines. -/
theorem sure_spliced {kept : Nat → List Text} {docs : List Doc}
    (h : ∀ i, Sure (kept i) (docs.getD i .empty).items) (keys : List Text) (doc : Doc) :
    Sure ((Splice.found keys doc).flatMap kept) (doc.mapText (splicedText keys docs)).items := by
  rw [Splice.found_eq_flatMap, Doc.items_mapText (items_splicedText_nil keys docs),
    List.flatMap_assoc]
  refine Sure.flatMap fun item _ => ?_
  cases item with
  | text t => exact sure_splicedText h keys t
  | line kind => exact .nil _

variable {p : Printer σ}

theorem inks_of_solid {t : Text} (h : Text.solid t ≠ []) : t.inks = true := by
  obtain ⟨c, hc⟩ := List.exists_mem_of_ne_nil _ h
  obtain ⟨hmem, hblank⟩ := List.mem_filter.mp hc
  exact List.any_eq_true.mpr ⟨c, hmem, by simp [isSpace_eq_false (by simpa using hblank)]⟩

/-- The body of a block between its actions. -/
theorem items_blockBody (keyword : Keyword) (edges : Line × Doc × Line) (start stop : Doc) :
    ∃ a b, (blockBody keyword edges start stop).items = a ++ (edges.2.1.items ++ b) := by
  obtain ⟨leading, body, trailing⟩ := edges
  unfold blockBody
  by_cases hempty : body.isEmpty = true
  · refine ⟨start.items, .line trailing :: stop.items, ?_⟩
    simp [hempty, (Doc.isEmpty_iff_items body).mp hempty]
  · refine ⟨start.items ++ [.line leading], .line trailing :: stop.items, ?_⟩
    by_cases hdefine : keyword = .defineKw <;> simp [hempty, hdefine]

theorem items_blockGroup (p : Printer σ) (info : Info) (frame : Frame) (content : Text) (d : Doc) :
    ∃ b, (p.blockGroup info frame content d).items = d.items ++ b := by
  unfold blockGroup
  split
  · exact ⟨[], (List.append_nil _).symm⟩
  · exact ⟨_, by rw [Doc.items_join, List.flatMap_cons, Doc.items_group]⟩

/-- The kept lines of the children are in the body of their block. -/
theorem sure_bodyParts {c : Container} {docs : List Doc} (hc : c.Stands source)
    (hdocs : ∀ i, Sure (c.childLines i) (docs.getD i .empty).items) :
    Sure (Node.keptLinesAll c.children)
      (bodyParts (Placeholder.stem source) c docs).2.1.items := by
  unfold bodyParts
  split
  · rename_i hblank
    rw [Container.children_eq_nil hblank, Node.keptLinesAll]
    exact .nil _
  · obtain ⟨a, b, hlines, hitems⟩ :=
      items_splitEdges (containerDoc (Placeholder.stem source) true c docs)
    refine Sure.of_normals hlines (hitems ▸ ?_)
    rw [← c.flatMap_childLines, ← found_container hc true]
    exact sure_spliced hdocs _ _

/-- **The kept lines of a block** are in its document. -/
theorem sure_blockDoc {info : Info} {frame : Frame} {children : List Node} {docs : List Doc}
    (hstem : p.stem = Placeholder.stem source) (h : (Node.block info frame children).Stands source)
    (hdocs : ∀ i, Sure ((Container.ofBlock info frame children).childLines i)
      (docs.getD i .empty).items) :
    Sure (Node.keptLines (.block info frame children))
      (p.blockDoc info frame children docs).items := by
  have hbody := sure_bodyParts (Container.stands_ofBlock h) hdocs
  obtain ⟨pre, post, -, -, hstart, -⟩ := h
  rw [Node.keptLines, blockDoc]
  split
  · exact .nil _
  · split
    · have hinks : Text.inks (p.edge frame.start).flat = true := by
        refine inks_of_solid ?_
        rw [solid_edge p hstart]
        exact (framed_isAction hstart.2).ne_nil
      rw [Doc.items_join, List.flatMap_cons]
      exact (sure_ignoredRegion hinks _ _).right _
    · rw [← hstem] at hbody
      obtain ⟨a, b, hitems⟩ := items_blockBody frame.keyword
        (bodyParts p.stem (.ofBlock info frame children) docs) (p.edge frame.start)
          (p.stopDoc frame.stop)
      obtain ⟨e, hgroup⟩ := items_blockGroup p info frame (frame.content children)
        (blockBody frame.keyword (bodyParts p.stem (.ofBlock info frame children) docs)
          (p.edge frame.start) (p.stopDoc frame.stop))
      rw [hgroup, hitems]
      exact ((hbody.right b).left a).right e

mutual

/-- **The kept lines of a node** are in its document, by induction on the node. -/
theorem sure_node (hp : p.Serves source) : ∀ {n : Node}, n.Stands source →
    Sure n.keptLines (p.nodeDoc n).items
  | .action info text act, _ => by
    rw [Node.keptLines]
    exact .nil _
  | .raw info text, _ => by
    rw [Node.keptLines]
    exact .nil _
  | .block info frame children, h => by
    rw [nodeDoc]
    refine sure_blockDoc hp.stem_eq h fun i => ?_
    exact sure_child hp i fun n hn => ((Container.stands_ofBlock h).children n hn).1
  | .chain info branches, h => by
    rw [nodeDoc, chainDoc, Node.keptLines]
    split
    · exact .nil _
    · rw [chain, Doc.items_join, List.flatMap_cons, Doc.items_group, Doc.items_join]
      exact (sure_nodes hp h.branches).right _

/-- The kept lines of siblings are in their documents. -/
theorem sure_nodes (hp : p.Serves source) : ∀ {ns : List Node}, (∀ n ∈ ns, n.Stands source) →
    Sure (Node.keptLinesAll ns) ((p.nodeDocs ns).flatMap Doc.items)
  | [], _ => by
    rw [Node.keptLinesAll]
    exact .nil _
  | n :: ns, h => by
    rw [Node.keptLinesAll, nodeDocs, List.flatMap_cons]
    exact (sure_node hp (h n List.mem_cons_self)).append
      (sure_nodes hp fun m hm => h m (List.mem_cons_of_mem n hm))

/-- The same for the sibling with a number. -/
theorem sure_child (hp : p.Serves source) : ∀ {ns : List Node} (i : Nat),
    (∀ n ∈ ns, n.Stands source) →
      Sure ((ns[i]?.map Node.keptLines).getD []) ((p.nodeDocs ns).getD i .empty).items
  | [], _, _ => .nil _
  | n :: ns, 0, h => by
    rw [nodeDocs, List.getD_cons_zero]
    exact sure_node hp (h n List.mem_cons_self)
  | n :: ns, i + 1, h => by
    rw [nodeDocs, List.getD_cons_succ, List.getElem?_cons_succ]
    exact sure_child hp i fun m hm => h m (List.mem_cons_of_mem n hm)

end

end Printer

/-! ## Contents -/

namespace Container

open Placeholder (stem)

variable {c : Container} {docs : List Doc}

/-- **The lines of a content without nodes** are lines of its text, in their order. -/
theorem plainLines_sublist (c : Container) :
    ((c.word.lines.filter fun l => l.slots = []).map (Word.restore c.childText)).Sublist
      (Text.lines c.text) := by
  rw [← c.restore_childText, Word.lines_restore]
  exact Word.plain_sublist c.childText Word.newline_notMem_lines

/-- What is spliced into a part of the content without slots. -/
theorem items_splicedText (hc : c.Stands source) {t : Text} (ht : ofText t <:+: c.word) :
    (splicedText (c.keys (stem source)) docs t).items = (Doc.ofText t).items := by
  have hpieces := Splice.pieces_spell hc.isKeys (hc.fresh.of_isInfix ht)
    ((c.within_keys _).of_isInfix ht)
  rw [Word.spell, Word.restore_ofText] at hpieces
  rw [splicedText, hpieces]
  by_cases hnil : t = []
  · rw [hnil]
    rfl
  · rw [Word.group_ofText hnil, List.map_singleton, Doc.items_join, List.flatMap_singleton]
    rfl

theorem items_line (hc : c.Stands source) {t : Text} (hne : t ≠ [])
    (ht : ofText t ∈ c.word.lines) :
    (splicedText (c.keys (stem source)) docs t).items = [.text t] := by
  rw [items_splicedText hc (Word.isInfix_of_mem_lines ht), Doc.items_ofText, Doc.items_text hne]

/-- **What is kept of a line is shown** behind a literal break. -/
theorem keptOf_sublist_shown (hc : c.Stands source)
    (hdocs : ∀ i, Sure (c.childLines i) (docs.getD i .empty).items) {l : Word} (hl : l <:+: c.word)
    {k : Known} (hk : k.line = some []) :
    (c.keptOf l).Sublist (k.shown (splicedText (c.keys (stem source)) docs
      (Text.trimEnd (l.spell (c.keys (stem source))))).items) := by
  have hwithin := (c.within_keys (stem source)).of_isInfix hl
  obtain ⟨v, b, rfl, hspell⟩ := Splice.exists_trimEnd hc.isKeys hwithin
  have hv : v <:+: c.word := (List.prefix_append ..).isInfix.trans hl
  rw [keptOf, Word.slots_append, Word.slots_ofText, List.append_nil, ← hspell]
  split
  · rename_i hslots
    obtain ⟨t, rfl⟩ := Word.exists_ofText hslots
    rw [Word.spell, Word.spell, Word.restore_append, Word.restore_ofText,
      Word.restore_ofText] at hspell
    rw [Word.restore_append, Word.restore_ofText, Word.restore_ofText, Word.spell,
      Word.restore_ofText, items_splicedText hc hv, Known.shown_ofText hk, ← hspell]
  · have hsure := Printer.sure_splicedText hdocs (c.keys (stem source))
      (v.spell (c.keys (stem source)))
    rw [Splice.pieces_spell hc.isKeys (hc.fresh.of_isInfix hv)
      (hwithin.of_isInfix (List.prefix_append ..).isInfix), Word.index?_group] at hsure
    exact (hsure k).trans (List.sublist_append_left _ _)

end Container

end TemplateFormat
