import TemplateFormat.Proofs.Doc.Within
import TemplateFormat.Proofs.Print.Visits
import TemplateFormat.Proofs.Structure

/-!
# Regions that are kept as written

A raw region and an ignored node are printed with the lines they have in the source
(`Printer.nodeDoc_of_isKept`). What encloses them builds its document around that part: it is
spliced into a text of the markup, put between the actions of a block, or joined to other branches,
and at each of these steps it stays a part of what is printed (`Printer.Shown`). So the renderer
comes to it, and prints every line of it.

Results:
* `within_containerDoc`, `within_blockDoc`, `within_chainDoc`: a part of a child is a part of what
  encloses it.
* `shown_of_reached`: a part of anything that is reached is a part of the whole document.
* `format_keeps_regions`: the lines of every region that is kept are in the output, one after the
  other.
-/

namespace TemplateFormat

open Doc (Within)
open Render (EndsFull verbatimLines)

variable {σ : Type} {source : Text}

/-! ## Parts that no step takes apart -/

/-- The document prints something, and taking line breaks off its ends changes nothing. -/
structure Doc.Firm (d : Doc) : Prop where
  shown : d.isEmpty = false
  ne_line : d ≠ .line .normal
  edges : (Printer.splitEdges d).2.1 = d

theorem Doc.Within.isLine_eq_false {d e : Doc} (hd : d.Firm) (h : Within d e) :
    e.isLine .normal = false := by
  by_contra hline
  rw [Bool.not_eq_false] at hline
  obtain rfl := Doc.eq_line_of_isLine hline
  cases h
  exact hd.ne_line rfl

/-- A document that is no line break stays if one is taken off the start. -/
theorem mem_tail_of_mem {e : Doc} {ds : List Doc} (he : e ∈ ds) (hline : e.isLine .normal = false) :
    e ∈ if ds.head?.any (Doc.isLine .normal) then ds.tail else ds := by
  cases ds with
  | nil => exact absurd he List.not_mem_nil
  | cons d ds =>
    split
    · rename_i h
      rcases List.mem_cons.mp he with rfl | he
      · exact absurd h (by simp [hline])
      · exact he
    · exact he

/-- A document that is no line break stays if one is taken off the end. -/
theorem mem_dropLast_of_mem {e : Doc} {ds : List Doc} (he : e ∈ ds)
    (hline : e.isLine .normal = false) :
    e ∈ if ds.getLast?.any (Doc.isLine .normal) then ds.dropLast else ds := by
  split
  · rename_i h
    obtain ⟨d, hd, hlast⟩ := (Option.any_eq_true ..).mp h
    rw [← List.dropLast_append_getLast? d hd, List.mem_append, List.mem_singleton] at he
    rcases he with he | rfl
    · exact he
    · exact absurd hlast (by simp [hline])
  · exact he

namespace Printer

variable {d : Doc}

/-- **A firm part of a body stays a part** without the line breaks at the ends of the body. -/
theorem within_splitEdges {e : Doc} (hd : d.Firm) (h : Within d e) :
    Within d (splitEdges e).2.1 := by
  cases h with
  | refl =>
    rw [hd.edges]
    exact .refl
  | concat he h =>
    have hline := h.isLine_eq_false hd
    exact h.join hd.shown (mem_dropLast_of_mem (mem_tail_of_mem he hline) hline)
  | indent h => exact .indent h
  | group h => exact .group h

/-! ## Containers -/

variable {c : Container} {docs : List Doc}

/-- A part of the document of a slot is a part of every text that has the slot. -/
theorem within_splicedText (hd : d.isEmpty = false) {keys : List Text} {i : Nat} {t : Text}
    (hi : Splice.Piece.slot i ∈ Splice.pieces keys t) (h : Within d (docs.getD i .empty)) :
    Within d (splicedText keys docs t) :=
  h.join hd (List.mem_map_of_mem hi)

/-- **A part of the document of a child is a part of the container**: the placeholder of the child
is in some text of the formatted content. -/
theorem within_containerDoc (hd : d.isEmpty = false) (hc : c.Stands source) (embedded : Bool)
    {i : Nat} (hi : i < c.children.length) (h : Within d (docs.getD i .empty)) :
    Within d (containerDoc (Placeholder.stem source) embedded c docs) := by
  have hmem : i ∈ Splice.found (c.keys (Placeholder.stem source))
      (Markup.Html.format embedded
        (c.aliased (Placeholder.stem source))).stripHardline.mergeText := by
    rw [found_container hc embedded]
    exact List.mem_range.mpr hi
  obtain ⟨piece, hpiece, hindex⟩ := List.mem_filterMap.mp hmem
  obtain ⟨t, ht, hpiece⟩ := List.mem_flatMap.mp hpiece
  obtain rfl : piece = .slot i := by
    cases piece with
    | literal t => exact absurd hindex (by simp [Splice.Piece.index?])
    | slot j => exact congrArg _ (Option.some.inj hindex)
  exact Within.mapText (within_splicedText hd hpiece h) _ ht

theorem within_bodyParts (hd : d.Firm) (hc : c.Stands source) {i : Nat}
    (hi : i < c.children.length) (h : Within d (docs.getD i .empty)) :
    Within d (bodyParts (Placeholder.stem source) c docs).2.1 := by
  unfold bodyParts
  split
  · rename_i hblank
    have hnil := Container.children_eq_nil hblank
    rw [hnil] at hi
    exact absurd hi (Nat.not_lt_zero i)
  · exact within_splitEdges hd (within_containerDoc hd.shown hc true hi h)

theorem within_blockBody (hd : d.isEmpty = false) (keyword : Keyword) (start stop : Doc)
    {edges : Line × Doc × Line} (h : Within d edges.2.1) :
    Within d (blockBody keyword edges start stop) := by
  obtain ⟨leading, body, trailing⟩ := edges
  have hinner : Within d (.join [.line leading, body]) := h.join hd (by simp)
  have hbody : body.isEmpty = false := h.isEmpty_eq_false hd
  unfold blockBody
  refine Within.join hd (e := if keyword = .defineKw then .join [.line leading, body]
    else .nest (.join [.line leading, body])) (by simp [hbody]) ?_
  split
  · exact hinner
  · exact hinner.nest hd

/-! ## Nodes -/

variable {p : Printer σ}

theorem nodeDocs_eq_map (p : Printer σ) (ns : List Node) : p.nodeDocs ns = ns.map p.nodeDoc := by
  induction ns with
  | nil => rw [nodeDocs, List.map_nil]
  | cons n ns ih => rw [nodeDocs, ih, List.map_cons]

/-- The place of a child, and its document there. -/
theorem getD_nodeDocs {ns : List Node} {n : Node} (h : n ∈ ns) :
    ∃ i < ns.length, (p.nodeDocs ns).getD i .empty = p.nodeDoc n := by
  obtain ⟨i, hi, rfl⟩ := List.getElem_of_mem h
  refine ⟨i, hi, ?_⟩
  rw [nodeDocs_eq_map, List.getD_eq_getElem _ _ (by rwa [List.length_map]), List.getElem_map]

/-- A part of a child is a part of its block, unless the block is kept as written. -/
theorem within_blockDoc (hp : p.Serves source) (hd : d.Firm) {info : Info} {frame : Frame}
    {children : List Node} (hs : (Node.block info frame children).Stands source)
    (hignored : info.ignored = false) (hkeyword : frame.keyword ≠ .ignoreStartKw) {n : Node}
    (hn : n ∈ children) (h : Within d (p.nodeDoc n)) :
    Within d (p.nodeDoc (.block info frame children)) := by
  have hc := Container.stands_ofBlock hs
  obtain ⟨i, hi, hdoc⟩ := getD_nodeDocs (p := p) hn
  rw [← hdoc] at h
  have hbody := within_blockBody hd.shown frame.keyword (p.edge frame.start)
    (p.stopDoc frame.stop) (within_bodyParts hd hc hi h)
  rw [nodeDoc, blockDoc_of_plain p _ _ hignored hkeyword, blockGroup, hp.stem_eq]
  split
  · exact hbody
  · exact (Within.group hbody).join hd.shown List.mem_cons_self

/-- A part of a branch is a part of its chain, unless the chain is kept as written. -/
theorem within_chainDoc (hd : d.isEmpty = false) {info : Info} {branches : List Node}
    (hignored : info.ignored = false) {n : Node} (hn : n ∈ branches)
    (h : Within d (p.nodeDoc n)) : Within d (p.nodeDoc (.chain info branches)) := by
  have hmem : p.nodeDoc n ∈ p.nodeDocs branches := by
    rw [nodeDocs_eq_map]
    exact List.mem_map_of_mem hn
  rw [nodeDoc, chainDoc_of_plain p _ _ hignored, Printer.chain]
  exact (Within.group (h.join hd hmem)).join hd List.mem_cons_self

/-- A part of a top node is a part of the whole document. -/
theorem within_treeDoc (hp : p.Serves source) (hd : d.isEmpty = false) {tree : Tree}
    (ht : tree.Placed source) {n : Node} (hn : n ∈ tree.children) (h : Within d (p.nodeDoc n)) :
    Within d (p.treeDoc tree) := by
  have hc := Container.stands_ofTree ht
  obtain ⟨i, hi, hdoc⟩ := getD_nodeDocs (p := p) hn
  rw [← hdoc] at h
  rw [treeDoc, hp.stem_eq]
  exact (within_containerDoc hd hc false hi h).join hd List.mem_cons_self

/-- What is known of an entry that is reached: a node stands in the source, and its firm parts are
parts of the whole document. -/
def Shown (p : Printer σ) (source : Text) (tree : Tree) : Entry → Prop
  | .root t => t = tree
  | .node n => n.Stands source ∧
      ∀ d : Doc, d.Firm → Within d (p.nodeDoc n) → Within d (p.treeDoc tree)
  | .edge _ _ => True

/-- Printing goes from what is shown to what is shown. -/
theorem shown_next (hp : p.Serves source) {tree : Tree} (ht : tree.Placed source) {e e' : Entry}
    (h : p.Shown source tree e) (he : e' ∈ e.next) : p.Shown source tree e' := by
  match e, h, he with
  | .root t, h, he =>
    obtain ⟨n, hn, rfl⟩ := List.mem_map.mp he
    rw [show t = tree from h] at hn
    exact ⟨((Container.stands_ofTree ht).children n hn).1,
      fun d hd hw => within_treeDoc hp hd.shown ht hn hw⟩
  | .node (.block info frame children), h, he =>
    by_cases hignored : info.ignored = true
    · simp [Entry.next, hignored] at he
    · rw [Entry.next, if_neg hignored, List.mem_cons, List.mem_append] at he
      rcases he with rfl | he | he
      · trivial
      · by_cases hkeyword : frame.keyword = .ignoreStartKw
        · simp [hkeyword] at he
        · rw [if_neg hkeyword] at he
          obtain ⟨n, hn, rfl⟩ := List.mem_map.mp he
          exact ⟨((Container.stands_ofBlock h.1).children n hn).1, fun d hd hw => h.2 d hd
            (within_blockDoc hp hd h.1 (by simpa using hignored) hkeyword hn hw)⟩
      · obtain ⟨l, -, rfl⟩ := Option.map_eq_some_iff.mp (Option.mem_toList.mp he)
        trivial
  | .node (.chain info branches), h, he =>
    by_cases hignored : info.ignored = true
    · simp [Entry.next, hignored] at he
    · rw [Entry.next, if_neg hignored] at he
      obtain ⟨n, hn, rfl⟩ := List.mem_map.mp he
      exact ⟨h.1.branches n hn, fun d hd hw => h.2 d hd
        (within_chainDoc hd.shown (by simpa using hignored) hn hw)⟩
  | .node (.action _ _ _), _, he => simp [Entry.next] at he
  | .node (.raw _ _), _, he => simp [Entry.next] at he
  | .edge _ _, _, he => simp [Entry.next] at he

/-- **Everything that is reached is shown**, by induction on the moves from the root. -/
theorem shown_of_reached (hp : p.Serves source) {tree : Tree} (ht : tree.Placed source) {e : Entry}
    (h : tree.Reached e) : p.Shown source tree e := by
  induction h with
  | refl => rfl
  | tail _ he ih => exact shown_next hp ht ih he

end Printer

/-! ## Regions in the source -/

/-- The node is kept as written: a raw region, or an ignored node. -/
def Node.isKept : Node → Bool
  | .raw _ _ => true
  | n => n.info.ignored

/-- The line of the source on which a span starts. -/
def Span.line (s : Span) (source : Text) : Text :=
  Text.lastLine (s.before source) ++ Text.firstLine (Text.dropBytes s.index source)

/-- A region of the source with its lines in the output: without white space at their ends, and all
but the first moved from an indentation by `width` characters to one by `level` levels. -/
def Page.region (page : Page) (level width : Nat) (text : Text) : Text :=
  match (Text.lines text).map Text.trimEnd with
  | [] => []
  | first :: rest => first ++ verbatimLines page level (rest.map (dedent width))

theorem Text.endsFull_trimEnd (t : Text) : EndsFull (trimEnd t) :=
  fun c hc => isSpace_eq_false (last_trimEnd t c hc)

theorem endsFull_dedent {t : Text} (h : EndsFull t) (width : Nat) : EndsFull (dedent width t) := by
  intro c hc
  obtain ⟨s, hs⟩ := dedent_suffix width t
  have hne : dedent width t ≠ [] := by
    rintro hnil
    rw [hnil] at hc
    exact absurd hc (by simp)
  refine h c ?_
  rw [← hs, List.getLast?_append_of_ne_nil _ hne]
  exact hc

namespace Node

theorem head_isAction {t : Text} {act : Action} (h : IsAction t act) : openBraces <+: t := by
  obtain ⟨inner, rfl, -⟩ := h
  rw [List.append_assoc]
  exact List.prefix_append ..

theorem head_block {offset : Nat} {info : Info} {frame : Frame} {children : List Node}
    (h : (block info frame children).Placed offset) :
    openBraces <+: (block info frame children).text := by
  rw [text, List.append_assoc, List.append_assoc]
  exact (head_isAction h.2.1.2).trans (List.prefix_append ..)

/-- A node starts with braces, if it is not a raw region. -/
theorem head_braces {offset : Nat} {n : Node} (h : n.Placed offset) :
    openBraces <+: n.text ∨ IsRaw n.text := by
  cases n with
  | action info t act =>
    rw [text]
    exact .inl (head_isAction h.2)
  | raw info t =>
    rw [text]
    exact .inr h.2
  | block info frame children => exact .inl (head_block h)
  | chain info branches =>
    obtain ⟨-, hplaced, hbranches⟩ := h
    obtain ⟨init, last, hlast, -⟩ := hbranches.closed
    cases branches with
    | nil => exact absurd hlast (by simp)
    | cons first branches =>
      have hjoined := hbranches.joined first List.mem_cons_self
      have hfirst := hplaced.1
      obtain ⟨info', frame, children, rfl, hlead⟩ := hjoined.eq_block
      rw [text, spellAll, hjoined.lead_eq, List.nil_append]
      exact .inl ((head_block hfirst).trans (List.prefix_append ..))

/-- No node starts with white space. -/
theorem head_text {offset : Nat} {n : Node} (h : n.Placed offset) :
    ∃ c rest, n.text = c :: rest ∧ isBlank c = false := by
  rcases head_braces h with ⟨rest, hrest⟩ | ⟨name, -, ⟨rest, hrest⟩, -⟩
  · exact ⟨'{', _, hrest.symm, by decide⟩
  · exact ⟨'<', _, hrest.symm, by decide⟩

end Node

theorem Node.Stands.head_text {n : Node} (h : n.Stands source) :
    ∃ c rest, n.text = c :: rest ∧ isBlank c = false := by
  obtain ⟨pre, post, -, hplaced⟩ := h
  exact Node.head_text hplaced

/-- The indentation of the line on which a node starts is what stands before the node. -/
theorem indentation_line {n : Node} (h : n.Stands source) :
    (n.info.span.line source).takeWhile isSpace =
      (Text.lastLine (n.info.span.before source)).takeWhile isSpace := by
  obtain ⟨pre, post, rfl, hplaced⟩ := h
  obtain ⟨c, rest, htext, hblank⟩ := Node.head_text hplaced
  have hspace : isSpace c = false := isSpace_eq_false hblank
  have hline : c ≠ '\n' := by
    rintro rfl
    exact absurd hblank (by decide)
  rw [Span.line, hplaced.span_eq, Text.dropBytes_append, htext, List.cons_append, Text.firstLine,
    List.takeWhile_cons_of_pos (by simpa using hline), List.takeWhile_append]
  split
  · rename_i hlength
    rw [List.takeWhile_cons_of_neg (by simp [hspace]), List.append_nil]
    exact ((List.takeWhile_prefix _).eq_of_length hlength).symm
  · rfl

namespace Printer

variable {p : Printer σ}

/-- What a node that is kept as written is printed as. -/
theorem nodeDoc_of_isKept {n : Node} (h : n.isKept = true) :
    p.nodeDoc n = p.keptAt n.info.span n.text := by
  cases n with
  | raw info t => rw [nodeDoc, Node.text, Node.info]
  | action info t act =>
    rw [nodeDoc, if_pos (show info.ignored = true from h), Node.text, Node.info]
  | block info frame children =>
    rw [nodeDoc, blockDoc, if_pos (show info.ignored = true from h), Node.info]
  | chain info branches =>
    rw [nodeDoc, chainDoc, if_pos (show info.ignored = true from h), Node.info]

end Printer

/-- The first line of a text that does not start with white space is not empty. -/
theorem exists_lines_cons {c : Char} {t : Text} (hc : isBlank c = false) : ∃ first rest,
    Text.lines (c :: t) = (c :: first) :: rest ∧ Text.trimEnd (c :: first) ≠ [] := by
  obtain ⟨first, rest, hlines⟩ := List.exists_cons_of_ne_nil (Text.lines_ne_nil t)
  have hline : c ≠ '\n' := by
    rintro rfl
    exact absurd hc (by decide)
  refine ⟨first, rest, Text.lines_cons hline hlines, fun hnil => ?_⟩
  have hsolid := Text.solid_trimEnd (c :: first)
  rw [hnil, Text.solid_cons_of_not_blank hc] at hsolid
  exact absurd hsolid (by simp)

/-- What is printed for source text that does not start with white space. -/
theorem verbatim_eq_linesDoc (before : Text) {text first : Text} {rest : List Text}
    (hlines : Text.lines text = first :: rest) (hne : Text.trimEnd first ≠ []) :
    verbatim before text = Doc.linesDoc (Text.trimEnd first) ((rest.map Text.trimEnd).map
      (dedent ((Text.lastLine before).takeWhile isSpace).length)) := by
  unfold verbatim
  simp only [hlines]
  rw [Doc.linesDoc, Doc.ofText, if_neg (by simpa using hne), Render.verbatimDocs, List.map_map,
    List.flatMap_map]
  rfl

theorem isLine_verbatimDocs {ts : List Text} {d : Doc} (h : d ∈ Render.verbatimDocs ts) :
    d.isLine .normal = false := by
  obtain ⟨t, -, ht⟩ := List.mem_flatMap.mp h
  rcases List.mem_cons.mp ht with rfl | ht
  · rfl
  · rw [List.mem_singleton.mp ht, Doc.ofText]
    split <;> rfl

/-- Taking line breaks off the ends of documents that are none leaves all of them. -/
theorem Printer.splitEdges_concat {ds : List Doc} (h : ∀ d ∈ ds, d.isLine .normal = false) :
    (splitEdges (.concat ds)).2.1 = .join ds := by
  have hhead : ds.head?.any (Doc.isLine .normal) = false := by
    rw [Option.any_eq_false]
    exact fun d hd => by simp [h d (List.mem_of_mem_head? hd)]
  have hlast : ds.getLast?.any (Doc.isLine .normal) = false := by
    rw [Option.any_eq_false]
    exact fun d hd => by simp [h d (List.mem_of_getLast? hd)]
  simp [splitEdges, hhead, hlast]

/-- Lines after a text that is not empty are firm: there is no line break to take off their ends. -/
theorem firm_linesDoc {first : Text} (hne : first ≠ []) (ts : List Text) :
    (Doc.linesDoc first ts).Firm := by
  have htext : (Doc.text first).isEmpty = false := by simpa [Doc.isEmpty] using hne
  have hwithin : Within (.text first) (Doc.linesDoc first ts) :=
    Within.refl.join htext List.mem_cons_self
  refine ⟨hwithin.isEmpty_eq_false htext, fun hline => ?_, ?_⟩
  · rw [hline] at hwithin
    cases hwithin
  · have hlines : ∀ d ∈ (Doc.text first :: Render.verbatimDocs ts).filter fun d => !d.isEmpty,
        d.isLine .normal = false := by
      intro d hd
      rcases List.mem_cons.mp (List.mem_of_mem_filter hd) with rfl | hd
      · rfl
      · exact isLine_verbatimDocs hd
    have hjoin := Printer.splitEdges_concat hlines
    unfold Doc.linesDoc Doc.join at hjoin ⊢
    rw [List.filter_filter] at hjoin
    simp only [Bool.and_self] at hjoin
    rw [List.filter_cons_of_pos (by simp [htext])] at hjoin ⊢
    cases hrest : (Render.verbatimDocs ts).filter fun d => !d.isEmpty with
    | nil => rfl
    | cons d ds =>
      rw [hrest] at hjoin
      exact hjoin

/-- **Regions that are kept survive formatting line by line.** For every raw region and every
ignored node that is reached from the root, the output has its lines one after the other, at some
indentation: none is dropped, and only white space at the ends of the lines is lost. -/
theorem format_keeps_regions {settings : Settings} {source out : Text}
    (h : format settings source = .ok out) : ∃ tree, parse source = .ok tree ∧
      ∀ n, tree.Reached (.node n) → n.isKept = true → ∃ level,
        settings.toPage.region level
            ((n.info.span.line source).takeWhile isSpace).length (n.info.span.slice source) <:+:
          out := by
  obtain ⟨tree, hparse, rfl⟩ := exists_parse_of_format h
  refine ⟨tree, hparse, fun n hreached hkept => ?_⟩
  have hplaced := parse_placed hparse
  obtain ⟨hstands, hshown⟩ := Printer.shown_of_reached
    (p := Printer.ofTree tree settings (Markup.html (σ := Unit))) ⟨hplaced.stem_eq, rfl⟩ hplaced
    hreached
  obtain ⟨c, t, htext, hblank⟩ := hstands.head_text
  obtain ⟨first, rest, hlines, hne⟩ := exists_lines_cons (t := t) hblank
  have hslice : n.info.span.slice source = c :: t := hstands.slice.trans htext
  have hverbatim := verbatim_eq_linesDoc (n.info.span.before source) hlines hne
  rw [← indentation_line hstands] at hverbatim
  have hfirm := firm_linesDoc hne ((rest.map Text.trimEnd).map
    (dedent ((n.info.span.line source).takeWhile isSpace).length))
  have hwithin := hshown _ hfirm (by
    rw [Printer.nodeDoc_of_isKept hkept, htext, ← hverbatim, Printer.keptAt, keptText]
    rw [← hverbatim] at hfirm
    show Within _ (Doc.join [verbatim (n.info.span.before tree.source) (c :: t), _])
    rw [hplaced.source_eq]
    exact Within.refl.join hfirm.shown List.mem_cons_self)
  simp only [hslice, Page.region, hlines, List.map_cons]
  refine Doc.verbatim_isInfix_render settings.toPage hne (Text.endsFull_trimEnd _) ?_ hwithin
  intro l hl
  obtain ⟨line, hline, rfl⟩ := List.mem_map.mp hl
  obtain ⟨line, -, rfl⟩ := List.mem_map.mp hline
  exact endsFull_dedent (Text.endsFull_trimEnd line) _

/-- A script with blank lines, in a block in a list item: it moves to the indentation of the block's
body, its second line keeps the two spaces more that it has, and no blank line is lost. -/
theorem format_keeps_regions_nested : ∃ source out tree n,
    source = "<ul>\n<li>{{if a}}\n <script>\n   x({{b}})\n\n\n </script>{{end}}</li></ul>".toList ∧
      out = ("<ul>\n  <li>{{ if a }}\n    <script>\n      x({{b}})\n\n\n    </script>\n" ++
        "  {{ end }}</li></ul>\n").toList ∧
      format {} source = .ok out ∧ parse source = .ok tree ∧ tree.Reached (.node n) ∧
      n.text = "<script>\n   x({{b}})\n\n\n </script>".toList ∧ ∃ level,
        ({} : Settings).toPage.region level ((n.info.span.line source).takeWhile isSpace).length
          (n.info.span.slice source) <:+: out := by
  have hformat : format {}
      "<ul>\n<li>{{if a}}\n <script>\n   x({{b}})\n\n\n </script>{{end}}</li></ul>".toList =
        .ok ("<ul>\n  <li>{{ if a }}\n    <script>\n      x({{b}})\n\n\n    </script>\n" ++
          "  {{ end }}</li></ul>\n").toList := eq_ok_of_toOption (by decide +kernel)
  obtain ⟨tree, hparse, hregions⟩ := format_keeps_regions hformat
  have hnode : (parse
      "<ul>\n<li>{{if a}}\n <script>\n   x({{b}})\n\n\n </script>{{end}}</li></ul>".toList
        ).toOption.map (fun t => t.reach.any fun e => e.casesOn (fun _ => false)
          (fun n => n.isKept && n.text == "<script>\n   x({{b}})\n\n\n </script>".toList)
          fun _ _ => false) = some true := by decide +kernel
  rw [hparse] at hnode
  obtain ⟨e, he, hn⟩ := List.any_eq_true.mp (Option.some.inj hnode)
  cases e with
  | root t => cases hn
  | edge role leaf => cases hn
  | node n =>
    rw [Bool.and_eq_true, beq_iff_eq] at hn
    have hreached := Tree.mem_reach.mp he
    exact ⟨_, _, tree, n, rfl, rfl, hformat, hparse, hreached, hn.2, hregions n hreached hn.1⟩

end TemplateFormat
