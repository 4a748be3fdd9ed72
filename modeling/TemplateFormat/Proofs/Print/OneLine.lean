import TemplateFormat.Proofs.Doc.Ends
import TemplateFormat.Proofs.Print.Lines
import TemplateFormat.Proofs.Structure

/-!
# Texts without line feeds

The texts of a printed document have no line feeds: whatever has several lines is cut into them, and
the lines come with line breaks between them. `Doc.Unbroken` says this of a document on one line. It
is kept by all the ways of building documents, so by induction on the tree it holds of what is
printed for a template. The markup formatter prints parts of lines
(`Markup.Html.text_of_mem_format`), and a placeholder is replaced by a document that is unbroken
itself.

Results:
* `unbroken_verbatim`, `unbroken_action`, `unbroken_containerDoc`: the parts that a template is
  printed from.
* `Printer.unbroken_node`, `Printer.unbroken_treeDoc`: nodes and whole templates.
* `render_treeDoc_eq_nil`: nothing is printed for white space.
* `format_tidy`: the texts and the lines of a formatted template.
-/

namespace TemplateFormat

/-! ## Unbroken documents -/

namespace Doc

/-- No text of the document has a line feed. -/
def Unbroken (d : Doc) : Prop := '\n' ∉ d.flat

theorem unbroken_ofText {t : Text} (h : '\n' ∉ t) : (ofText t).Unbroken := by
  rw [Unbroken, flat_ofText]
  exact h

theorem unbroken_line (kind : Line) : (line kind).Unbroken := by
  rw [Unbroken, flat_line]
  cases kind <;> simp [Item.flat]

theorem unbroken_empty : empty.Unbroken := by simp [Unbroken]

theorem unbroken_join {ds : List Doc} (h : ∀ d ∈ ds, d.Unbroken) : (join ds).Unbroken := by
  rw [Unbroken, flat_join, List.mem_flatMap]
  rintro ⟨d, hd, hmem⟩
  exact h d hd hmem

theorem Unbroken.nest {d : Doc} (h : d.Unbroken) : d.nest.Unbroken := by
  rwa [Unbroken, flat_nest]

theorem Unbroken.group {d : Doc} (h : d.Unbroken) (broken : Bool) : (group d broken).Unbroken := by
  rwa [Unbroken, flat_group]

/-- **The texts of an unbroken document have no line feeds.** -/
theorem Unbroken.leaves {d : Doc} (h : d.Unbroken) : ∀ t ∈ d.leaves, '\n' ∉ t := by
  intro t ht hmem
  have hleaves : '\n' ∈ d.leaves.flatMap id := List.mem_flatMap.mpr ⟨t, ht, hmem⟩
  rw [leaves_flatMap rfl] at hleaves
  obtain ⟨i, hi, hc⟩ := List.mem_flatMap.mp hleaves
  refine h (List.mem_flatMap.mpr ⟨i, hi, ?_⟩)
  cases i with
  | text s => exact hc
  | line kind => exact absurd hc List.not_mem_nil

/-- Lines that are cut to a part of themselves, each with a line break before it. -/
theorem unbroken_lines {f : Text → Text} (hf : ∀ l, f l <:+: l) (kind : Line) {ls : List Text}
    (h : ∀ l ∈ ls, '\n' ∉ l) :
    ∀ d ∈ ls.flatMap fun l => [line kind, ofText (f l)], d.Unbroken := by
  intro d hd
  obtain ⟨l, hl, hd⟩ := List.mem_flatMap.mp hd
  simp only [List.mem_cons, List.not_mem_nil, or_false] at hd
  rcases hd with rfl | rfl
  · exact unbroken_line kind
  · exact unbroken_ofText fun hmem => h l hl ((hf l).subset hmem)

end Doc

open Doc

/-! ## Tokens -/

theorem unbroken_verbatim (before text : Text) : (verbatim before text).Unbroken := by
  unfold verbatim
  split
  · exact unbroken_empty
  · rename_i first rest hlines
    have hline : ∀ l ∈ first :: rest, '\n' ∉ l := fun l hl => Text.not_mem_line (hlines ▸ hl)
    rw [List.forall_mem_cons] at hline
    refine unbroken_join (List.forall_mem_cons.mpr ⟨?_, unbroken_lines (fun l => ?_) _ hline.2⟩)
    · exact unbroken_ofText fun hmem => hline.1 ((Text.trimEnd_isInfix first).subset hmem)
    · exact (dedent_suffix _ _).isInfix.trans (Text.trimEnd_isInfix l)

theorem unbroken_keptBlankLine (after : Text) : (keptBlankLine after).Unbroken := by
  simp [Unbroken]

theorem Doc.Unbroken.join_keptBlankLine {d : Doc} (h : d.Unbroken) (after : Text) :
    (join [d, keptBlankLine after]).Unbroken :=
  unbroken_join (by simp [h, unbroken_keptBlankLine])

theorem unbroken_keptText (before text after : Text) : (keptText before text after).Unbroken :=
  (unbroken_verbatim before text).join_keptBlankLine after

theorem unbroken_statementDoc (statement : Text) (padStart padEnd : Bool) :
    (statementDoc statement padStart padEnd).Unbroken := by
  have hlines : ∀ l ∈ statementLines statement, (ofText l).Unbroken := by
    intro l hl
    obtain ⟨line, hline, rfl⟩ := List.mem_map.mp hl
    have := Text.not_mem_line (mem_of_mem_dropLast hline)
    exact unbroken_ofText fun hmem => this ((Text.trim_isInfix line).subset hmem)
  have hpad (b : Bool) : (ofText (if b then [' '] else [])).Unbroken := by
    cases b <;> exact unbroken_ofText (by decide)
  unfold statementDoc
  split
  · exact unbroken_empty
  · rename_i line hl
    rw [hl, List.forall_mem_singleton] at hlines
    exact unbroken_join (by simp [hpad, hlines])
  · rename_i first rest _ hl
    rw [hl, List.forall_mem_cons] at hlines
    refine unbroken_join ?_
    rw [List.forall_mem_append, List.forall_mem_cons, List.forall_mem_map,
      List.forall_mem_singleton]
    refine ⟨⟨hlines.1, fun l hl => (unbroken_join ?_).nest⟩, unbroken_line .hard⟩
    simp [hardline, unbroken_line, hlines.2 l hl]

/-- **A printed action.** -/
theorem unbroken_action (act : Action) (spacing : Bool) : (act.doc spacing).Unbroken := by
  have hopening : '\n' ∉ act.opening.opening := by cases act.opening <;> decide
  have hclosing : '\n' ∉ act.closing.closing := by cases act.closing <;> decide
  refine unbroken_join ?_
  simp [unbroken_statementDoc, unbroken_ofText hopening, unbroken_ofText hclosing,
    unbroken_ofText (show '\n' ∉ openBraces by decide),
    unbroken_ofText (show '\n' ∉ closeBraces by decide)]

/-! ## Markup -/

namespace Markup

/-- The text is a line without white space at its ends, or at its end. -/
def IsPart (t l : Text) : Prop := t ≠ [] ∧ (t = Text.trim l ∨ t = Text.trimEnd l)

theorem IsPart.isInfix {t l : Text} (h : IsPart t l) : t <:+: l := by
  rcases h.2 with rfl | rfl
  · exact Text.trim_isInfix l
  · exact Text.trimEnd_isInfix l

/-- It is not blank: it ends with another character. -/
theorem IsPart.not_isBlank {t l : Text} (h : IsPart t l) : Text.isBlank t = false := by
  have hlast : ∀ c ∈ t.getLast?, isBlank c = false := by
    rcases h.2 with rfl | rfl
    · exact (Text.trimmed_trim l).last
    · exact Text.last_trimEnd l
  obtain ⟨s, c, rfl⟩ := (List.eq_nil_or_concat t).resolve_left h.1
  have hc := hlast c (by simp)
  simp [hc]

theorem eq_of_text_mem_ofText {s t : Text} (h : .text s ∈ (Doc.ofText t).items) :
    s = t ∧ s ≠ [] := by
  rw [Doc.items_ofText] at h
  by_cases ht : t = []
  · rw [ht, Doc.items_text_nil] at h
    exact absurd h List.not_mem_nil
  · rw [Doc.items_text ht, List.mem_singleton] at h
    obtain rfl := Item.text.inj h
    exact ⟨rfl, ht⟩

namespace Layout

/-- A line adds a part of itself to the texts. -/
theorem text_of_mem_addLine {s : Layout} {raw masked t : Text}
    (h : .text t ∈ (s.addLine raw masked).items) : .text t ∈ s.items ∨ IsPart t raw := by
  unfold addLine at h
  simp only at h
  split at h
  · rw [items, parts_preformattedLine, List.reverse_cons, List.reverse_cons, List.append_assoc,
      List.flatMap_append, List.mem_append] at h
    refine h.imp_right fun h => ?_
    simp only [List.singleton_append, List.flatMap_cons, List.flatMap_nil, List.append_nil,
      Doc.items_line, List.mem_cons, reduceCtorEq, false_or] at h
    obtain ⟨rfl, hne⟩ := eq_of_text_mem_ofText h
    exact ⟨hne, Or.inr rfl⟩
  · split at h
    · exact Or.inl h
    · have hpart (h : .text t ∈ (Doc.ofText (Text.trim raw)).items) : IsPart t raw := by
        obtain ⟨rfl, hne⟩ := eq_of_text_mem_ofText h
        exact ⟨hne, Or.inl rfl⟩
      rcases items_markupLine _ (Text.trim raw) masked _ _ _ with
        ⟨hitems, -⟩ | ⟨breaks, hitems, hbreaks⟩
      · rw [hitems, List.mem_append] at h
        exact h.imp_right hpart
      · rw [hitems, List.mem_append, List.mem_append] at h
        refine h.imp_right fun h => hpart (h.resolve_left ?_)
        rcases hbreaks with rfl | rfl <;> simp

/-- The texts of the lines read so far are parts of lines, by induction on the lines. -/
theorem text_of_mem_foldl {ls : List (Text × Text)} {s : Layout} {t : Text}
    (h : .text t ∈ (ls.foldl (fun s l => s.addLine l.1 l.2) s).items) :
    .text t ∈ s.items ∨ ∃ l ∈ ls.map Prod.fst, IsPart t l := by
  induction ls generalizing s with
  | nil => exact Or.inl h
  | cons l ls ih =>
    rcases ih h with h | ⟨m, hm, hpart⟩
    · exact (text_of_mem_addLine h).imp_right fun hpart => ⟨l.1, List.mem_cons_self, hpart⟩
    · exact Or.inr ⟨m, List.mem_cons_of_mem l.1 hm, hpart⟩

end Layout

namespace Html

theorem text_of_mem_formatLines {markup t : Text} (h : .text t ∈ (formatLines markup).items) :
    ∃ l ∈ Text.lines markup, IsPart t l := by
  unfold formatLines at h
  simp only at h
  have hfst : ((Text.lines markup).zip (Text.lines (mask markup))).map Prod.fst =
      Text.lines markup := List.map_fst_zip (length_lines_mask markup).ge
  rw [Doc.items_join, List.reverse_cons, List.flatMap_append, List.flatMap_singleton,
    List.mem_append] at h
  have hlayout := h.resolve_right (by simp [Doc.hardline])
  rcases Layout.text_of_mem_foldl hlayout with h | h
  · exact absurd h List.not_mem_nil
  · rwa [hfst] at h

theorem text_of_mem_formatLine {markup t : Text} (h : .text t ∈ (formatLine markup).items) :
    IsPart t markup := by
  have hedge (c : Option Char) :
      .text t ∉ (if c.any isBlank then Doc.line .normal else .empty).items := by
    rcases items_edge (c.any isBlank) with h | h <;> rw [h] <;> simp
  unfold formatLine at h
  simp only at h
  split at h
  · exact absurd h (by simp [Doc.hardline])
  · rw [Doc.items_join] at h
    simp only [List.flatMap_cons, List.flatMap_nil, List.append_nil, List.mem_append, hedge,
      Doc.hardline, Doc.items_line, List.mem_singleton, reduceCtorEq, false_or, or_false] at h
    obtain ⟨rfl, hne⟩ := eq_of_text_mem_ofText h
    exact ⟨hne, Or.inl rfl⟩

/-- **The texts of formatted markup** are parts of it without line feeds, and not blank. -/
theorem text_of_mem_format {embedded : Bool} {markup t : Text}
    (h : .text t ∈ (format embedded markup).items) :
    '\n' ∉ t ∧ t <:+: markup ∧ Text.isBlank t = false := by
  have hline : ∃ l ∈ Text.lines (Text.replace ['\r', '\n'] ['\n'] markup), IsPart t l := by
    unfold format at h
    simp only at h
    split at h
    · rename_i hnone
      rw [Bool.and_eq_true, Bool.not_eq_true', List.any_eq_false] at hnone
      have hlines := Text.lines_of_notMem fun hm => hnone.2 '\n' hm (by decide)
      rw [hlines]
      exact ⟨_, List.mem_singleton_self _, text_of_mem_formatLine h⟩
    · exact text_of_mem_formatLines h
  obtain ⟨l, hl, hpart⟩ := hline
  refine ⟨fun hmem => Text.not_mem_line hl (hpart.isInfix.subset hmem), ?_, hpart.not_isBlank⟩
  -- the line is one of the markup, but for a carriage return at its end
  obtain ⟨i, hi, rfl⟩ := List.getElem_of_mem hl
  have hcut := Text.lines_replace_crlf markup
  have hi' := hcut.length_eq ▸ hi
  obtain ⟨b, -, hm⟩ := hcut.get hi hi'
  have hstart : (Text.lines (Text.replace ['\r', '\n'] ['\n'] markup))[i] <+:
      (Text.lines markup)[i] := ⟨b, hm.symm⟩
  exact (hpart.isInfix.trans hstart.isInfix).trans (Text.line_isInfix (List.getElem_mem hi'))

/-- So are those of the document that is spliced. -/
theorem text_of_mem_stripped {embedded : Bool} {markup t : Text}
    (h : .text t ∈ (format embedded markup).stripHardline.mergeText.items) :
    '\n' ∉ t ∧ t <:+: markup ∧ Text.isBlank t = false := by
  obtain ⟨is, hitems, hlays⟩ := lays_format embedded markup
  have hstrip : (format embedded markup).stripHardline.items = is := by
    rw [Doc.items_stripHardline, hitems, dropForced_concat is rfl]
  rw [Doc.items_mergeText _ (hstrip ▸ hlays.apart), hstrip] at h
  exact text_of_mem_format (hitems ▸ List.mem_append_left _ h)

end Html

end Markup

/-! ## Containers -/

namespace Splice

/-- What is found between placeholders comes from the text. -/
theorem subset_of_literal_mem (keys : List Text) (t : Text) :
    ∀ s, .literal s ∈ pieces keys t → s ⊆ t := by
  fun_induction pieces keys t with
  | case1 => simp
  | case2 c rest index key hat ih =>
    intro s hs
    have hs := (List.mem_cons.mp hs).resolve_left (by simp)
    exact fun d hd => List.mem_cons_of_mem c (List.mem_of_mem_drop (ih s hs hd))
  | case3 c rest hat ih =>
    intro s hs
    unfold consChar at hs
    split at hs
    · rename_i t ps hpieces
      rcases List.mem_cons.mp hs with he | hs
      · obtain rfl := Piece.literal.inj he
        exact List.cons_subset_cons c (ih t (hpieces ▸ List.mem_cons_self))
      · exact List.subset_cons_of_subset c (ih s (hpieces ▸ List.mem_cons_of_mem _ hs))
    · rcases List.mem_cons.mp hs with he | hs
      · obtain rfl := Piece.literal.inj he
        exact List.cons_subset_cons c (List.nil_subset _)
      · exact List.subset_cons_of_subset c (ih s hs)

end Splice

/-- The document in a slot is one of the documents, or empty. -/
theorem unbroken_getD {docs : List Doc} (h : ∀ d ∈ docs, d.Unbroken) (i : Nat) :
    (docs.getD i .empty).Unbroken := by
  rw [List.getD_eq_getElem?_getD]
  cases hi : docs[i]? with
  | none => exact unbroken_empty
  | some d => exact h d (List.mem_of_getElem? hi)

/-- A text without line feeds, with unbroken documents in place of its placeholders. -/
theorem unbroken_splicedText (keys : List Text) {docs : List Doc} (h : ∀ d ∈ docs, d.Unbroken)
    {t : Text} (ht : '\n' ∉ t) : (splicedText keys docs t).Unbroken := by
  refine unbroken_join ?_
  rw [List.forall_mem_map]
  intro piece hpiece
  cases piece with
  | literal s =>
    exact unbroken_ofText fun hmem => ht (Splice.subset_of_literal_mem keys t s hpiece hmem)
  | slot i => exact unbroken_getD h i

/-- **The content of a container**, with unbroken documents for its children. -/
theorem unbroken_containerDoc (stem : Text) (embedded : Bool) (c : Container) {docs : List Doc}
    (h : ∀ d ∈ docs, d.Unbroken) : (containerDoc stem embedded c docs).Unbroken := by
  rw [Unbroken, containerDoc, flat_mapText (items_splicedText_nil _ docs), List.mem_flatMap]
  rintro ⟨i, hi, hmem⟩
  cases i with
  | text t =>
    exact unbroken_splicedText _ h (Markup.Html.text_of_mem_stripped hi).1 hmem
  | line kind => exact unbroken_line kind (by rwa [flat_line])

namespace Printer

variable {σ : Type}

theorem unbroken_splitEdges {d : Doc} (h : d.Unbroken) : (splitEdges d).2.1.Unbroken := by
  obtain ⟨a, b, -, -, hflat⟩ := flat_splitEdges d
  rw [Unbroken, hflat] at h
  exact fun hmem => h (List.mem_append_right a (List.mem_append_left b hmem))

theorem unbroken_bodyParts (stem : Text) (c : Container) {docs : List Doc}
    (h : ∀ d ∈ docs, d.Unbroken) : (bodyParts stem c docs).2.1.Unbroken := by
  unfold bodyParts
  split
  · exact unbroken_empty
  · exact unbroken_splitEdges (unbroken_containerDoc stem true c h)

theorem unbroken_blockBody (keyword : Keyword) {edges : Line × Doc × Line} {start stop : Doc}
    (hstart : start.Unbroken) (hbody : edges.2.1.Unbroken) (hstop : stop.Unbroken) :
    (blockBody keyword edges start stop).Unbroken := by
  obtain ⟨leading, body, trailing⟩ := edges
  have hinner : (join [line leading, body]).Unbroken :=
    unbroken_join (by simpa [unbroken_line] using hbody)
  have hbody' : (if body.isEmpty then .empty
      else if keyword = .defineKw then join [line leading, body]
      else nest (join [line leading, body])).Unbroken := by
    split
    · exact unbroken_empty
    · split
      · exact hinner
      · exact hinner.nest
  exact unbroken_join (by simp [hstart, hbody', unbroken_line, hstop])

theorem newline_notMem_ignoredLines (body : Text) : ∀ l ∈ ignoredLines body, '\n' ∉ l := by
  intro l hl
  obtain ⟨line, hline, rfl⟩ := exists_of_mem_ignoredLines hl
  exact fun hmem => Text.not_mem_line hline ((Text.trimEnd_isInfix line).subset hmem)

theorem unbroken_ignoredRegion {start stop : Doc} (hstart : start.Unbroken) (body : Text)
    (hstop : stop.Unbroken) : (ignoredRegion start body stop).Unbroken := by
  have hlines := newline_notMem_ignoredLines body
  have hremoved : start.removeLines.Unbroken := by rwa [Unbroken, flat_removeLines]
  refine unbroken_join ?_
  rw [List.forall_mem_append, List.forall_mem_cons]
  refine ⟨⟨hremoved, unbroken_lines (fun _ => List.infix_rfl) .literal hlines⟩, ?_⟩
  simp [hardline, unbroken_line, hstop]

theorem unbroken_edge (p : Printer σ) (l : Leaf) : (p.edge l).Unbroken :=
  (unbroken_action _ _).group false

theorem unbroken_stopDoc (p : Printer σ) (stop : Option Leaf) : (p.stopDoc stop).Unbroken := by
  cases stop with
  | none => exact unbroken_empty
  | some l => exact unbroken_edge p l

/-- **A block**, with unbroken documents for its children. -/
theorem unbroken_blockDoc (p : Printer σ) (info : Info) (frame : Frame) (children : List Node)
    {docs : List Doc} (h : ∀ d ∈ docs, d.Unbroken) :
    (p.blockDoc info frame children docs).Unbroken := by
  have hstart := unbroken_edge p frame.start
  have hstop := unbroken_stopDoc p frame.stop
  unfold blockDoc
  split
  · exact unbroken_keptText _ _ _
  · split
    · exact (unbroken_ignoredRegion hstart _ hstop).join_keptBlankLine _
    · have hbody := unbroken_blockBody frame.keyword hstart
        (unbroken_bodyParts p.stem (.ofBlock info frame children) h) hstop
      unfold blockGroup
      split
      · exact hbody
      · exact (hbody.group _).join_keptBlankLine _

theorem unbroken_chainDoc (p : Printer σ) (info : Info) (branches : List Node) {docs : List Doc}
    (h : ∀ d ∈ docs, d.Unbroken) : (p.chainDoc info branches docs).Unbroken := by
  unfold chainDoc
  split
  · exact unbroken_keptText _ _ _
  · exact ((unbroken_join h).group _).join_keptBlankLine _

mutual

/-- **What is printed for a node is unbroken**, by induction on the node. -/
theorem unbroken_node (p : Printer σ) : ∀ n : Node, (p.nodeDoc n).Unbroken
  | .action info t act => by
    rw [nodeDoc]
    split
    · exact unbroken_keptText _ _ _
    · exact ((unbroken_action act _).join_keptBlankLine _).group _
  | .raw info t => by
    rw [nodeDoc]
    exact unbroken_keptText _ _ _
  | .block info frame children => by
    rw [nodeDoc]
    exact unbroken_blockDoc p info frame children (unbroken_nodes p children)
  | .chain info branches => by
    rw [nodeDoc]
    exact unbroken_chainDoc p info branches (unbroken_nodes p branches)

theorem unbroken_nodes (p : Printer σ) : ∀ ns : List Node, ∀ d ∈ p.nodeDocs ns, d.Unbroken
  | [] => by simp [nodeDocs]
  | n :: ns => by
    rw [nodeDocs]
    exact List.forall_mem_cons.mpr ⟨unbroken_node p n, unbroken_nodes p ns⟩

end

/-- **What is printed for a template is unbroken.** -/
theorem unbroken_treeDoc (p : Printer σ) (tree : Tree) : (p.treeDoc tree).Unbroken := by
  have hcontent := unbroken_containerDoc p.stem false (.ofTree tree)
    (unbroken_nodes p tree.children)
  exact unbroken_join (by simp [hcontent, hardline, unbroken_line])

end Printer

/-! ## White space -/

/-- A container of white space has no children: they would have other characters. -/
theorem Container.Stands.children_eq_nil {source : Text} {c : Container} (h : c.Stands source)
    (hblank : Text.isBlank source = true) : c.children = [] := by
  refine List.eq_nil_iff_forall_not_mem.mpr fun n hn => ?_
  obtain ⟨hstands, -⟩ := h.children n hn
  have hsolid : Text.solid n.text = [] := by
    refine Text.solid_of_isBlank (Text.isBlank_iff.mpr fun c hc => ?_)
    exact Text.isBlank_iff.mp hblank c (hstands.isInfix.subset hc)
  obtain ⟨pre, post, -, hplaced⟩ := hstands
  exact (Node.framed hplaced (h.siblings.closed n hn)).ne_nil hsolid

/-- **Nothing is printed for white space.** -/
theorem render_treeDoc_eq_nil {σ : Type} {source : Text} {tree : Tree} (p : Printer σ)
    (page : Page) (h : tree.Placed source) (hblank : Text.isBlank source = true) :
    (p.treeDoc tree).render page = [] := by
  have hchildren := (Container.stands_ofTree h).children_eq_nil hblank
  have haliased : (Container.ofTree tree).aliased p.stem = source := by
    have htext : (Container.ofTree tree).text = source := h.spelled
    rw [Container.text, hchildren] at htext
    rw [Container.aliased, hchildren]
    exact htext
  -- the formatted markup has no texts, so it has line breaks only
  have hitems : ∀ t, .text t ∉
      (Markup.Html.format false source).stripHardline.mergeText.items := by
    intro t ht
    obtain ⟨-, hpart, hsolid⟩ := Markup.Html.text_of_mem_stripped ht
    have : Text.isBlank t = true :=
      Text.isBlank_iff.mpr fun c hc => Text.isBlank_iff.mp hblank c (hpart.subset hc)
    exact absurd this (by simp [hsolid])
  refine Doc.render_eq_nil page fun x hx => ?_
  rw [Printer.treeDoc, Doc.flat_join] at hx
  simp only [List.flatMap_cons, List.flatMap_nil, List.append_nil, Doc.flat_hardline,
    List.mem_append, List.mem_singleton] at hx
  rcases hx with hx | rfl
  · rw [containerDoc, haliased, Doc.flat_mapText (items_splicedText_nil _ _)] at hx
    obtain ⟨i, hi, hx⟩ := List.mem_flatMap.mp hx
    cases i with
    | text t => exact absurd hi (hitems t)
    | line kind =>
      cases kind with
      | soft => exact absurd hx List.not_mem_nil
      | _ => exact List.mem_singleton.mp hx ▸ by decide
  · decide

/-! ## Formatted templates -/

/-- **Formatted templates are tidy.** The texts of the document that is laid out have no line feeds.
The output is empty exactly for a template of white space; any other output ends with a line feed
and does not start with one, and none of its lines ends with a space or a tab. -/
theorem format_tidy {settings : Settings} {source out : Text}
    (h : format settings source = .ok out) :
    (∃ tree doc session, parse source = .ok tree ∧
      ((Printer.ofTree tree settings Markup.html).tree tree).run.run { markup := () } =
        (.ok doc, session) ∧
      out = doc.render settings.toPage ∧ ∀ t ∈ doc.leaves, '\n' ∉ t) ∧
    (out = [] ↔ Text.isBlank source = true) ∧ (out ≠ [] → out.Tidy) := by
  obtain ⟨tree, hparse, rfl⟩ := exists_parse_of_format h
  have hplaced := parse_placed hparse
  obtain ⟨hprints, hshows⟩ := Printer.printed_tree
    (p := Printer.ofTree tree settings (Markup.html (σ := Unit))) ⟨hplaced.stem_eq, rfl⟩ hplaced
  have hunbroken :=
    Printer.unbroken_treeDoc (Printer.ofTree tree settings (Markup.html (σ := Unit))) tree
  refine ⟨?_, ⟨fun hnil => ?_, fun hblank => ?_⟩, fun hne => ?_⟩
  · obtain ⟨visits, hrun, -⟩ := hprints { markup := () }
    exact ⟨tree, _, _, hparse, hrun, rfl, hunbroken.leaves⟩
  · have hsolid : Text.solid source = [] := by
      rw [← hshows.solid, ← Doc.solid_render settings.toPage]
      exact congrArg Text.solid hnil
    rw [Text.isBlank_iff]
    intro c hc
    by_contra hblank
    have : c ∈ Text.solid source := List.mem_filter.mpr ⟨hc, by simpa using hblank⟩
    rw [hsolid] at this
    exact absurd this List.not_mem_nil
  · exact render_treeDoc_eq_nil _ _ hplaced hblank
  · exact Doc.tidy_render _ hunbroken hne

/-- A preformatted element with a tab at the end of a line, and blank lines at both ends. -/
theorem format_tidy_lines : ∃ out,
    format {} " \n<p> {{with x}} \n\n\n <pre>\n b\t\n</pre>{{ end }}\n</p> \n\n".toList = .ok out ∧
      out = "<p> {{ with x }}\n  <pre>\n b\n</pre>\n{{ end }}\n</p>\n".toList ∧ out.Tidy := by
  have h : format {} " \n<p> {{with x}} \n\n\n <pre>\n b\t\n</pre>{{ end }}\n</p> \n\n".toList =
      .ok "<p> {{ with x }}\n  <pre>\n b\n</pre>\n{{ end }}\n</p>\n".toList :=
    eq_ok_of_toOption (by decide +kernel)
  exact ⟨_, h, rfl, (format_tidy h).2.2 (by decide)⟩

end TemplateFormat
