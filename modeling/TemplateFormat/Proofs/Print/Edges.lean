import TemplateFormat.Proofs.Print.Located
import TemplateFormat.Proofs.Print.OneLine

/-!
# White space at the edges of block bodies

A body on one line in the source gets normal line breaks for the white space at its ends
(`bodyParts_of_oneLine`), and these are white space in every layout. A body that goes over lines
gets soft line breaks, which print nothing where the block is on one line of the output. So white
space at the ends of a body is kept, unless the body goes over lines in the source and the block is
on one line of the output (`format_keeps_edges`); there it can be lost (`edges_lost`).

Results:
* `Markup.Html.stripped_format`: what a body on one line is laid out as.
* `Printer.bodyParts_of_oneLine`: the line breaks around such a body.
* `Printer.exists_edge_lines`: where the line breaks around a body stand.
* `Printer.Located.edges`: the white space at the ends of one body.
* `format_keeps_edges`: the same for every block of a template.
-/

namespace TemplateFormat

open Doc (After)

variable {σ : Type} {source : Text}

/-! ## Bodies on one line -/

theorem Text.replace_crlf_of_notMem {t : Text} (h : '\n' ∉ t) :
    Text.replace ['\r', '\n'] ['\n'] t = t := by
  show Text.replace.go ['\r', '\n'] ['\n'] t = t
  induction t with
  | nil => rw [Text.replace.go]
  | cons c t ih =>
    rw [List.mem_cons, not_or] at h
    rw [Text.replace.go, if_neg, ih h.2]
    intro hstarts
    obtain ⟨r, hr⟩ := Option.isSome_iff_exists.mp hstarts
    rw [Text.dropStart?_eq_some, List.cons_append, List.cons_append] at hr
    exact h.2 ((List.cons.inj hr).2 ▸ List.mem_cons_self)

namespace Markup.Html

/-- A normal line break where there is white space. -/
def edgeDoc (blank : Bool) : Doc := if blank then .line .normal else .empty

/-- **What a body on one line is laid out as**: its text, between normal line breaks for the white
space at its ends. -/
theorem stripped_format {t : Text} (hline : '\n' ∉ t) (hblank : Text.isBlank t = false) :
    (format true t).stripHardline.mergeText = .join [edgeDoc (t.head?.any isBlank),
      .text (Text.trim t), edgeDoc (t.getLast?.any isBlank)] := by
  have hne := Text.trim_ne_nil hblank
  have hany : (t.any (· == '\n')) = false := by
    rw [List.any_eq_false]
    intro c hc he
    exact hline (eq_of_beq he ▸ hc)
  have hformat : format true t = formatLine t := by
    unfold format
    simp only [Text.replace_crlf_of_notMem hline, hany, Bool.not_false, Bool.and_self, if_true]
  have hparts : formatLine t = .join [edgeDoc (t.head?.any isBlank), .text (Text.trim t),
      edgeDoc (t.getLast?.any isBlank), .hardline] := by
    simp only [formatLine, List.isEmpty_iff, hne, if_false, Doc.ofText]
    rfl
  obtain ⟨c, rest, htrim⟩ := List.exists_cons_of_ne_nil hne
  rw [hformat, hparts, htrim]
  cases t.head?.any isBlank <;> cases t.getLast?.any isBlank <;> rfl

end Markup.Html

namespace Printer

/-- A line break at the end of a body is taken off, also where the body starts with another one. -/
theorem trailing_splitEdges (d : Doc) (ds : List Doc) :
    (splitEdges (.concat (d :: (ds ++ [.line .normal])))).2.2 = .normal := by
  cases hd : d.isLine .normal
  · simp only [splitEdges, List.head?_cons, Option.any_some, hd, Bool.false_eq_true, if_false]
    rw [← List.cons_append, List.getLast?_concat]
    rfl
  · simp only [splitEdges, List.head?_cons, Option.any_some, hd, if_true, List.tail_cons,
      List.getLast?_concat]
    rfl

/-- **The line breaks around a body on one line** are normal ones where it has white space. -/
theorem bodyParts_of_oneLine {stem : Text} {c : Container} (docs : List Doc)
    (hline : '\n' ∉ c.aliased stem) (hblank : Text.isBlank (c.aliased stem) = false) :
    ((c.aliased stem).head?.any isBlank = true → (bodyParts stem c docs).1 = .normal) ∧
      ((c.aliased stem).getLast?.any isBlank = true → (bodyParts stem c docs).2.2 = .normal) := by
  rw [bodyParts, if_neg (by simp [hblank]), containerDoc,
    Markup.Html.stripped_format hline hblank]
  obtain ⟨x, rest, htrim⟩ := List.exists_cons_of_ne_nil (Text.trim_ne_nil hblank)
  rw [htrim]
  generalize (c.aliased stem).head?.any isBlank = leads
  generalize (c.aliased stem).getLast?.any isBlank = trails
  cases leads <;> cases trails
  · exact ⟨by simp, by simp⟩
  · exact ⟨by simp, fun _ => trailing_splitEdges _ []⟩
  · exact ⟨fun _ => rfl, by simp⟩
  · exact ⟨fun _ => rfl, fun _ => trailing_splitEdges _ [_]⟩

end Printer

/-! ## The ends of the content -/

namespace Node

theorem last_isAction {t : Text} {act : Action} (h : IsAction t act) : closeBraces <:+ t := by
  obtain ⟨inner, rfl, -⟩ := h
  exact List.suffix_append ..

theorem last_block {offset : Nat} {info : Info} {frame : Frame} {children : List Node}
    (h : (block info frame children).Placed offset) (hc : (block info frame children).Closed) :
    closeBraces <:+ (block info frame children).text := by
  obtain ⟨-, -, -, -, hstop⟩ := h
  obtain ⟨l, hl⟩ := Option.isSome_iff_exists.mp hc
  rw [text, hl]
  exact (last_isAction (hstop l hl).2).trans (List.suffix_append ..)

/-- A closed node ends with braces, if it is not a raw region. -/
theorem last_braces {offset : Nat} {n : Node} (h : n.Placed offset) (hc : n.Closed) :
    closeBraces <:+ n.text ∨ IsRaw n.text := by
  cases n with
  | action info t act =>
    rw [text]
    exact .inl (last_isAction h.2)
  | raw info t =>
    rw [text]
    exact .inr h.2
  | block info frame children => exact .inl (last_block h hc)
  | chain info branches =>
    obtain ⟨-, hplaced, hbranches⟩ := h
    obtain ⟨init, last, rfl, hlast⟩ := hbranches.closed
    have hmem : last ∈ init ++ [last] := List.mem_append_right _ (List.mem_singleton_self _)
    obtain ⟨o, ho⟩ := exists_placed_of_mem hplaced last hmem
    obtain ⟨info', frame, children, rfl, hlead⟩ := (hbranches.joined last hmem).eq_block
    rw [text, spellAll_append, spellAll_singleton, ← List.append_assoc]
    exact .inl ((last_block ho hlast).trans (List.suffix_append ..))

/-- No closed node ends with white space. -/
theorem last_text {offset : Nat} {n : Node} (h : n.Placed offset) (hc : n.Closed) (s : Text) :
    (s ++ n.text).getLast?.any isBlank = false := by
  rcases last_braces h hc with ⟨init, hinit⟩ | ⟨_, -, -, -, ⟨init, hinit⟩⟩
  · rw [← hinit, show closeBraces = ['}'] ++ ['}'] from rfl, ← List.append_assoc,
      ← List.append_assoc, List.getLast?_concat]
    rfl
  · rw [← hinit, ← List.append_assoc, List.getLast?_concat]
    rfl

end Node

namespace Container.Stands

variable {c : Container}

/-- A content with white space at its start has it before its first child. -/
theorem head_aliased (hc : c.Stands source) (stem : Text) (h : c.text.head?.any isBlank = true) :
    (c.aliased stem).head?.any isBlank = true := by
  obtain ⟨children, tail, span⟩ := c
  cases children with
  | nil => exact h
  | cons n ns =>
    rw [text, Node.spellAll] at h
    rw [aliased, Node.aliasAll]
    cases hlead : n.info.lead with
    | cons x lead =>
      rw [hlead] at h
      exact h
    | nil =>
      obtain ⟨x, rest, htext, hblank⟩ := (hc.children n List.mem_cons_self).1.head_text
      rw [hlead, htext] at h
      exact absurd (hblank.symm.trans h) (by decide)

/-- A content with white space at its end has it behind its last child. -/
theorem last_aliased (hc : c.Stands source) (stem : Text) (h : c.text.getLast?.any isBlank = true) :
    (c.aliased stem).getLast?.any isBlank = true := by
  obtain ⟨pre, post, -, -, hplaced, hsiblings⟩ := hc
  obtain ⟨children, tail, span⟩ := c
  rcases List.eq_nil_or_concat tail with rfl | ⟨tail, x, rfl⟩
  · rcases List.eq_nil_or_concat children with rfl | ⟨ns, n, rfl⟩
    · exact absurd h (by simp [text, Node.spellAll])
    · rw [List.concat_eq_append] at hplaced hsiblings
      have hmem : n ∈ ns ++ [n] := List.mem_append_right _ (List.mem_singleton_self _)
      obtain ⟨o, ho⟩ := Node.exists_placed_of_mem hplaced n hmem
      rw [text, List.append_nil, List.concat_eq_append, Node.spellAll_append,
        Node.spellAll_singleton, ← List.append_assoc,
        Node.last_text ho (hsiblings.closed n hmem)] at h
      exact absurd h (by decide)
  · rw [text, List.concat_eq_append, ← List.append_assoc, List.getLast?_concat] at h
    rw [aliased, List.concat_eq_append, ← List.append_assoc, List.getLast?_concat]
    exact h

end Container.Stands

/-- Placeholders are not white space, so a content is blank if it is with placeholders. -/
theorem Container.isBlank_aliased (stem : Text) {c : Container}
    (h : Text.isBlank c.text = false) : Text.isBlank (c.aliased stem) = false := by
  by_contra hblank
  rw [Bool.not_eq_false] at hblank
  have hchildren := Container.children_eq_nil hblank
  rw [text, hchildren] at h
  rw [aliased, hchildren] at hblank
  exact absurd (h.symm.trans hblank) (by decide)

/-- The content of a block stands behind its opening action. -/
theorem Container.span_ofBlock {info : Info} {frame : Frame} {children : List Node} {pre : Text}
    (h : (Node.block info frame children).Placed (Text.bytes pre)) :
    (ofBlock info frame children).span = ⟨Text.bytes (pre ++ frame.start.text),
      Text.bytes (ofBlock info frame children).text⟩ := by
  have hindex : (ofBlock info frame children).span.index =
      Text.bytes (pre ++ frame.start.text) := by
    show frame.start.span.stop = _
    rw [h.2.1.1, Span.stop, Text.bytes_append]
  obtain ⟨_, _, -, hspan, -, -⟩ := stands_ofBlock ⟨pre, [], rfl, h⟩
  rw [hspan] at hindex ⊢
  rw [← hindex]

/-! ## The ends of a body in the output -/

/-- White space stands in the output where the source is cut at a byte offset. -/
def Text.PartedAt (source out : Text) (offset : Nat) : Prop :=
  Parted (takeBytes offset source) (dropBytes offset source) out

instance (source out : Text) (offset : Nat) : Decidable (Text.PartedAt source out offset) :=
  inferInstanceAs (Decidable (Text.Parted _ _ out))

theorem Text.Parted.partedAt {u v out : Text} (h : Parted u v out) (he : source = u ++ v) :
    PartedAt source out (bytes u) := by
  rw [PartedAt, he, takeBytes_append, dropBytes_append]
  exact h

/-- **White space at the ends of a content is kept**: where the content begins with white space,
some stands in the output behind the action that opens it, and where it ends with white space, some
stands before what closes it. -/
structure Container.EdgesKept (c : Container) (source out : Text) : Prop where
  start : c.text.head?.any isBlank = true → Text.PartedAt source out c.span.index
  stop : c.text.getLast?.any isBlank = true → Text.PartedAt source out c.span.stop

namespace Printer

variable {p : Printer σ} {tree : Tree} {n : Node} {pre post : Text}

/-- **A line break in a node** is white space in the output if it is a normal one, or if the node is
not on one line. -/
theorem Located.parted {d : Doc} (h : p.Located source tree n pre post) (hp : p.Serves source)
    (ht : tree.Placed source) (page : Page) (hd : d ∈ p.core? n) {kind : Line} {js : List Item}
    (hk : After (.line kind) true js d) {x y : Text} (htext : n.text = x ++ y)
    (hjs : Text.solid (js.flatMap Item.flat) = Text.solid x) (hx : Text.solid x ≠ [])
    (hy : Text.solid (y ++ post) ≠ [])
    (hkind : kind = .normal ∨ ¬ Text.OnOneLine pre n.text ((p.treeDoc tree).render page)) :
    Text.PartedAt source ((p.treeDoc tree).render page) (Text.bytes (pre ++ x)) := by
  obtain ⟨direct, is, hafter, hbefore⟩ := h.core d hd
  have hu : Text.solid (pre ++ x) = Text.solid ((is ++ js).flatMap Item.flat) := by
    rw [List.flatMap_append, Text.solid_append, Text.solid_append, hbefore, hjs]
  have he : source = (pre ++ x) ++ (y ++ post) := by
    rw [h.eq, htext]
    simp only [List.append_assoc]
  have hflat : Text.solid (p.treeDoc tree).flat =
      Text.solid (pre ++ x) ++ Text.solid (y ++ post) := by
    rw [(printed_tree hp ht).2.solid, ← Text.solid_append, ← he]
  have hne : Text.solid (pre ++ x) ≠ [] := by
    rw [Text.solid_append]
    exact List.append_ne_nil_of_right_ne_nil _ hx
  refine Text.Parted.partedAt ?_ he
  rcases hkind with rfl | hlines
  · obtain ⟨ks, hitems⟩ := (hk.trans hafter).items_eq
    exact Doc.parted_of_normal page hitems hu hflat hne hy
  · rcases Doc.parted_or_onOneLine page hafter (unbroken_treeDoc p tree) with hall | hone
    · exact hall hk hu hflat hne hy
    · obtain ⟨a, l, b, hout, ha, hl, hline⟩ := hone
      exact absurd ⟨a, l, b, hout, ha.trans hbefore, hl.trans (solid_core? hp h.stands hd), hline⟩
        hlines

variable {info : Info} {frame : Frame} {children : List Node}

/-- **The line breaks around the body of a block**: where they stand in its document, and that those
around a body on one line are normal where it has white space. -/
theorem exists_edge_lines (hp : p.Serves source)
    (h : (Node.block info frame children).Stands source) {d : Doc}
    (hd : p.core? (.block info frame children) = some d)
    (hcontent : Text.isBlank (frame.content children) = false) : ∃ leading trailing js,
      After (.line leading) true (p.edge frame.start).items d ∧ After (.line trailing) true js d ∧
      Text.solid (js.flatMap Item.flat) =
        Text.solid (frame.start.text ++ frame.content children) ∧
      ('\n' ∉ frame.aliased p.stem children →
        ((frame.content children).head?.any isBlank = true → leading = .normal) ∧
        ((frame.content children).getLast?.any isBlank = true → trailing = .normal)) := by
  obtain ⟨-, -, rfl⟩ := core?_block hd
  have hc := Container.stands_ofBlock h
  have hdocs : ShowsAll source children (p.nodeDocs children) :=
    showsAll_of_printed (printed_nodes hp fun n hn => (hc.children n hn).1)
  have hbody := (shows_bodyParts hc hdocs).solid
  have hkinds := fun hline => bodyParts_of_oneLine (p.nodeDocs children) hline
    (Container.isBlank_aliased p.stem (c := .ofBlock info frame children) hcontent)
  rw [← hp.stem_eq] at hbody
  rcases hparts : bodyParts p.stem (.ofBlock info frame children) (p.nodeDocs children) with
    ⟨leading, body, trailing⟩
  rw [hparts] at hbody hkinds
  have hshown : body.isEmpty = false := by
    rw [Bool.eq_false_iff]
    intro hempty
    rw [Doc.flat_eq_nil_of_isEmpty hempty] at hbody
    exact Text.solid_ne_nil hcontent hbody.symm
  obtain ⟨pre, post, -, -, hstart, -⟩ := h
  refine ⟨leading, trailing, _, after_leading _ _ _ _ _ hshown, after_trailing _ _ _ _ _ hshown, ?_,
    fun hline => ⟨fun hhead => (hkinds hline).1 (hc.head_aliased _ hhead),
      fun hlast => (hkinds hline).2 (hc.last_aliased _ hlast)⟩⟩
  have hopening : Text.solid (p.edge frame.start).flat = Text.solid frame.start.text :=
    solid_edge p hstart
  rw [List.flatMap_append, List.flatMap_cons, Text.solid_append, Text.solid_append, solid_flat_line,
    List.nil_append, Text.solid_append, ← hopening]
  exact congrArg _ hbody

/-- Something is read behind the content of a block: its closing action, or what follows the block.
-/
theorem Located.solid_behind (h : p.Located source tree (.block info frame children) pre post) :
    Text.solid ((frame.stop.map Leaf.text).getD [] ++ post) ≠ [] := by
  rw [Text.solid_append]
  cases hs : frame.stop with
  | some l =>
    obtain ⟨-, -, -, -, hstop⟩ := h.placed
    exact List.append_ne_nil_of_left_ne_nil (framed_isAction (hstop l hs).2).ne_nil _
  | none =>
    rcases h.followed with hclosed | hpost
    · exact absurd hclosed (by simp [Node.Closed, hs])
    · exact hpost

/-- **The edges of one body**: white space there is kept, unless the body goes over lines and the
block is on one line of the output. -/
theorem Located.edges (h : p.Located source tree (.block info frame children) pre post)
    (hp : p.Serves source) (ht : tree.Placed source) (page : Page) (hignored : info.ignored = false)
    (hkeyword : frame.keyword ≠ .ignoreStartKw)
    (hcontent : Text.isBlank (frame.content children) = false) :
    (Container.ofBlock info frame children).EdgesKept source ((p.treeDoc tree).render page) ∨
      ('\n' ∈ frame.aliased p.stem children ∧ Text.OnOneLine pre
        (Node.block info frame children).text ((p.treeDoc tree).render page)) := by
  by_cases hone : '\n' ∈ frame.aliased p.stem children ∧
      Text.OnOneLine pre (Node.block info frame children).text ((p.treeDoc tree).render page)
  · exact .inr hone
  have hd := core?_of_plain p children hignored hkeyword
  obtain ⟨leading, trailing, js, hleading, htrailing, hjs, hkinds⟩ :=
    exists_edge_lines hp h.stands hd hcontent
  -- a line break that is not normal stands in a block that is not on one line
  have hkind {kind : Line} (hnormal : '\n' ∉ frame.aliased p.stem children → kind = .normal) :
      kind = .normal ∨ ¬ Text.OnOneLine pre (Node.block info frame children).text
        ((p.treeDoc tree).render page) := by
    by_cases hline : '\n' ∈ frame.aliased p.stem children
    · exact .inr fun h => hone ⟨hline, h⟩
    · exact .inl (hnormal hline)
  obtain ⟨-, hstart, -⟩ := h.placed
  have hopening : Text.solid frame.start.text ≠ [] := (framed_isAction hstart.2).ne_nil
  have htext := text_block info frame children
  refine .inl ⟨fun hhead => ?_, fun hlast => ?_⟩
  · rw [Container.span_ofBlock h.placed]
    refine h.parted hp ht page hd hleading (htext.trans (List.append_assoc ..))
      (solid_edge p hstart) hopening ?_ (hkind fun hline => (hkinds hline).1 hhead)
    rw [List.append_assoc, Text.solid_append]
    exact List.append_ne_nil_of_left_ne_nil (Text.solid_ne_nil hcontent) _
  · rw [Container.span_ofBlock h.placed, Span.stop, ← Text.bytes_append, List.append_assoc]
    refine h.parted hp ht page hd htrailing htext hjs ?_ h.solid_behind
      (hkind fun hline => (hkinds hline).2 hlast)
    rw [Text.solid_append]
    exact List.append_ne_nil_of_left_ne_nil hopening _

end Printer

/-! ## Formatted templates -/

/-- A block that is found in the list of a tree. -/
theorem Tree.exists_block {tree : Tree} {found : Info → Frame → List Node → Bool}
    (h : (tree.reach.any fun
      | .node (.block info frame children) => found info frame children
      | _ => false) = true) : ∃ info frame children,
        tree.Reached (.node (.block info frame children)) ∧ found info frame children = true := by
  obtain ⟨e, he, hfound⟩ := List.any_eq_true.mp h
  split at hfound
  · rename_i info frame children
    exact ⟨info, frame, children, mem_reach.mp he, hfound⟩
  · exact absurd hfound (by decide)

/-- **White space at the edges of a body is kept.** A template that can be read is formatted, and
for every block that is formatted and whose content is not blank, white space at the start of the
content is white space in the output behind the action that opens the block, and white space at its
end is white space before what closes it. The exception is a block that goes over lines in the
source, outside the nodes in it, and is on one line of the output. -/
theorem format_keeps_edges (settings : Settings) {tree : Tree} (h : parse source = .ok tree) :
    ∃ out, format settings source = .ok out ∧ ∀ info frame children,
      tree.Reached (.node (.block info frame children)) → info.ignored = false →
        frame.keyword ≠ .ignoreStartKw → Text.isBlank (frame.content children) = false →
          (Container.ofBlock info frame children).EdgesKept source out ∨
            ('\n' ∈ frame.aliased tree.stem children ∧ Text.OnOneLine (info.span.before source)
              (Node.block info frame children).text out) := by
  have hplaced := parse_placed h
  have hp : (Printer.ofTree tree settings (Markup.html (σ := Unit))).Serves source :=
    ⟨hplaced.stem_eq, rfl⟩
  refine ⟨_, format_of_parse settings h, ?_⟩
  intro info frame children hreached hignored hkeyword hcontent
  obtain ⟨pre, post, hlocated⟩ := Printer.found_of_reached hp hplaced (parse_formed h) hreached
  have hbefore : info.span.before source = pre := by
    rw [hlocated.placed.1, hlocated.eq]
    exact Text.takeBytes_append _ _
  rw [hbefore]
  exact hlocated.edges hp hplaced settings.toPage hignored hkeyword hcontent

/-- A chain in a paragraph, on one line of the output: the white space at both ends of its first
body, which is on one line in the source, is kept. -/
theorem format_keeps_edges_chain : ∃ out tree info frame children,
    format {} "<p>{{if a}} x {{else}}\n  y {{end}}</p>".toList = .ok out ∧
      out = "<p>{{ if a }} x {{ else }}y{{ end }}</p>\n".toList ∧
      parse "<p>{{if a}} x {{else}}\n  y {{end}}</p>".toList = .ok tree ∧
      tree.Reached (.node (.block info frame children)) ∧ frame.content children = " x ".toList ∧
      (Container.ofBlock info frame children).EdgesKept
        "<p>{{if a}} x {{else}}\n  y {{end}}</p>".toList out := by
  have hformat : format {} "<p>{{if a}} x {{else}}\n  y {{end}}</p>".toList =
      .ok "<p>{{ if a }} x {{ else }}y{{ end }}</p>\n".toList :=
    eq_ok_of_toOption (by decide +kernel)
  obtain ⟨tree, hparse, -⟩ := exists_parse_of_format hformat
  have hnode : (parse "<p>{{if a}} x {{else}}\n  y {{end}}</p>".toList).toOption.map (fun t =>
      t.reach.any fun
        | .node (.block info frame children) => decide (info.ignored = false ∧
            frame.keyword ≠ .ignoreStartKw ∧ frame.content children = " x ".toList ∧
            '\n' ∉ frame.aliased t.stem children)
        | _ => false) = some true := by decide +kernel
  rw [hparse] at hnode
  obtain ⟨info, frame, children, hreached, hfound⟩ := Tree.exists_block (Option.some.inj hnode)
  obtain ⟨hignored, hkeyword, hcontent, hline⟩ := of_decide_eq_true hfound
  obtain ⟨out, hout, hedges⟩ := format_keeps_edges {} hparse
  obtain rfl : _ = out := Except.ok.inj (hformat.symm.trans hout)
  exact ⟨_, tree, info, frame, children, hformat, rfl, hparse, hreached, hcontent,
    (hedges info frame children hreached hignored hkeyword
      (by rw [hcontent]; decide)).resolve_right fun h => hline h.1⟩

/-- **White space is lost** at both ends of a body that goes over lines, in a block on one line of
the output: the body begins with a line feed and ends with a space, and nothing stands between it
and the actions. -/
theorem edges_lost : ∃ out tree info frame children,
    format {} "{{ if x }}\na {{ end }}".toList = .ok out ∧
      out = "{{ if x }}a{{ end }}\n".toList ∧
      parse "{{ if x }}\na {{ end }}".toList = .ok tree ∧
      tree.Reached (.node (.block info frame children)) ∧ info.ignored = false ∧
      frame.keyword ≠ .ignoreStartKw ∧ frame.content children = "\na ".toList ∧
      ¬ Text.PartedAt "{{ if x }}\na {{ end }}".toList out
        (Container.ofBlock info frame children).span.index ∧
      ¬ Text.PartedAt "{{ if x }}\na {{ end }}".toList out
        (Container.ofBlock info frame children).span.stop := by
  have hformat : format {} "{{ if x }}\na {{ end }}".toList =
      .ok "{{ if x }}a{{ end }}\n".toList := eq_ok_of_toOption (by decide +kernel)
  obtain ⟨tree, hparse, -⟩ := exists_parse_of_format hformat
  have hnode : (parse "{{ if x }}\na {{ end }}".toList).toOption.map (fun t => t.reach.any fun
      | .node (.block info frame children) => decide (info.ignored = false ∧
          frame.keyword ≠ .ignoreStartKw ∧ frame.content children = "\na ".toList ∧
          ¬ Text.PartedAt "{{ if x }}\na {{ end }}".toList "{{ if x }}a{{ end }}\n".toList
            (Container.ofBlock info frame children).span.index ∧
          ¬ Text.PartedAt "{{ if x }}\na {{ end }}".toList "{{ if x }}a{{ end }}\n".toList
            (Container.ofBlock info frame children).span.stop)
      | _ => false) = some true := by decide +kernel
  rw [hparse] at hnode
  obtain ⟨info, frame, children, hreached, hfound⟩ := Tree.exists_block (Option.some.inj hnode)
  exact ⟨_, tree, info, frame, children, hformat, rfl, hparse, hreached, of_decide_eq_true hfound⟩

end TemplateFormat
