import TemplateFormat.Print.Node
import TemplateFormat.Proofs.Print.Shows
import TemplateFormat.Proofs.Print.Splice
import TemplateFormat.Proofs.Splice.Alias
import TemplateFormat.Proofs.Tree.Edges

/-!
# Printed containers

The content of a container is formatted with placeholders for its children. The formatter lays it
out (`Markup.Html.lays_stripped`), so splicing finds every placeholder once, and the document
with the printed children in their place shows the content. A block puts it between its opening
and its closing action. These start and end with braces, which are no letters of stems, so
nothing that stands next to them can make the stem.

Results:
* `prints_container`, `shows_containerDoc`: the content of a container is printed, and shown.
* `prints_bodyEdges`, `shows_bodyParts`: so is the body of a block, line breaks at its ends apart.
* `shows_blockBody`, `shows_ignoredRegion`: a body between its opening and its closing action.
-/

namespace TemplateFormat

open Placeholder PrintM

variable {σ : Type} {source : Text}

/-! ## Containers -/

/-- The documents show the nodes, each its own. -/
def ShowsAll (source : Text) : List Node → List Doc → Prop :=
  List.Forall₂ fun n d => Shows source d n.text

/-- The node is printed without a failure, and what is printed shows it. -/
def Printed (source : Text) (print : Node → PrintM σ Doc) (n : Node) (d : Doc) : Prop :=
  Prints (print n) d ∧ Shows source d n.text

theorem showsAll_of_printed {print : Node → PrintM σ Doc} {ns : List Node} {docs : List Doc}
    (h : List.Forall₂ (Printed source print) ns docs) : ShowsAll source ns docs :=
  h.imp fun _ _ h => h.2

/-- The slots of siblings. -/
def slotsOf (stem : Text) (print : Node → PrintM σ Doc) (ns : List Node) : List (Slot (PrintM σ)) :=
  ns.map fun n => ⟨n.placeholder stem, print n⟩

theorem keys_slotsOf (stem : Text) (print : Node → PrintM σ Doc) (c : Container) :
    (slotsOf stem print c.children).map Slot.key = c.keys stem := by
  rw [slotsOf, List.map_map, Container.keys]
  rfl

variable {print : Node → PrintM σ Doc} {c : Container} {docs : List Doc}

/-- The line of the document in a slot shows the child, and is framed as the child is. -/
theorem shows_slot (hc : c.Stands source) (hdocs : ShowsAll source c.children docs) {i : Nat}
    {n : Node} (hn : c.children[i]? = some n) :
    Shows source (docs.getD i .empty) n.text ∧ Framed (docs.getD i .empty).flat := by
  have hlt : i < docs.length := by
    rw [← hdocs.length_eq]
    exact (List.getElem?_eq_some_iff.mp hn).1
  have hshows : Shows source (docs.getD i .empty) n.text := by
    obtain ⟨hi, rfl⟩ := List.getElem?_eq_some_iff.mp hn
    rw [List.getD_eq_getElem _ _ hlt]
    exact hdocs.get hi hlt
  have hmem := List.mem_of_getElem? hn
  obtain ⟨pre, post, -, hplaced⟩ := (hc.children n hmem).1
  refine ⟨hshows, framed_of_solid ?_⟩
  rw [hshows.solid]
  exact Node.framed hplaced (hc.siblings.closed n hmem)

/-- The formatted content of a container, with its children in place of their placeholders. -/
theorem filled_container (hc : c.Stands source) (hdocs : ShowsAll source c.children docs)
    (embedded : Bool) :
    Splice.Filled source (c.keys (stem source)) (fun i => (docs.getD i .empty).flat)
      (Markup.Html.format embedded (c.aliased (stem source))).stripHardline.mergeText.items
      c.word := by
  have hlength : (c.keys (stem source)).length = c.children.length := List.length_map _
  refine Splice.filled_of_lays hc.isKeys (fun i hi => ?_) (Markup.Html.lays_stripped embedded _)
    (c.spell_word _) hc.fresh (c.within_keys _)
  rw [hlength] at hi
  obtain ⟨hshows, hframed⟩ := shows_slot hc hdocs (List.getElem?_eq_getElem hi)
  exact ⟨hshows.free, hframed⟩

/-- The children as they stand are documents that show them. -/
theorem exists_showsAll (hc : c.Stands source) : ∃ docs, ShowsAll source c.children docs := by
  refine ⟨c.children.map fun n => verbatim [] n.text, ?_⟩
  refine List.forall₂_map_right_iff.mpr (List.forall₂_same.mpr fun n hn => ?_)
  exact shows_verbatim [] ((free_source source).of_isInfix (hc.children n hn).1.isInfix)

/-- **The formatter neither loses nor doubles a placeholder**, and keeps their order. -/
theorem found_container (hc : c.Stands source) (embedded : Bool) :
    Splice.found (c.keys (stem source))
        (Markup.Html.format embedded (c.aliased (stem source))).stripHardline.mergeText =
      List.range c.children.length := by
  -- this can be seen with any documents for the children
  obtain ⟨docs, hdocs⟩ := exists_showsAll hc
  rw [Splice.found_eq_flatMap, (filled_container hc hdocs embedded).slots, c.slots_word]

/-- The formatted content of a container, with the documents of its children. -/
def containerDoc (stem : Text) (embedded : Bool) (c : Container) (docs : List Doc) : Doc :=
  (Markup.Html.format embedded (c.aliased stem)).stripHardline.mergeText.mapText
    (splicedText (c.keys stem) docs)

/-- **The content of a container is printed.** -/
theorem prints_container {p : Printer σ} (hformatter : p.formatter = Markup.html)
    (hc : c.Stands source) (hdocs : List.Forall₂ (Printed source print) c.children docs)
    (embedded : Bool) (span : Span) :
    Prints (p.container embedded (c.aliased (stem source))
      (slotsOf (stem source) print c.children) span)
        (containerDoc (stem source) embedded c docs) := by
  have hfound := found_container hc embedded
  unfold containerDoc
  generalize hdoc :
    (Markup.Html.format embedded (c.aliased (stem source))).stripHardline.mergeText = doc at hfound
  have hkeys := keys_slotsOf (stem source) print c
  have hslots : List.Forall₂ (fun s d => Prints s.print d) (slotsOf (stem source) print c.children)
      docs :=
    List.forall₂_map_left_iff.mpr (hdocs.imp fun _ _ h => h.1)
  have hused : Splice.misused? ((slotsOf (stem source) print c.children).map Slot.key) doc =
      none := by
    refine Splice.misused?_eq_none ?_
    rw [hkeys, hfound, Container.keys, List.length_map]
  have hprints := prints_splice hslots span hused
  rw [hkeys] at hprints
  unfold Printer.container
  rw [hformatter]
  refine (prints_formatMarkup embedded _).bind ?_
  rw [hdoc]
  exact hprints

/-- **The content of a container is shown.** -/
theorem shows_containerDoc (hc : c.Stands source) (hdocs : ShowsAll source c.children docs)
    (embedded : Bool) :
    Shows source (containerDoc (stem source) embedded c docs) c.text := by
  have hfilled := filled_container hc hdocs embedded
  refine ⟨?_, ?_⟩
  · rw [containerDoc, flat_spliced, hfilled.solid, ← c.restore_childText]
    refine Word.solid_restore fun i hi => ?_
    have hn := List.getElem?_eq_getElem (c.within_word i hi)
    rw [(shows_slot hc hdocs hn).1.solid, Container.childText, hn]
    rfl
  · rw [containerDoc, flat_spliced]
    exact hfilled.free

/-! ## The body of a block -/

theorem Doc.eq_line_of_isLine {kind : Line} {d : Doc} (h : d.isLine kind = true) :
    d = .line kind := by
  cases d with
  | line l => rw [eq_of_beq h]
  | _ => exact absurd h (by simp [Doc.isLine])

namespace Printer

/-- A normal line break before documents is taken off. -/
theorem items_tail (docs : List Doc) : ∃ a, (∀ i ∈ a, i = .line .normal) ∧
    docs.flatMap Doc.items =
      a ++ (if docs.head?.any (Doc.isLine .normal) then docs.tail else docs).flatMap Doc.items := by
  by_cases h : docs.head?.any (Doc.isLine .normal) = true
  · rw [if_pos h]
    obtain ⟨d, hd, hline⟩ := (Option.any_eq_true ..).mp h
    obtain ⟨rest, rfl⟩ := List.head?_eq_some_iff.mp hd
    refine ⟨d.items, ?_, List.flatMap_cons⟩
    rw [Doc.eq_line_of_isLine hline, Doc.items_line]
    simp
  · rw [if_neg h]
    exact ⟨[], by simp, rfl⟩

/-- A normal line break behind documents is taken off. -/
theorem items_dropLast (docs : List Doc) : ∃ b, (∀ i ∈ b, i = .line .normal) ∧
    docs.flatMap Doc.items =
      (if docs.getLast?.any (Doc.isLine .normal) then docs.dropLast else docs).flatMap Doc.items ++
        b := by
  by_cases h : docs.getLast?.any (Doc.isLine .normal) = true
  · rw [if_pos h]
    obtain ⟨d, hd, hline⟩ := (Option.any_eq_true ..).mp h
    refine ⟨d.items, ?_, ?_⟩
    · rw [Doc.eq_line_of_isLine hline, Doc.items_line]
      simp
    · conv_lhs => rw [← List.dropLast_append_getLast? d hd]
      rw [List.flatMap_append, List.flatMap_singleton]
  · rw [if_neg h]
    exact ⟨[], by simp, (List.append_nil _).symm⟩

/-- Only line breaks at the ends of a body are taken off. -/
theorem items_splitEdges (d : Doc) : ∃ a b, (∀ i ∈ a ++ b, i = .line .normal) ∧
    d.items = a ++ ((splitEdges d).2.1.items ++ b) := by
  cases d with
  | concat docs =>
    obtain ⟨a, ha, htail⟩ := items_tail docs
    obtain ⟨b, hb, hlast⟩ :=
      items_dropLast (if docs.head?.any (Doc.isLine .normal) then docs.tail else docs)
    refine ⟨a, b, List.forall_mem_append.mpr ⟨ha, hb⟩, ?_⟩
    rw [Doc.items_concat, htail, hlast, splitEdges, Doc.items_join]
  | empty => exact ⟨[], [], by simp, (List.append_nil _).symm⟩
  | text t => exact ⟨[], [], by simp, (List.append_nil _).symm⟩
  | indent d => exact ⟨[], [], by simp, (List.append_nil _).symm⟩
  | group d broken => exact ⟨[], [], by simp, (List.append_nil _).symm⟩
  | line kind => exact ⟨[], [], by simp, (List.append_nil _).symm⟩

theorem isBlank_flat_lines {is : List Item} (h : ∀ i ∈ is, i = .line .normal) :
    Text.isBlank (is.flatMap Item.flat) = true := by
  rw [Text.isBlank_iff]
  intro c hc
  obtain ⟨i, hi, hmem⟩ := List.mem_flatMap.mp hc
  rw [h i hi] at hmem
  rw [List.mem_singleton.mp hmem]
  decide

/-- The line breaks at the ends of a body are white space on one line. -/
theorem flat_splitEdges (d : Doc) : ∃ a b, Text.isBlank a = true ∧ Text.isBlank b = true ∧
    d.flat = a ++ ((splitEdges d).2.1.flat ++ b) := by
  obtain ⟨a, b, hlines, hitems⟩ := items_splitEdges d
  rw [List.forall_mem_append] at hlines
  refine ⟨a.flatMap Item.flat, b.flatMap Item.flat, isBlank_flat_lines hlines.1,
    isBlank_flat_lines hlines.2, ?_⟩
  rw [Doc.flat, hitems, List.flatMap_append, List.flatMap_append, Doc.flat]

/-- Without the line breaks at its ends, a body shows what it does with them. -/
theorem shows_splitEdges {d : Doc} {t : Text} (h : Shows source d t) :
    Shows source (splitEdges d).2.1 t := by
  obtain ⟨a, b, ha, hb, hflat⟩ := flat_splitEdges d
  refine ⟨?_, ?_⟩
  · have hsolid := h.solid
    rwa [hflat, Text.solid_append, Text.solid_append, Text.solid_of_isBlank ha,
      Text.solid_of_isBlank hb, List.nil_append, List.append_nil] at hsolid
  · refine h.free.of_isInfix ⟨a, b, ?_⟩
    rw [hflat, List.append_assoc]

/-- The body of a block, and the line breaks around it. -/
def bodyParts (stem : Text) (c : Container) (docs : List Doc) : Line × Doc × Line :=
  if Text.isBlank (c.aliased stem) then (.soft, .empty, .soft)
  else splitEdges (containerDoc stem true c docs)

/-- **The body of a block is printed.** -/
theorem prints_bodyEdges {p : Printer σ} (hformatter : p.formatter = Markup.html)
    (hc : c.Stands source) (hdocs : List.Forall₂ (Printed source print) c.children docs)
    (span : Span) :
    Prints (p.bodyEdges (c.aliased (Placeholder.stem source))
      (slotsOf (Placeholder.stem source) print c.children) span)
        (bodyParts (Placeholder.stem source) c docs) := by
  unfold bodyEdges bodyParts
  split
  · exact prints_pure _
  · exact (prints_container hformatter hc hdocs true span).map splitEdges

/-- A blank body has no children. -/
theorem word_of_isBlank (hc : c.Stands source)
    (hblank : Text.isBlank (c.aliased (Placeholder.stem source)) = true) :
    c.word = Word.ofText (c.aliased (Placeholder.stem source)) := by
  rw [← c.spell_word] at hblank ⊢
  exact Splice.spell_blank hc.isKeys (c.within_keys _) hblank

/-- **The body of a block is shown.** -/
theorem shows_bodyParts (hc : c.Stands source) (hdocs : ShowsAll source c.children docs) :
    Shows source (bodyParts (Placeholder.stem source) c docs).2.1 c.text := by
  unfold bodyParts
  split
  · rename_i hblank
    refine ⟨?_, ?_⟩
    · rw [← c.restore_childText, word_of_isBlank hc hblank, Word.restore_ofText,
        Text.solid_of_isBlank hblank, Doc.flat_empty]
      rfl
    · rw [Doc.flat_empty]
      exact free_nil
  · exact shows_splitEdges (shows_containerDoc hc hdocs true)

/-! ## Between the actions of a block -/

theorem isBlank_flat_line (kind : Line) : Text.isBlank (Item.line kind).flat = true := by
  cases kind <;> rfl

/-- **A body between its opening and its closing action.** -/
theorem shows_blockBody (keyword : Keyword) {edges : Line × Doc × Line} {start stop : Doc}
    {startText content stopText : Text} (hstart : Shows source start startText)
    (hends : EndsClear start.flat) (hbody : Shows source edges.2.1 content)
    (hstop : Shows source stop stopText) (hstarts : StartsClear stop.flat) :
    Shows source (blockBody keyword edges start stop) (startText ++ content ++ stopText) := by
  obtain ⟨leading, body, trailing⟩ := edges
  have hlead := isBlank_flat_line leading
  have htrail := isBlank_flat_line trailing
  have hinner : ∃ a, Text.isBlank a = true ∧
      (blockBody keyword (leading, body, trailing) start stop).flat =
        start.flat ++ ((a ++ (body.flat ++ (Item.line trailing).flat)) ++ stop.flat) := by
    unfold blockBody
    by_cases hempty : body.isEmpty = true
    · refine ⟨[], rfl, ?_⟩
      simp [hempty, Doc.flat_line, Doc.flat_eq_nil_of_isEmpty hempty]
    · refine ⟨(Item.line leading).flat, hlead, ?_⟩
      by_cases hdefine : keyword = .defineKw <;> simp [hempty, hdefine, Doc.flat_line]
  obtain ⟨a, ha, hflat⟩ := hinner
  refine ⟨?_, ?_⟩
  · rw [hflat]
    simp only [Text.solid_append, hstart.solid, hbody.solid, hstop.solid, Text.solid_of_isBlank ha,
      Text.solid_of_isBlank htrail, List.nil_append, List.append_assoc]
  · rw [hflat]
    exact free_append hstart.free (free_append (free_between_blank ha htrail hbody.free) hstop.free
      (Or.inr hstarts)) (Or.inl hends)

/-- Leaving out an empty line at the start loses no character. -/
theorem solid_tail (ls : List Text) : ((if ls.head? = some [] then ls.tail else ls).map
    Text.solid).flatten = (ls.map Text.solid).flatten := by
  by_cases h : ls.head? = some []
  · obtain ⟨rest, rfl⟩ := List.head?_eq_some_iff.mp h
    rfl
  · rw [if_neg h]

theorem mem_of_mem_tail {l : Text} {ls : List Text}
    (h : l ∈ if ls.head? = some [] then ls.tail else ls) : l ∈ ls := by
  split at h
  · exact List.mem_of_mem_tail h
  · exact h

theorem solid_ignoredLines (body : Text) :
    ((ignoredLines body).map Text.solid).flatten = Text.solid body := by
  rw [ignoredLines, solid_tail, solid_dropLast, solid_map Text.solid_trimEnd, Text.solid_lines]

/-- The lines of an ignored body are lines of the source without white space at their ends. -/
theorem exists_of_mem_ignoredLines {body l : Text} (h : l ∈ ignoredLines body) :
    ∃ line ∈ Text.lines body, Text.trimEnd line = l :=
  List.mem_map.mp (mem_of_mem_dropLast (mem_of_mem_tail h))

theorem free_ignoredLines {body : Text} (h : Free source body) :
    ∀ l ∈ ignoredLines body, Free source l := by
  intro l hl
  obtain ⟨line, hline, rfl⟩ := exists_of_mem_ignoredLines hl
  exact (h.of_isInfix (Text.line_isInfix hline)).of_isInfix (Text.trimEnd_isInfix line)

/-- **A body that is kept as written**, between its opening and its closing action. -/
theorem shows_ignoredRegion {start stop : Doc} {startText content stopText : Text}
    (hstart : Shows source start startText) (hbody : Free source content)
    (hstop : Shows source stop stopText) :
    Shows source (ignoredRegion start content stop) (startText ++ content ++ stopText) := by
  have hflat : (ignoredRegion start content stop).flat =
      start.flat ++ (spaced (ignoredLines content) ++ ' ' :: stop.flat) := by
    unfold ignoredRegion
    rw [Doc.flat_join, List.flatMap_append, List.flatMap_cons, Doc.flat_removeLines,
      List.flatMap_assoc]
    simp [spaced, Doc.flat_line, Item.flat]
  refine ⟨?_, ?_⟩
  · rw [hflat]
    simp only [Text.solid_append, hstart.solid, hstop.solid, solid_spaced, solid_ignoredLines,
      Text.solid_cons_of_blank (show isBlank ' ' = true by decide), List.append_assoc]
  · rw [hflat]
    have hlines := free_spaced (free_ignoredLines hbody)
    have hrest : StartsClear (' ' :: stop.flat) := by
      intro c hc
      obtain rfl := Option.some.inj hc
      decide
    exact free_append hstart.free (free_append_cons (by decide) hlines hstop.free)
      (Or.inr (startsClear_append (startsClear_spaced _) hrest))

end Printer

end TemplateFormat
