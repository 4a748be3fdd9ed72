import TemplateFormat.Proofs.Markup.Preformatted
import TemplateFormat.Proofs.Print.KeptLines
import TemplateFormat.Proofs.Print.OneLine

/-!
# Preformatted text around template blocks

The markup formatter keeps the lines of a preformatted element, and sees the nodes in it as
placeholders. So the lines without nodes are kept, and the nodes are spliced into their lines. The
body of a block in the element is a content of its own, however: the element is not seen from there,
and the lines of the body are laid out anew. Only regions that are kept as written keep their lines
in it.

Results:
* `Container.exists_isPre`: no node reaches into the tags of the element.
* `Container.IsPre.items_containerDoc`: the document of the element.
* `format_keeps_preformatted`: the lines that are kept, for every body of the element.
* `preformatted_block_moves`: a line of a block in the element that is moved.
-/

namespace TemplateFormat

open Word (ofText)

variable {source : Text}

/-! ## A preformatted element -/

/-- A preformatted element with its tags on lines of their own. -/
def preSource (body : Text) : Text := "<pre>\n".toList ++ (body ++ "\n</pre>\n".toList)

variable {body : Text}

/-- No script and no style element is in it. -/
theorem not_isRaw_of_isInfix {t : Text} (hbody : '<' ∉ body) (ht : t <:+: preSource body) :
    ¬ IsRaw t := by
  rintro ⟨name, hname, hstart, -⟩
  have hnames : ∀ name ∈ Region.names, ['<', 's'] <+: '<' :: name := by decide
  have hs := (hnames name hname).isInfix.trans (hstart.isInfix.trans ht)
  have hline : '\n' ∉ ['<', 's'] := by decide
  rcases infix_append_cons (a := "<pre>".toList) hs hline with h | h
  · exact absurd h (by decide)
  · rcases infix_append_cons (a := body) h hline with h | h
    · exact hbody (h.subset List.mem_cons_self)
    · exact absurd h (by decide)

namespace Container

open Placeholder (stem)

variable {c : Container}

/-- Its nodes start and end with braces. -/
theorem childText_braces (hbody : '<' ∉ body) (hc : c.Stands (preSource body)) {i : Nat}
    (hi : .slot i ∈ c.word) :
    (c.childText i).head? = some '{' ∧ (c.childText i).getLast? = some '}' := by
  have hlt := c.within_word i hi
  have hmem := List.getElem_mem hlt
  have htext : c.childText i = c.children[i].text := by
    rw [childText, List.getElem?_eq_getElem hlt]
    rfl
  obtain ⟨hstands, -⟩ := hc.children _ hmem
  have hraw := not_isRaw_of_isInfix hbody hstands.isInfix
  obtain ⟨pre, post, -, hplaced⟩ := hstands
  obtain ⟨rest, hrest⟩ := (Node.head_braces hplaced).resolve_right hraw
  obtain ⟨init, hinit⟩ := (Node.last_braces hplaced (hc.siblings.closed _ hmem)).resolve_right hraw
  rw [htext]
  refine ⟨by rw [← hrest]; rfl, ?_⟩
  rw [← hinit, List.getLast?_append]
  rfl

/-- The content is a preformatted element, with `inner` between its tags. -/
structure IsPre (source : Text) (c : Container) (inner : Word) : Prop where
  stands : c.Stands source
  word_eq : c.word = ofText "<pre>\n".toList ++ (inner ++ ofText "\n</pre>\n".toList)
  tagless : .char '<' ∉ inner

/-- **The tags are characters of the content**: no node reaches into them. -/
theorem exists_isPre (hbody : '<' ∉ body) (hc : c.Stands (preSource body))
    (htext : c.text = preSource body) : ∃ inner, c.IsPre (preSource body) inner := by
  obtain ⟨v, hv, hrest⟩ := Word.restore_eq_append (fun i hi => ⟨'{', by decide,
    (childText_braces hbody hc hi).1⟩) (c.restore_childText.trans htext)
  obtain ⟨w, rfl, rfl⟩ := Word.restore_eq_append_right (fun i hi => ⟨'}', by decide,
    (childText_braces hbody hc (hv ▸ List.mem_append_right _ hi)).2⟩) hrest
  exact ⟨w, hc, hv, fun hmem => hbody (Word.mem_restore.mpr (.inl hmem))⟩

namespace IsPre

variable {inner : Word}

/-- The lines of the element. -/
theorem lines_eq (h : c.IsPre source inner) : c.word.lines =
    ofText "<pre>".toList :: (inner.lines ++ [ofText "</pre>".toList, []]) := by
  have hopen := Word.lines_append (ofText "<pre>".toList) (inner ++ ofText "\n</pre>\n".toList)
  have hclose := Word.lines_append inner (ofText "</pre>\n".toList)
  rw [h.word_eq]
  refine hopen.trans ?_
  rw [Word.lines_of_notMem (by decide), List.singleton_append]
  exact congrArg (ofText "<pre>".toList :: ·) hclose

/-- The lines of the element with placeholders. -/
theorem lines_aliased (h : c.IsPre source inner) : Text.lines (c.aliased (stem source)) =
    Markup.preLines (inner.lines.map (Word.spell (c.keys (stem source)))) := by
  rw [← c.spell_word, Splice.lines_spell h.stands.isKeys (c.within_keys _), h.lines_eq,
    List.map_cons, List.map_append]
  rfl

/-- There are no tags in these lines. -/
theorem tagless_spell (h : c.IsPre source inner) :
    ∀ l ∈ inner.lines.map (Word.spell (c.keys (stem source))), '<' ∉ l := by
  intro l hl hmem
  obtain ⟨v, hv, rfl⟩ := List.mem_map.mp hl
  have hsub := (Word.isInfix_of_mem_lines hv).subset
  rcases Word.mem_restore.mp hmem with hchar | ⟨i, hi, hkey⟩
  · exact h.tagless (hsub hchar)
  · have hlt := c.within_keys (stem source) i (by simp [h.word_eq, hsub hi])
    rw [List.getD_eq_getElem _ _ hlt] at hkey
    exact h.stands.isKeys.tagless (List.getElem_mem hlt) hkey

/-- **The document of the element**: its first line, and the others behind literal breaks. -/
theorem items_containerDoc (h : c.IsPre source inner) (docs : List Doc) :
    (containerDoc (stem source) false c docs).items = .text "<pre>".toList ::
      (inner.lines ++ [ofText "</pre>".toList]).flatMap fun l => .line .literal ::
        (splicedText (c.keys (stem source)) docs
          (Text.trimEnd (l.spell (c.keys (stem source))))).items := by
  have hnil := items_splicedText_nil (c.keys (stem source)) docs
  have hfirst : (splicedText (c.keys (stem source)) docs "<pre>".toList).items =
      [.text "<pre>".toList] := items_line h.stands (by decide) (by simp [h.lines_eq])
  have hrows : inner.lines.map (Word.spell (c.keys (stem source))) ++
      [Markup.tagText true Markup.preName.text []] =
        (inner.lines ++ [ofText "</pre>".toList]).map (Word.spell (c.keys (stem source))) := by
    rw [List.map_append, List.map_singleton, Word.spell, Word.restore_ofText]
    rfl
  rw [containerDoc, Doc.items_mapText hnil,
    Markup.Html.items_preformatted h.tagless_spell h.lines_aliased, hrows, List.flatMap_cons,
    List.flatMap_assoc, List.flatMap_map]
  refine congrArg₂ (· ++ ·) hfirst (List.flatMap_congr fun l _ => ?_)
  rw [Markup.Html.keptItems, List.flatMap_cons, Doc.items_ofText, ← Doc.items_mapText hnil,
    Doc.mapText]
  rfl

/-- What is kept of the element. -/
theorem keptLines_eq (h : c.IsPre source inner) : c.keptLines =
    "<pre>".toList :: (inner.lines ++ [ofText "</pre>".toList]).flatMap c.keptOf := by
  have hfirst : c.keptOf (ofText "<pre>".toList) = ["<pre>".toList] := by
    rw [keptOf, if_pos (Word.slots_ofText _), Word.restore_ofText]
    decide
  rw [keptLines, h.lines_eq, List.append_cons, ← List.cons_append, List.dropLast_concat,
    List.flatMap_cons, hfirst]
  rfl

/-- **The kept lines of the element** are known to be in the output, with a hard break behind it. -/
theorem keptLines_sublist (h : c.IsPre source inner) {docs : List Doc}
    (hdocs : ∀ i, Sure (c.childLines i) (docs.getD i .empty).items) :
    c.keptLines.Sublist (Known.start.lines
      ((containerDoc (stem source) false c docs).items ++ [.line .hard])) := by
  have hclosing : (splicedText (c.keys (stem source)) docs
      (Text.trimEnd ((ofText "</pre>".toList).spell (c.keys (stem source))))).items =
        [.text "</pre>".toList] := by
    have htrim : Text.trimEnd "</pre>".toList = "</pre>".toList := by decide
    rw [Word.spell, Word.restore_ofText, htrim]
    exact items_line h.stands (by decide) (by simp [h.lines_eq])
  have hpart : ∀ l ∈ inner.lines ++ [ofText "</pre>".toList], l <:+: c.word := by
    refine fun l hl => Word.isInfix_of_mem_lines ?_
    rw [h.lines_eq, List.append_cons]
    exact List.mem_cons_of_mem _ (List.mem_append_left _ hl)
  rw [h.items_containerDoc, h.keptLines_eq, List.cons_append]
  refine (Known.sublist_shown (k := Known.start.next (.text "<pre>".toList)) (fun l hl j hj =>
    keptOf_sublist_shown h.stands hdocs (hpart l hl) hj) rfl).trans ?_
  refine Known.shown_sublist_hard (.inl ?_) []
  rw [List.flatMap_append, List.flatMap_singleton, hclosing, Known.after_append]
  show Text.inks "</pre>".toList = true
  decide

end IsPre

end Container

open Printer in
/-- **The kept lines of a preformatted element are lines of the output**, in their order and up to
white space at their ends, for every body without tags of its own. -/
theorem format_keeps_preformatted (settings : Settings) {body : Text} {tree : Tree}
    (hbody : '<' ∉ body) (h : parse (preSource body) = .ok tree) :
    ∃ out, format settings (preSource body) = .ok out ∧
      ((Container.ofTree tree).keptLines.map Text.trimEnd).Sublist
        ((Text.lines out).map Text.trimEnd) := by
  have hplaced := parse_placed h
  have hc := Container.stands_ofTree hplaced
  obtain ⟨inner, hpre⟩ := Container.exists_isPre hbody hc hplaced.spelled
  let p := Printer.ofTree tree settings (Markup.html (σ := Unit))
  have hp : p.Serves (preSource body) := ⟨hplaced.stem_eq, rfl⟩
  refine ⟨_, format_of_parse settings h, ?_⟩
  have hknown : (Container.ofTree tree).keptLines.Sublist
      (Known.start.lines (p.treeDoc tree).items) := by
    rw [treeDoc, hp.stem_eq, Doc.items_join, List.flatMap_cons, List.flatMap_singleton,
      Doc.hardline, Doc.items_line]
    exact hpre.keptLines_sublist fun i => sure_child hp i fun n hn => (hc.children n hn).1
  refine (hknown.map _).trans (Doc.sublist_lines_render settings.toPage ?_)
  intro t ht hmem
  exact unbroken_treeDoc p tree (List.mem_flatMap.mpr ⟨_, ht, hmem⟩)

/-- A block between plain lines. The blank lines are kept, and so is the region in the block; its
other line is moved. -/
theorem format_keeps_preformatted_nested : ∃ tree,
    let body := ("  plain  \n\n\n{{ if x }}\n     moved\n{{ prettier-ignore-start }}\n" ++
      "     kept\n{{ prettier-ignore-end }}\n{{ end }}\n   last {{ y }}\n   last").toList
    '<' ∉ body ∧ parse (preSource body) = .ok tree ∧
      (Container.ofTree tree).keptLines = ["<pre>".toList, "  plain".toList, [], [],
        "     kept".toList, "   last".toList, "</pre>".toList] ∧
      ∃ out, format {} (preSource body) = .ok out ∧
        ((Container.ofTree tree).keptLines.map Text.trimEnd).Sublist
          ((Text.lines out).map Text.trimEnd) := by
  have hkept : (parse (preSource ("  plain  \n\n\n{{ if x }}\n     moved\n" ++
      "{{ prettier-ignore-start }}\n     kept\n{{ prettier-ignore-end }}\n{{ end }}\n" ++
      "   last {{ y }}\n   last").toList)).toOption.map (fun t => (Container.ofTree t).keptLines) =
    some ["<pre>".toList, "  plain".toList, [], [], "     kept".toList, "   last".toList,
      "</pre>".toList] := by decide +kernel
  obtain ⟨tree, htree, hlines⟩ := Option.map_eq_some_iff.mp hkept
  have hparse := eq_ok_of_toOption htree
  have htagless : '<' ∉ ("  plain  \n\n\n{{ if x }}\n     moved\n{{ prettier-ignore-start }}\n" ++
      "     kept\n{{ prettier-ignore-end }}\n{{ end }}\n   last {{ y }}\n   last").toList := by
    decide +kernel
  exact ⟨tree, htagless, hparse, hlines, format_keeps_preformatted {} htagless hparse⟩

/-- **A line of a block is moved**: the element is not seen from the body of the block. -/
theorem preformatted_block_moves :
    let body := "{{ if x }}\n    keep\n{{ end }}".toList
    '<' ∉ body ∧ "    keep".toList ∈ Text.lines body ∧ ∃ out,
      format {} (preSource body) = .ok out ∧
        out = "<pre>\n{{ if x }}\n  keep\n{{ end }}\n</pre>\n".toList ∧
          "    keep".toList ∉ (Text.lines out).map Text.trimEnd := by
  intro body
  have hformat : format {} (preSource body) =
      .ok "<pre>\n{{ if x }}\n  keep\n{{ end }}\n</pre>\n".toList :=
    eq_ok_of_toOption (by decide +kernel)
  exact ⟨by decide, by decide, _, hformat, rfl, by decide⟩

end TemplateFormat
