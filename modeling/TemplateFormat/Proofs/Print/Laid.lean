import TemplateFormat.Proofs.Print.Rows

/-!
# Containers with the same rows

The content of a container is made of its rows (`Laid`), and the levels of the rows are those of any
other container with the same rows and the same placeholders. A body on one line of the source, and
a body that goes over lines, are made of their rows alike; the line breaks around the body tell them
apart (`leadingEdge`, `trailingEdge`).

Results:
* `exists_laid`: the rows of a container, whatever is put in its slots.
-/

namespace TemplateFormat

open Doc (Same)

/-- The line break at the start of a body: a normal one for white space on the line of the body. -/
def leadingEdge (w : Word) : Line :=
  if .char '\n' ∉ w ∧ w.head?.any Symbol.isBlank then .normal else .soft

/-- The line break at the end of a body. -/
def trailingEdge (w : Word) : Line :=
  if .char '\n' ∉ w ∧ w.getLast?.any Symbol.isBlank then .normal else .soft

section Laid

variable {source stem : Text} {keys : List Text} {c : Container} {docs : List Doc}

/-- The rows of a word that can be spelled. -/
theorem spellable_of_mem_rows {w : Word} (hfresh : w.Fresh source)
    (hwithin : w.Within keys.length) :
    ∀ r ∈ w.rows, Word.Spellable source keys r.2 := fun _ hr =>
  ⟨hfresh.of_isInfix (Word.isInfix_of_mem_rows hr),
  hwithin.of_isInfix (Word.isInfix_of_mem_rows hr),
    Word.ne_nil_of_mem_rows hr⟩

namespace Printer

open Doc

theorem isLine_of_closed {d : Doc} (h : d.Closed) : d.isLine .normal = false := by
  refine Bool.eq_false_iff.mpr fun hline => ?_
  obtain ⟨t, ht⟩ := h.head
  rw [eq_line_of_isLine hline, items_line] at ht
  exact absurd ht (by simp)

/-- Line breaks around a document that prints something. -/
theorem join_edges {d : Doc} (h : d.isEmpty = false) (b b' : Bool) :
    join [Markup.Html.edgeDoc b, d, Markup.Html.edgeDoc b'] =
      match b, b' with
      | false, false => d
      | false, true => .concat [d, .line .normal]
      | true, false => .concat [.line .normal, d]
      | true, true => .concat [.line .normal, d, .line .normal] := by
  cases b <;> cases b' <;> simp [join, Markup.Html.edgeDoc, Doc.isEmpty, h]

/-- A text between line breaks, replaced. -/
theorem mapText_edges {f : Text → Doc} {t : Text} (ht : t ≠ []) (hf : (f t).isEmpty = false)
    (b b' : Bool) : (join [Markup.Html.edgeDoc b, .text t, Markup.Html.edgeDoc b']).mapText f =
      join [Markup.Html.edgeDoc b, f t, Markup.Html.edgeDoc b'] := by
  rw [join_edges (by simpa [Doc.isEmpty] using ht), join_edges hf]
  cases b <;> cases b' <;> simp [mapText, mapTextAll]

/-- A closed document between line breaks: these are taken off, and nothing else is. -/
theorem splitEdges_edges {d : Doc} (h : d.Closed) (b b' : Bool) : ∃ e,
    splitEdges (join [Markup.Html.edgeDoc b, d, Markup.Html.edgeDoc b']) =
      (if b then .normal else .soft, e, if b' then .normal else .soft) ∧
    Same e.propagate d.propagate ∧ e.forcesBreak = d.forcesBreak ∧ e.isEmpty = false := by
  have hline := isLine_of_closed h
  have hnormal : (Doc.line .normal).isLine .normal = true := rfl
  have hone : join [d] = d := by rw [join, filter_shown (List.forall_mem_singleton.mpr h.isEmpty)]
  rw [join_edges h.isEmpty]
  cases b with
  | false =>
    cases b' with
    | false =>
      obtain ⟨e, he, hsame, hforces, hempty⟩ := splitEdges_of_closed h
      have hmarked := splitEdges_propagate d
      obtain ⟨e', he', hsame', -⟩ := splitEdges_of_closed h.propagate
      rw [he, he'] at hmarked
      obtain ⟨-, hmarked⟩ := Prod.mk.inj hmarked
      obtain ⟨rfl, -⟩ := Prod.mk.inj hmarked
      exact ⟨e, he, hsame', hforces, hempty⟩
    | true =>
      refine ⟨d, ?_, .refl _, rfl, h.isEmpty⟩
      simp [splitEdges, hline, hnormal, hone]
  | true =>
    refine ⟨d, ?_, .refl _, rfl, h.isEmpty⟩
    cases b' <;> simp [splitEdges, hline, hnormal, hone]

end Printer

/-- **The rows of a container**, whatever is put in its slots: a container with the same rows and
the same placeholders is made of them alike, and so is a body, between its line breaks. -/
theorem exists_laid (hkeys : Splice.IsKeys source (c.keys stem)) (hfresh : c.word.Fresh source)
    (hplain : Markup.Html.Unformatted (c.aliased stem)) (hrows : c.word.rows ≠ []) :
    ∃ first rest, c.word.rows = (false, first) :: rest.map Row.flush ∧
      ∀ (c' : Container) (docs : List Doc), c'.keys stem = c.keys stem →
        c'.word.rows = c.word.rows →
        (∀ i < (c.keys stem).length, (docs.getD i .empty).Closed) →
          Laid docs first rest (containerDoc stem false c' docs) ∧ ∃ body,
            Printer.bodyParts stem c' docs = (leadingEdge c'.word, body, trailingEdge c'.word) ∧
              Laid docs first rest body := by
  have hwithin := c.within_keys stem
  have hspelled := spellable_of_mem_rows hfresh hwithin
  have hspell := Splice.rows_spell hkeys hwithin
  rw [c.spell_word] at hspell
  obtain ⟨t, ps, ht, hps, hput, hformat⟩ :=
    Markup.Html.exists_format hplain (by rw [hspell]; simpa using hrows)
  obtain ⟨⟨gap, first⟩, rs, hr⟩ := List.exists_cons_of_ne_nil hrows
  rw [hspell, hr, List.map_cons] at hput
  obtain ⟨hhead, htail⟩ := List.cons.inj hput
  obtain ⟨rest, hflush, rfl⟩ := Row.exists_put hps htail
  obtain ⟨rfl, rfl⟩ := Prod.mk.inj hhead
  have hwords : (false, first) :: rest.map Row.flush = c.word.rows := by rw [hflush, hr]
  rw [← hwords] at hspelled
  obtain ⟨hfirst, hrest⟩ := List.forall_mem_cons.mp hspelled
  rw [List.forall_mem_map] at hrest
  refine ⟨first, rest, hwords.symm, fun c' docs hc' hrows' hdocs => ?_⟩
  obtain ⟨hlaid, hclosed⟩ := laid_mapText hkeys hdocs hfirst hrest
  have hwithin' := c'.within_keys stem
  have hspell' := Splice.rows_spell (hc' ▸ hkeys) hwithin'
  rw [c'.spell_word, hrows', hc', ← hspell] at hspell'
  have hdoc {embedded : Bool} (hline : embedded = true → '\n' ∈ c'.aliased stem) :
      containerDoc stem embedded c' docs =
        (Doc.join (.text (first.spell (c.keys stem)) :: Row.parts (c.keys stem) rest)).mapText
          (splicedText (c.keys stem) docs) := by
    rw [containerDoc, hformat embedded (c'.aliased stem) hspell' hline, hc']
    rfl
  refine ⟨by rw [hdoc (by simp)]; exact hlaid, ?_⟩
  have hnewline : '\n' ∈ c'.aliased stem ↔ .char '\n' ∈ c'.word := by
    rw [← c'.spell_word]
    exact Splice.newline_mem_spell (hc' ▸ hkeys) hwithin'
  have hblank : Text.isBlank (c'.aliased stem) = false := by
    refine Bool.eq_false_iff.mpr fun hall => hrows ?_
    rw [Text.rows_of_isBlank hall, hspell] at hspell'
    exact List.map_eq_nil_iff.mp hspell'.symm
  have hbody (d : Doc) (b b' : Bool) (hd : Laid docs first rest d) (hclosed : d.Closed)
      (hdoc : containerDoc stem true c' docs =
        .join [Markup.Html.edgeDoc b, d, Markup.Html.edgeDoc b']) : ∃ body,
      Printer.bodyParts stem c' docs =
        (if b then .normal else .soft, body, if b' then .normal else .soft) ∧
          Laid docs first rest body := by
    obtain ⟨e, he, hsame, hforces, hempty⟩ := Printer.splitEdges_edges hclosed b b'
    refine ⟨e, ?_, hempty, hsame.trans hd.same, hforces.trans hd.forces⟩
    rw [Printer.bodyParts, hblank, hdoc]
    exact he
  by_cases hline : '\n' ∈ c'.aliased stem
  · have hmem := hnewline.mp hline
    rw [leadingEdge, trailingEdge, if_neg (by simp [hmem]), if_neg (by simp [hmem])]
    refine hbody _ false false hlaid hclosed ?_
    rw [hdoc fun _ => hline]
    exact (Printer.join_edges hclosed.isEmpty false false).symm
  · have hnotMem : .char '\n' ∉ c'.word := fun h => hline (hnewline.mpr h)
    -- the only row of a body on one line is the body without the white space at its ends
    have hone : Text.rows (c'.aliased stem) = [(false, Text.trim (c'.aliased stem))] := by
      rw [Text.rows, Text.lines_of_notMem hline, Rows.ofLines,
        show (c'.aliased stem).all isBlank = false from hblank]
      rfl
    rw [hone, hspell, ← hwords, List.map_cons] at hspell'
    obtain ⟨htrim, hnil⟩ := List.cons.inj hspell'
    obtain rfl : rest = [] := by simpa using hnil.symm
    obtain ⟨-, htrim⟩ := Prod.mk.inj htrim
    obtain ⟨hlaid, hclosed⟩ := laid_splicedText hkeys hdocs hfirst
    have hedges := hbody _ ((c'.aliased stem).head?.any isBlank)
        ((c'.aliased stem).getLast?.any isBlank)
      hlaid hclosed (by
        rw [containerDoc, Markup.Html.stripped_format hline hblank, hc', htrim]
        exact Printer.mapText_edges ht hclosed.isEmpty _ _)
    rw [← c'.spell_word, Splice.head?_spell (hc' ▸ hkeys) hwithin',
      Splice.getLast?_spell (hc' ▸ hkeys) hwithin'] at hedges
    rw [leadingEdge, trailingEdge]
    simpa only [hnotMem, not_false_eq_true, true_and] using hedges

end Laid

end TemplateFormat
