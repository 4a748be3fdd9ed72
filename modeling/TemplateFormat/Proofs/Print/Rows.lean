import TemplateFormat.Proofs.Doc.Replaced
import TemplateFormat.Proofs.Markup.Rowwise
import TemplateFormat.Proofs.Print.Edges
import TemplateFormat.Proofs.Splice.Rows

/-!
# Printed containers, row by row

The content of a container is formatted with placeholders for its children, and the printed children
are spliced in. What comes of it is a sequence of rows: the first, and the others behind it, each at
a level, with a blank line before it or not (`rowsDoc`). A row is printed symbol by symbol: its
characters, and the documents of the children in its slots.

Which rows there are and at which levels depends on the rows of the content alone, so containers
with the same rows are printed alike, whatever documents are put in their slots.

Results:
* `same_splicedText`: a spelled word, with documents in its slots.
* `laid_mapText`: the document of a text with placeholders, row by row.
-/

namespace TemplateFormat

open Doc (Same)

/-! ## Rows -/

/-- The document of a symbol, with the document `d i` in slot `i`. -/
def Symbol.doc (d : Nat → Doc) : Symbol → Doc
  | .char c => .text [c]
  | .slot i => d i

/-- The documents of the symbols of a word. -/
def Word.docs (d : Nat → Doc) (w : Word) : List Doc := w.map (Symbol.doc d)

/-- A row behind the first row of a container. -/
structure Row where
  /-- A blank line comes before it. -/
  gap : Bool
  /-- The number of elements that are open before it. -/
  level : Nat
  word : Word

namespace Row

/-- The row without its level. -/
def flush (r : Row) : Bool × Word := (r.gap, r.word)

/-- The document of a row: a line break or two, and its symbols. -/
def docs (d : Nat → Doc) (r : Row) : List Doc :=
  (if r.gap then [.hardline] else []) ++
    [Nat.iterate Doc.indent r.level (.concat (.hardline :: r.word.docs d))]

end Row

/-- The document of rows. -/
def rowsDoc (d : Nat → Doc) (first : Word) (rest : List Row) : Doc :=
  .concat (first.docs d ++ rest.flatMap (Row.docs d))

/-! ## Words with documents in their slots -/

section Word

variable {source : Text} {keys : List Text} {docs : List Doc} {w : Word}

/-- The pieces of a word are its symbols, put together. -/
theorem same_group (docs : List Doc) (w : Word) : Same (.concat (w.group.map (pieceDoc docs)))
    (.concat (w.docs fun i => docs.getD i .empty)) := by
  induction w with
  | nil => exact .refl _
  | cons x w ih =>
    cases x with
    | slot i => exact (Same.refl _).cons ih
    | char c =>
      rw [Word.group]
      unfold Splice.consChar
      split
      · rename_i t ps hgroup
        rw [hgroup] at ih
        have hsplit : Same (.ofText (c :: t)) (.concat [.text [c], .ofText t]) :=
          (Doc.same_texts [c] t).trans
            ((Same.refl _).cons ((Doc.same_ofText t).symm.cons (.refl _)))
        have hcons := ((Same.singleton _).trans hsplit).append
            (Same.refl (.concat (ps.map (pieceDoc docs))))
        exact hcons.trans ((Same.refl (.text [c])).cons ih)
      · exact (Same.refl _).cons ih

/-- The pieces of a word are texts and slots. -/
theorem mem_group {piece : Splice.Piece} (h : piece ∈ w.group) :
    (∃ t, t ≠ [] ∧ piece = .literal t) ∨ ∃ i, .slot i ∈ w ∧ piece = .slot i := by
  induction w generalizing piece with
  | nil => exact absurd h List.not_mem_nil
  | cons x w ih =>
    have hrest {piece : Splice.Piece} (h : piece ∈ Word.group w) :
        (∃ t, t ≠ [] ∧ piece = .literal t) ∨ ∃ i, .slot i ∈ x :: w ∧ piece = .slot i :=
      (ih h).imp id fun ⟨i, hi, he⟩ => ⟨i, List.mem_cons_of_mem x hi, he⟩
    cases x with
    | slot i =>
      rcases List.mem_cons.mp h with rfl | h
      · exact .inr ⟨i, List.mem_cons_self, rfl⟩
      · exact hrest h
    | char c =>
      rw [Word.group] at h
      unfold Splice.consChar at h
      split at h
      · rename_i t ps hgroup
        rcases List.mem_cons.mp h with rfl | h
        · exact .inl ⟨_, List.cons_ne_nil c t, rfl⟩
        · exact hrest (hgroup ▸ List.mem_cons_of_mem _ h)
      · rcases List.mem_cons.mp h with rfl | h
        · exact .inl ⟨_, List.cons_ne_nil c [], rfl⟩
        · exact hrest h

/-- What forces a break among the pieces of a word. -/
theorem any_forcesBreak_group (docs : List Doc) (w : Word) :
    (w.group.map (pieceDoc docs)).any Doc.forcesBreak =
      w.slots.any fun i => (docs.getD i .empty).forcesBreak := by
  have htext (t : Text) : (Doc.ofText t).forcesBreak = false := by
    unfold Doc.ofText
    split <;> rw [Doc.forcesBreak]
  induction w with
  | nil => rfl
  | cons x w ih =>
    cases x with
    | slot i =>
      rw [Word.group, List.map_cons, List.any_cons, ih]
      rfl
    | char c =>
      have hslots : Word.slots (.char c :: w) = Word.slots w := rfl
      rw [hslots, ← ih, Word.group]
      unfold Splice.consChar
      split
      · rename_i t ps hgroup
        rw [hgroup, List.map_cons, List.map_cons, List.any_cons, List.any_cons]
        simp only [pieceDoc, htext]
      · rw [List.map_cons, List.any_cons]
        simp only [pieceDoc, htext, Bool.false_or]

end Word

/-- The document starts with a text and does not end with a normal line break, and if it is a
sequence, each of its parts prints something. -/
structure Doc.Closed (d : Doc) : Prop where
  head : ∃ t, d.items.head? = some (.text t)
  last : d.items.getLast? ≠ some (.line .normal)
  neat : ∀ ds, d = .concat ds → ∀ e ∈ ds, e.isEmpty = false

theorem Doc.Closed.items_ne_nil {d : Doc} (h : d.Closed) : d.items ≠ [] := by
  obtain ⟨t, ht⟩ := h.head
  intro hnil
  rw [hnil] at ht
  exact absurd ht (by simp)

theorem Doc.Closed.isEmpty {d : Doc} (h : d.Closed) : d.isEmpty = false :=
  Doc.isEmpty_of_items_ne_nil h.items_ne_nil

/-- A sequence of closed documents. -/
theorem Doc.closed_join {ds : List Doc} (hne : ds ≠ []) (h : ∀ d ∈ ds, d.Closed) :
    (join ds).Closed := by
  refine ⟨?_, ?_, fun es hes => ?_⟩
  · obtain ⟨d, ds, rfl⟩ := List.exists_cons_of_ne_nil hne
    have hd := h d List.mem_cons_self
    obtain ⟨t, ht⟩ := hd.head
    exact ⟨t, by rw [items_join, List.flatMap_cons, List.head?_append_of_ne_nil _ hd.items_ne_nil,
      ht]⟩
  · obtain ⟨ds, d, rfl⟩ := (List.eq_nil_or_concat ds).resolve_left hne
    rw [List.concat_eq_append] at h ⊢
    have hd := h d (List.mem_append_right _ (List.mem_singleton_self d))
    rw [items_join, List.flatMap_append, List.flatMap_singleton,
      List.getLast?_append_of_ne_nil _ hd.items_ne_nil]
    exact hd.last
  · have hshown : ∀ d ∈ ds, d.isEmpty = false := fun d hd => (h d hd).isEmpty
    rcases ds with _ | ⟨d, _ | ⟨d', ds⟩⟩
    · exact absurd rfl hne
    · rw [join, filter_shown hshown] at hes
      exact (h d List.mem_cons_self).neat es hes
    · rw [join_of_shown hshown (by simp)] at hes
      obtain rfl := concat.inj hes
      exact hshown

theorem Doc.closed_text {t : Text} (h : t ≠ []) : (ofText t).Closed := by
  have htext : (ofText t).items = [.text t] := by
    rw [ofText, if_neg (by simpa using h), items_text h]
  refine ⟨⟨t, by rw [htext]; rfl⟩, by rw [htext]; simp, fun es hes => ?_⟩
  rw [ofText, if_neg (by simpa using h)] at hes
  exact absurd hes (by simp)

section Spliced

variable {source : Text} {keys : List Text} {docs : List Doc} {w : Word}

theorem closed_pieces (hw : w.Within keys.length)
    (hdocs : ∀ i < keys.length, (docs.getD i .empty).Closed) :
    ∀ d ∈ w.group.map (pieceDoc docs), d.Closed := by
  intro d hd
  obtain ⟨piece, hpiece, rfl⟩ := List.mem_map.mp hd
  rcases mem_group hpiece with ⟨t, ht, rfl⟩ | ⟨i, hi, rfl⟩
  · exact Doc.closed_text ht
  · exact hdocs i (hw i hi)

variable (hkeys : Splice.IsKeys source keys) (hfresh : w.Fresh source) (hw : w.Within keys.length)

include hkeys hfresh hw

/-- **A spelled word**, with documents in its slots. -/
theorem same_splicedText (docs : List Doc) : Same (splicedText keys docs (w.spell keys))
    (.concat (w.docs fun i => docs.getD i .empty)) := by
  rw [splicedText, Splice.pieces_spell hkeys hfresh hw]
  exact (Doc.same_join _).trans (same_group docs w)

variable (hdocs : ∀ i < keys.length, (docs.getD i .empty).Closed)

include hdocs

theorem closed_splicedText (hne : w ≠ []) : (splicedText keys docs (w.spell keys)).Closed := by
  rw [splicedText, Splice.pieces_spell hkeys hfresh hw]
  refine Doc.closed_join (fun hnil => ?_) (closed_pieces hw hdocs)
  have hlen := congrArg (·.flatMap (Splice.Piece.restore fun _ => ['_']))
      (List.map_eq_nil_iff.mp hnil)
  simp only [Word.restore_group, List.flatMap_nil] at hlen
  obtain ⟨x, w, rfl⟩ := List.exists_cons_of_ne_nil hne
  cases x <;> exact absurd hlen (by simp [Word.restore])

theorem forcesBreak_splicedText : (splicedText keys docs (w.spell keys)).forcesBreak =
    w.slots.any fun i => (docs.getD i .empty).forcesBreak := by
  rw [splicedText, Splice.pieces_spell hkeys hfresh hw, Doc.forcesBreak_join,
    any_forcesBreak_group]
  intro d hd hempty
  rw [(closed_pieces hw hdocs d hd).isEmpty] at hempty
  exact absurd hempty (by decide)

end Spliced

/-! ## The body of a block -/

namespace Printer

open Doc

/-- Marking groups takes off the same line breaks. -/
theorem splitEdges_propagate (d : Doc) : splitEdges d.propagate =
    ((splitEdges d).1, (splitEdges d).2.1.propagate, (splitEdges d).2.2) := by
  have hline (d : Doc) : d.propagate.isLine .normal = d.isLine .normal := by
    cases d <;> rw [propagate] <;> rfl
  cases d with
  | concat ds =>
    have hhead (ds : List Doc) : (ds.map propagate).head?.any (isLine .normal) =
        ds.head?.any (isLine .normal) := by
      rw [List.head?_map, Option.any_map]
      exact congrArg (Option.any · ds.head?) (funext hline)
    have hlast (ds : List Doc) : (ds.map propagate).getLast?.any (isLine .normal) =
        ds.getLast?.any (isLine .normal) := by
      rw [List.getLast?_map, Option.any_map]
      exact congrArg (Option.any · ds.getLast?) (funext hline)
    have htail (b : Bool) (ds : List Doc) :
        (if b then (ds.map propagate).tail else ds.map propagate) =
          (if b then ds.tail else ds).map propagate := by
      cases b
      · rfl
      · exact (List.map_tail ..).symm
    have hdrop (b : Bool) (ds : List Doc) :
        (if b then (ds.map propagate).dropLast else ds.map propagate) =
          (if b then ds.dropLast else ds).map propagate := by
      cases b
      · rfl
      · exact (List.map_dropLast ..).symm
    rw [propagate, propagateAll_eq_map]
    simp only [splitEdges, hhead, htail, hlast, hdrop]
    rw [← propagateAll_eq_map, join_propagateAll]
  | empty => rw [propagate]; rfl
  | text t => rw [propagate]; rfl
  | indent d => rw [propagate]; rfl
  | group d broken => rw [propagate]; rfl
  | line kind => rw [propagate]; rfl

/-- A closed document has no line breaks at its ends that are taken off. -/
theorem splitEdges_of_closed {d : Doc} (h : d.Closed) : ∃ e, splitEdges d = (.soft, e, .soft) ∧
    Same e d ∧ e.forcesBreak = d.forcesBreak ∧ e.isEmpty = false := by
  have hself (he : splitEdges d = (.soft, d, .soft)) : ∃ e, splitEdges d = (.soft, e, .soft) ∧
      Same e d ∧ e.forcesBreak = d.forcesBreak ∧ e.isEmpty = false :=
    ⟨d, he, .refl d, rfl, h.isEmpty⟩
  cases d with
  | concat ds =>
    have hhead : ds.head?.any (isLine .normal) = false := by
      rcases ds with _ | ⟨e, ds⟩
      · rfl
      · by_contra he
        rw [List.head?_cons, Option.any_some, Bool.not_eq_false] at he
        obtain ⟨t, ht⟩ := h.head
        rw [eq_line_of_isLine he, items_concat, List.flatMap_cons, items_line] at ht
        exact absurd ht (by simp)
    have hlast : ds.getLast?.any (isLine .normal) = false := by
      rcases List.eq_nil_or_concat ds with rfl | ⟨ds, e, rfl⟩
      · rfl
      · by_contra he
        rw [List.concat_eq_append, List.getLast?_concat, Option.any_some, Bool.not_eq_false] at he
        have hlast := h.last
        rw [eq_line_of_isLine he, List.concat_eq_append, items_concat, List.flatMap_append,
          List.flatMap_singleton, items_line, List.getLast?_concat] at hlast
        exact hlast rfl
    have hsplit : splitEdges (.concat ds) = (.soft, join ds, .soft) := by
      simp only [splitEdges, hhead, hlast, Bool.false_eq_true, if_false]
    have hshown := h.neat ds rfl
    refine ⟨join ds, hsplit, same_join ds, ?_, ?_⟩
    · rw [forcesBreak_join fun d hd he => absurd (hshown d hd) (by simp [he]), forcesBreak,
        anyForces_eq_any]
    · refine isEmpty_of_items_ne_nil ?_
      rw [items_join, ← items_concat]
      exact h.items_ne_nil
  | empty => exact hself rfl
  | text t => exact hself rfl
  | indent d => exact hself rfl
  | group d broken => exact hself rfl
  | line kind => exact hself rfl

end Printer

/-! ## Containers -/

namespace Row

/-- What the layout puts for a row. -/
def put (keys : List Text) (r : Row) : Markup.Put := .line r.gap r.level (r.word.spell keys)

/-- Lines that are put for rows are put at levels. -/
theorem exists_put {keys : List Text} : ∀ {ps : List Markup.Put} {rs : List (Bool × Word)},
    (∀ p ∈ ps, p.IsLine) → ps.map Markup.Put.row = rs.map (Prod.map id (Word.spell keys)) →
      ∃ rest : List Row, rest.map flush = rs ∧ ps = rest.map (put keys)
  | [], rs, _, h => ⟨[], (List.map_eq_nil_iff.mp h.symm).symm, rfl⟩
  | p :: ps, [], _, h => absurd h (by simp)
  | p :: ps, (gap, w) :: rs, hlines, h => by
    obtain ⟨⟨gap', level, text, rfl, -⟩, hps⟩ := List.forall_mem_cons.mp hlines
    obtain ⟨hp, hrest⟩ := List.cons.inj h
    obtain ⟨rest, hflush, rfl⟩ := exists_put hps hrest
    obtain ⟨rfl, rfl⟩ := Prod.mk.inj hp
    exact ⟨⟨gap', level, w⟩ :: rest, by rw [List.map_cons, hflush]; rfl, rfl⟩

variable {keys : List Text} {f : Text → Doc} {d : Nat → Doc} {r : Row}

/-- A line with its text replaced. -/
theorem same_lineDoc (level : Nat) {t : Text} (ht : t ≠ []) {ds : List Doc}
    (h : Same (f t) (.concat ds)) : Same ((Markup.Layout.lineDoc level t).mapText f)
      (Nat.iterate Doc.indent level (.concat (.hardline :: ds))) := by
  induction level with
  | zero =>
    rw [Markup.Layout.lineDoc_zero ht, Doc.mapText, Doc.mapTextAll, Doc.mapTextAll, Doc.mapTextAll,
      Doc.hardline, Doc.mapText, Doc.mapText]
    exact (Same.refl _).cons ((Same.singleton _).trans h)
  | succ level ih =>
    rw [Markup.Layout.lineDoc_succ, Function.iterate_succ_apply', Doc.mapText]
    exact ih.indent

/-- **A row with its text replaced.** -/
theorem same_docs (hne : r.word.spell keys ≠ [])
    (h : Same (f (r.word.spell keys)) (.concat (r.word.docs d))) :
    Same (.concat ((r.put keys).parts.map (Doc.mapText f))) (.concat (r.docs d)) := by
  have hline : Same
      (.concat ((Markup.Layout.lineDoc r.level (r.word.spell keys)).parts.map (Doc.mapText f)))
      (.concat [Nat.iterate Doc.indent r.level (.concat (.hardline :: r.word.docs d))]) := by
    refine Same.trans ?_ ((same_lineDoc r.level hne h).trans (Same.singleton _).symm)
    generalize Markup.Layout.lineDoc r.level (r.word.spell keys) = e
    cases e with
    | concat ds =>
      rw [Doc.parts, Doc.mapText, Doc.mapTextAll_eq_map]
      exact .refl _
    | empty => exact .singleton _
    | text t => exact .singleton _
    | indent e => exact .singleton _
    | group e broken => exact .singleton _
    | line kind => exact .singleton _
  have hparts : (r.put keys).parts = (if r.gap then [.hardline] else []) ++
      (Markup.Layout.lineDoc r.level (r.word.spell keys)).parts := by
    rw [put, Markup.Put.parts, Markup.Put.docs]
    cases r.gap <;> simp [Doc.parts, Doc.hardline]
  rw [hparts, List.map_append, docs]
  refine Same.append ?_ hline
  cases r.gap
  · exact .refl _
  · simp only [if_true, List.map_singleton, Doc.hardline, Doc.mapText]
    exact .refl _

end Row

/-! ### Marking groups -/

theorem Doc.Closed.propagate {d : Doc} (h : d.Closed) : d.propagate.Closed := by
  refine ⟨by rw [items_propagate]; exact h.head, by rw [items_propagate]; exact h.last, ?_⟩
  intro ds hds e he
  cases d with
  | concat es =>
    rw [Doc.propagate, propagateAll_eq_map] at hds
    obtain ⟨e', he', rfl⟩ := List.mem_map.mp (concat.inj hds ▸ he)
    rw [isEmpty_propagate]
    exact h.neat es rfl e' he'
  | _ => exact absurd hds (by simp [Doc.propagate])

theorem getD_map_propagate (docs : List Doc) (i : Nat) :
    (docs.map Doc.propagate).getD i .empty = (docs.getD i .empty).propagate := by
  rw [List.getD_eq_getElem?_getD, List.getD_eq_getElem?_getD, List.getElem?_map]
  cases docs[i]? with
  | none =>
    show Doc.empty = Doc.empty.propagate
    rw [Doc.propagate]
  | some d => rfl

theorem propagate_splicedText (keys : List Text) (docs : List Doc) (t : Text) :
    (splicedText keys docs t).propagate = splicedText keys (docs.map Doc.propagate) t := by
  have hpiece (piece : Splice.Piece) :
      (pieceDoc docs piece).propagate = pieceDoc (docs.map Doc.propagate) piece := by
    cases piece with
    | literal t =>
      show (Doc.ofText t).propagate = .ofText t
      unfold Doc.ofText
      split <;> rw [Doc.propagate]
    | slot i => exact (getD_map_propagate docs i).symm
  rw [splicedText, ← Doc.join_propagateAll, Doc.propagateAll_eq_map, List.map_map, splicedText]
  exact congrArg Doc.join (List.map_congr_left fun piece _ => hpiece piece)

theorem groupless_parts {p : Markup.Put} (h : p.IsLine) : ∀ d ∈ p.parts, d.groupless = true := by
  obtain ⟨gap, level, text, rfl, htext⟩ := h
  have hline : ∀ d ∈ (Markup.Layout.lineDoc level text).parts, d.groupless = true := by
    cases level with
    | zero =>
      rw [Markup.Layout.lineDoc_zero htext]
      simp [Doc.parts, Doc.hardline, Doc.groupless]
    | succ level =>
      have hlevel : (Markup.Layout.lineDoc level text).groupless = true := by
        induction level with
        | zero =>
          rw [Markup.Layout.lineDoc_zero htext]
          rfl
        | succ level ih =>
          rw [Markup.Layout.lineDoc_succ, Doc.groupless]
          exact ih
      rw [Markup.Layout.lineDoc_succ]
      simpa [Doc.parts, Doc.groupless] using hlevel
  intro d hd
  rw [Markup.Put.parts, Markup.Put.docs, List.flatMap_append, List.flatMap_singleton] at hd
  rcases List.mem_append.mp hd with hd | hd
  · cases gap
    · exact absurd hd (by simp)
    · rw [List.mem_singleton.mp hd]
      rfl
  · exact hline d hd

/-! ### What is spliced -/

/-- The document is made of the rows, with the documents in their slots. -/
structure Laid (docs : List Doc) (first : Word) (rest : List Row) (d : Doc) : Prop where
  isEmpty : d.isEmpty = false
  same : Same d.propagate (rowsDoc (fun i => (docs.getD i .empty).propagate) first rest)
  forces : d.forcesBreak =
    (!rest.isEmpty || first.slots.any fun i => (docs.getD i .empty).forcesBreak)

section Laid

variable {source : Text} {keys : List Text} {docs : List Doc} {first : Word} {rest : List Row}

/-- A word that can be spelled, and what it is spelled to can be cut again. -/
structure Word.Spellable (source : Text) (keys : List Text) (w : Word) : Prop where
  fresh : w.Fresh source
  within : w.Within keys.length
  ne_nil : w ≠ []

theorem Word.Spellable.spell_ne_nil {w : Word} (hkeys : Splice.IsKeys source keys)
    (h : w.Spellable source keys) : w.spell keys ≠ [] := by
  obtain ⟨x, w, rfl⟩ := List.exists_cons_of_ne_nil h.ne_nil
  cases x with
  | char c => simp [Word.spell_char]
  | slot i =>
    obtain ⟨t, ht⟩ := hkeys.spell_slot h.within.lt w
    rw [ht]
    simp

variable (hkeys : Splice.IsKeys source keys) (hdocs : ∀ i < keys.length,
    (docs.getD i .empty).Closed)
  (hfirst : first.Spellable source keys)

include hkeys hdocs hfirst

/-- **One row.** -/
theorem laid_splicedText : Laid docs first [] (splicedText keys docs (first.spell keys)) ∧
    (splicedText keys docs (first.spell keys)).Closed := by
  have hclosed := closed_splicedText hkeys hfirst.fresh hfirst.within hdocs hfirst.ne_nil
  refine ⟨⟨hclosed.isEmpty, ?_, ?_⟩, hclosed⟩
  · rw [propagate_splicedText, rowsDoc, List.flatMap_nil, List.append_nil]
    have hsame := same_splicedText hkeys hfirst.fresh hfirst.within (docs.map Doc.propagate)
    simpa only [getD_map_propagate] using hsame
  · rw [forcesBreak_splicedText hkeys hfirst.fresh hfirst.within hdocs]
    rfl

end Laid

namespace Row

open Doc
open Markup (Put)

variable {source : Text} {keys : List Text} {docs : List Doc} {rest : List Row}

/-- The parts of the documents of rows. -/
def parts (keys : List Text) (rest : List Row) : List Doc := (rest.map (put keys)).flatMap Put.parts

theorem mem_parts {d : Doc} (h : ∀ r ∈ rest, r.word.spell keys ≠ []) (hd : d ∈ parts keys rest) :
    d = hardline ∨ (∃ r ∈ rest, d = .text (r.word.spell keys)) ∨
      ∃ level t, d = .indent (Markup.Layout.lineDoc level t) := by
  obtain ⟨p, hp, hd⟩ := List.mem_flatMap.mp hd
  obtain ⟨r, hr, rfl⟩ := List.mem_map.mp hp
  have hline : d ∈ (Markup.Layout.lineDoc r.level (r.word.spell keys)).parts →
      d = hardline ∨ (∃ r ∈ rest, d = .text (r.word.spell keys)) ∨
        ∃ level t, d = .indent (Markup.Layout.lineDoc level t) := by
    intro hd
    cases hlevel : r.level with
    | zero =>
      rw [hlevel, Markup.Layout.lineDoc_zero (h r hr)] at hd
      rcases List.mem_cons.mp hd with rfl | hd
      · exact .inl rfl
      · exact .inr (.inl ⟨r, hr, List.mem_singleton.mp hd⟩)
    | succ level =>
      rw [hlevel, Markup.Layout.lineDoc_succ] at hd
      exact .inr (.inr ⟨level, _, List.mem_singleton.mp hd⟩)
  rw [put, Put.parts, Put.docs, List.flatMap_append, List.flatMap_singleton] at hd
  rcases List.mem_append.mp hd with hd | hd
  · cases hgap : r.gap with
    | false => exact absurd hd (by simp [hgap])
    | true =>
      rw [hgap] at hd
      exact .inl (List.mem_singleton.mp hd)
  · exact hline hd

theorem items_parts (keys : List Text) (r : Row) : ∃ breaks,
    ((r.put keys).parts).flatMap Doc.items =
    breaks ++ .line .hard :: (Doc.ofText (r.word.spell keys)).items := by
  refine ⟨if r.gap then [.line .hard] else [], ?_⟩
  rw [put, Put.parts, Put.docs, List.flatMap_append, List.flatMap_append, List.flatMap_singleton,
    Doc.items_parts, Markup.Layout.items_lineDoc]
  cases r.gap <;> simp [Doc.parts, hardline]

end Row

section Laid

open Doc

variable {source : Text} {keys : List Text} {docs : List Doc} {first : Word} {rest : List Row}
  (hkeys : Splice.IsKeys source keys) (hdocs : ∀ i < keys.length, (docs.getD i .empty).Closed)
  (hfirst : first.Spellable source keys) (hrest : ∀ r ∈ rest, r.word.Spellable source keys)

include hkeys hrest

theorem same_parts_rows (docs : List Doc) :
    Same (.concat ((Row.parts keys rest).map (mapText (splicedText keys docs))))
      (.concat (rest.flatMap (Row.docs fun i => docs.getD i .empty))) := by
  induction rest with
  | nil => exact .refl _
  | cons r rest ih =>
    obtain ⟨hr, hrest⟩ := List.forall_mem_cons.mp hrest
    rw [Row.parts, List.map_cons, List.flatMap_cons, List.map_append, List.flatMap_cons]
    exact (Row.same_docs (hr.spell_ne_nil hkeys)
      (same_splicedText hkeys hr.fresh hr.within docs)).append (ih hrest)

include hdocs

theorem isEmpty_parts : ∀ d ∈ Row.parts keys rest, d.isEmpty = false ∧
    (d.mapText (splicedText keys docs)).isEmpty = false := by
  intro d hd
  have hindent (level : Nat) (t : Text) :
      ∀ f : Text → Doc, (f []).items = [] →
        ((Markup.Layout.lineDoc level t).mapText f).isEmpty = false := by
    intro f hf
    refine isEmpty_of_items_ne_nil ?_
    rw [items_mapText hf, Markup.Layout.items_lineDoc]
    exact List.cons_ne_nil _ _
  rcases Row.mem_parts (fun r hr => (hrest r hr).spell_ne_nil hkeys) hd with
    rfl | ⟨r, hr, rfl⟩ | ⟨level, t, rfl⟩
  · exact ⟨rfl, by rw [hardline, mapText]; rfl⟩
  · have hr := hrest r hr
    refine ⟨by simpa [Doc.isEmpty] using hr.spell_ne_nil hkeys, ?_⟩
    rw [mapText]
    exact (closed_splicedText hkeys hr.fresh hr.within hdocs hr.ne_nil).isEmpty
  · refine ⟨isEmpty_lineDoc level t, ?_⟩
    rw [mapText]
    exact hindent level t _ (items_splicedText_nil keys docs)

include hfirst

/-- **The rows of a container**, spliced. -/
theorem laid_mapText : Laid docs first rest
      ((join (.text (first.spell keys) :: Row.parts keys rest)).mapText (splicedText keys docs)) ∧
    ((join (.text (first.spell keys) :: Row.parts keys rest)).mapText
      (splicedText keys docs)).Closed := by
  have hne := hfirst.spell_ne_nil hkeys
  obtain ⟨hone, hclosed⟩ := laid_splicedText hkeys hdocs hfirst
  have hshown : ∀ d ∈ Doc.text (first.spell keys) :: Row.parts keys rest, d.isEmpty = false :=
    List.forall_mem_cons.mpr ⟨by simpa [Doc.isEmpty] using hne,
      fun d hd => (isEmpty_parts hkeys hdocs hrest d hd).1⟩
  rcases List.eq_nil_or_concat rest with rfl | ⟨rows, r, rfl⟩
  · rw [Row.parts, List.map_nil, List.flatMap_nil, join, filter_shown (List.forall_mem_singleton.mpr
      (hshown _ List.mem_cons_self)), mapText]
    exact ⟨hone, hclosed⟩
  · rw [List.concat_eq_append] at *
    have hparts : Row.parts keys (rows ++ [r]) = Row.parts keys rows ++ (r.put keys).parts := by
      rw [Row.parts, List.map_append, List.flatMap_append, List.map_singleton,
        List.flatMap_singleton, Row.parts]
    have hpart : (r.put keys).parts ≠ [] := fun hnil => by
      obtain ⟨breaks, hitems⟩ := r.items_parts keys
      rw [hnil] at hitems
      exact absurd hitems (by simp)
    have hjoin : join (.text (first.spell keys) :: Row.parts keys (rows ++ [r])) =
        .concat (.text (first.spell keys) :: Row.parts keys (rows ++ [r])) := by
      refine join_of_shown hshown ?_
      have hpos := List.length_pos_iff.mpr hpart
      rw [hparts, List.length_cons, List.length_append]
      omega
    have hr := hrest r (by simp)
    have hlast := closed_splicedText hkeys hr.fresh hr.within hdocs hr.ne_nil
    have hnil := items_splicedText_nil keys docs
    -- the items end with those of the last row
    obtain ⟨breaks, hbreaks⟩ := r.items_parts keys
    have hitems : ∃ is, (join (.text (first.spell keys) :: Row.parts keys (rows ++ [r]))).items =
        .text (first.spell keys) :: (is ++ .line .hard :: [.text (r.word.spell keys)]) := by
      refine ⟨(Row.parts keys rows).flatMap Doc.items ++ breaks, ?_⟩
      rw [items_join, List.flatMap_cons, items_text hne, hparts, List.flatMap_append, hbreaks,
        items_ofText, items_text (hr.spell_ne_nil hkeys), List.append_assoc]
      rfl
    obtain ⟨is, hitems⟩ := hitems
    have hclosed' : ((join (.text (first.spell keys) :: Row.parts keys (rows ++ [r]))).mapText
        (splicedText keys docs)).Closed := by
      refine ⟨?_, ?_, fun es hes => ?_⟩
      · obtain ⟨t, ht⟩ := hclosed.head
        refine ⟨t, ?_⟩
        rw [items_mapText hnil, hitems, List.flatMap_cons, itemsWith,
          List.head?_append_of_ne_nil _ hclosed.items_ne_nil]
        exact ht
      · rw [items_mapText hnil, hitems, List.flatMap_cons, List.flatMap_append, List.flatMap_cons,
          List.flatMap_singleton, ← List.append_assoc, ← List.append_assoc, itemsWith.eq_1 _ _,
          itemsWith.eq_1 _ (Word.spell keys r.word),
          List.getLast?_append_of_ne_nil _ hlast.items_ne_nil]
        exact hlast.last
      · rw [hjoin, mapText, mapTextAll_eq_map] at hes
        obtain rfl := concat.inj hes
        exact List.forall_mem_map.mpr (List.forall_mem_cons.mpr
          ⟨by rw [mapText]; exact hclosed.isEmpty,
            fun d hd => (isEmpty_parts hkeys hdocs hrest d hd).2⟩)
    refine ⟨⟨hclosed'.isEmpty, ?_, ?_⟩, hclosed'⟩
    · have hgroupless : (join (.text (first.spell keys) :: Row.parts keys (rows ++
        [r]))).groupless =
          true := by
        refine groupless_join (List.forall_mem_cons.mpr ⟨rfl, fun d hd => ?_⟩)
        obtain ⟨p, hp, hd⟩ := List.mem_flatMap.mp hd
        obtain ⟨row, hrow, rfl⟩ := List.mem_map.mp hp
        exact groupless_parts ⟨_, _, _, rfl, (hrest row hrow).spell_ne_nil hkeys⟩ d hd
      rw [propagate_mapText _ hgroupless,
        show (fun t => (splicedText keys docs t).propagate) =
          splicedText keys (docs.map Doc.propagate) from funext (propagate_splicedText keys docs)]
      refine (same_mapText_join hshown).trans ?_
      have hfirstRow := same_splicedText hkeys hfirst.fresh hfirst.within (docs.map Doc.propagate)
      have hrows := same_parts_rows hkeys hrest (docs.map Doc.propagate)
      simp only [getD_map_propagate] at hfirstRow hrows
      rw [List.map_cons, mapText]
      exact ((Same.singleton _).trans hfirstRow).append hrows
    · have hforces := forcesBreak_of_items (show Line.hard.isForced = true from rfl)
        (join (.text (first.spell keys) :: Row.parts keys (rows ++ [r]))) (by rw [hitems]; simp)
      rw [forcesBreak_mapText, hforces]
      simp

end Laid

end TemplateFormat
