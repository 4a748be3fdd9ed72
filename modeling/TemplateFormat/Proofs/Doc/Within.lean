import TemplateFormat.Doc.Render
import TemplateFormat.Proofs.Doc.Flat
import Mathlib.Data.List.DropRight
import Mathlib.Data.List.Infix
import Mathlib.Data.List.TakeWhile

/-!
# Documents in documents

`Doc.Within d e` says that `d` is a part of `e`. Building a document around a part keeps it, and the
renderer comes to every part of a document with some indentation: what is on the stack is taken off
it sooner or later. Of the output only the spaces and tabs at its end can still be dropped; the rest
is `Output.settled`, and no later step changes it.

Results:
* `Within.join`, `Within.mapText`, `Within.propagate`: parts of documents that are built.
* `settled_step`, `settled_run`: what is settled stays.
* `run_within`: every part of a document has its turn.
* `run_verbatimLines`: lines that are never dropped are all in the output.
* `Doc.verbatim_isInfix_render`: so are those of a part of a document, one after the other.
-/

namespace TemplateFormat

namespace Doc

/-- The document is a part of another one, or all of it. -/
inductive Within (d : Doc) : Doc → Prop
  | refl : Within d d
  | concat {e : Doc} {ds : List Doc} (he : e ∈ ds) (h : Within d e) : Within d (.concat ds)
  | indent {e : Doc} (h : Within d e) : Within d (.indent e)
  | group {e : Doc} {broken : Bool} (h : Within d e) : Within d (.group e broken)

namespace Within

variable {d e : Doc}

/-- The items of a part are among those of the whole. -/
theorem items_isInfix (h : Within d e) : d.items <:+: e.items := by
  induction h with
  | refl => exact List.infix_rfl
  | concat he _ ih =>
    obtain ⟨ds, ds', rfl⟩ := List.append_of_mem he
    rw [items_concat, List.flatMap_append, List.flatMap_cons]
    exact (ih.trans List.infix_append_left).trans List.infix_append_right
  | indent _ ih => rwa [items_indent]
  | group _ ih => rwa [items_group]

theorem isEmpty_eq_false (h : Within d e) (hd : d.isEmpty = false) : e.isEmpty = false := by
  by_contra hne
  rw [Bool.not_eq_false, isEmpty_iff_items] at hne
  have hnil := h.items_isInfix
  rw [hne, List.infix_nil, ← isEmpty_iff_items, hd] at hnil
  exact absurd hnil (by decide)

/-- **A part that prints something is not left out.** -/
theorem join {ds : List Doc} (hd : d.isEmpty = false) (he : e ∈ ds) (h : Within d e) :
    Within d (Doc.join ds) := by
  have hmem : e ∈ ds.filter fun d => !d.isEmpty := by
    rw [List.mem_filter, h.isEmpty_eq_false hd]
    exact ⟨he, rfl⟩
  unfold Doc.join
  split
  · rename_i hnil
    rw [hnil] at hmem
    exact absurd hmem List.not_mem_nil
  · rename_i hsingle
    rw [hsingle, List.mem_singleton] at hmem
    exact hmem ▸ h
  · exact .concat hmem h

theorem nest (hd : d.isEmpty = false) (h : Within d e) : Within d e.nest := by
  rw [Doc.nest, h.isEmpty_eq_false hd]
  exact .indent h

mutual

/-- A part of what a text becomes is a part of the document with that text. -/
theorem mapText {f : Text → Doc} {t : Text} (hf : Within d (f t)) : ∀ e : Doc, t ∈ e.leaves →
    Within d (e.mapText f)
  | .empty, ht => by simp [leaves] at ht
  | .text s, ht => by
    rw [leaves, List.mem_singleton] at ht
    rw [Doc.mapText, ← ht]
    exact hf
  | .concat ds, ht => by
    rw [leaves] at ht
    rw [Doc.mapText]
    obtain ⟨e, he, h⟩ := mapTextAll hf ds ht
    exact .concat he h
  | .indent e, ht => by
    rw [leaves] at ht
    rw [Doc.mapText]
    exact .indent (mapText hf e ht)
  | .group e broken, ht => by
    rw [leaves] at ht
    rw [Doc.mapText]
    exact .group (mapText hf e ht)
  | .line kind, ht => by simp [leaves] at ht

theorem mapTextAll {f : Text → Doc} {t : Text} (hf : Within d (f t)) : ∀ es : List Doc,
    t ∈ leavesAll es → ∃ e ∈ Doc.mapTextAll f es, Within d e
  | [], ht => by simp [leavesAll] at ht
  | e :: es, ht => by
    rw [leavesAll, List.mem_append] at ht
    rw [Doc.mapTextAll]
    rcases ht with ht | ht
    · exact ⟨_, List.mem_cons_self, mapText hf e ht⟩
    · obtain ⟨e', he', h⟩ := mapTextAll hf es ht
      exact ⟨e', List.mem_cons_of_mem _ he', h⟩

end

theorem mem_propagateAll {ds : List Doc} (h : e ∈ ds) : e.propagate ∈ propagateAll ds := by
  induction h with
  | head => exact List.mem_cons_self
  | tail _ _ ih => exact List.mem_cons_of_mem _ ih

theorem propagate (h : Within d e) : Within d.propagate e.propagate := by
  induction h with
  | refl => exact .refl
  | concat he _ ih =>
    rw [Doc.propagate]
    exact .concat (mem_propagateAll he) ih
  | indent _ ih =>
    rw [Doc.propagate]
    exact .indent ih
  | group _ ih =>
    rw [Doc.propagate]
    exact .group ih

end Within

end Doc

namespace Render

open Doc (Within)

/-! ## What stays in the output -/

/-- The output without the spaces and tabs at its end, the latest character first. -/
def Output.settled (o : Output) : Text := o.chars.dropWhile isSpace

theorem dropWhile_suffix_append (s t : Text) :
    t.dropWhile isSpace <:+ (s ++ t).dropWhile isSpace := by
  induction s with
  | nil => exact List.suffix_rfl
  | cons c s ih =>
    rw [List.cons_append, List.dropWhile_cons]
    split
    · exact ih
    · exact (List.dropWhile_suffix _).trans (List.suffix_append (c :: s) t)

theorem settled_write (t : Text) (o : Output) : o.settled <:+ (o.write t).settled :=
  dropWhile_suffix_append t.reverse o.chars

theorem dropWhile_indentation (page : Page) (levels : Nat) (t : Text) :
    (page.indentation levels ++ t).dropWhile isSpace = t.dropWhile isSpace := by
  refine List.dropWhile_append_of_pos fun c hc => ?_
  unfold Page.indentation at hc
  split at hc <;> rw [List.eq_of_mem_replicate hc] <;> decide

/-- What a line break adds to the settled part: a line feed, unless it is left out, and the
indentation. -/
theorem newline_of_settled (page : Page) (levels : Nat) (collapse : Bool) {o : Output}
    (h : o.settled ≠ []) :
    o.newline page levels collapse =
      ⟨page.indentation levels ++
          if collapse && Output.endsBlank o.settled then o.settled else '\n' :: o.settled,
        levels * page.tabWidth⟩ := by
  obtain ⟨c, cs, hsettled⟩ := List.exists_cons_of_ne_nil h
  rw [hsettled]
  simp only [Output.newline, show o.chars.dropWhile isSpace = c :: cs from hsettled]

theorem settled_newline_eq (page : Page) (levels : Nat) (collapse : Bool) {o : Output}
    (h : o.settled ≠ []) :
    (o.newline page levels collapse).settled =
      if collapse && Output.endsBlank o.settled then o.settled else '\n' :: o.settled := by
  rw [newline_of_settled page levels collapse h, Output.settled, dropWhile_indentation]
  split
  · exact List.dropWhile_idempotent isSpace _
  · exact List.dropWhile_cons_of_neg (by decide)

theorem settled_newline (page : Page) (levels : Nat) (collapse : Bool) (o : Output) :
    o.settled <:+ (o.newline page levels collapse).settled := by
  by_cases h : o.settled = []
  · rw [h]
    exact List.nil_suffix
  · rw [settled_newline_eq page levels collapse h]
    split
    · exact List.suffix_rfl
    · exact List.suffix_cons _ _

/-- **A step keeps what is settled.** -/
theorem settled_step (page : Page) (c : Command) (rest : List Command) (o : Output) :
    o.settled <:+ (step page c rest o).2.settled := by
  obtain ⟨indent, mode, doc⟩ := c
  cases doc with
  | text t => exact settled_write t o
  | line kind =>
    show o.settled <:+ (lineBreak page indent mode kind o).settled
    unfold lineBreak
    split
    · exact List.suffix_rfl
    · exact settled_write _ o
    · exact settled_newline page 0 false o
    · exact settled_newline page indent false o
    · exact settled_newline page indent true o
  | empty => exact List.suffix_rfl
  | concat ds => exact List.suffix_rfl
  | indent d => exact List.suffix_rfl
  | group d broken => exact List.suffix_rfl

/-- **A run keeps what is settled**, by induction on its steps. -/
theorem settled_run (page : Page) (stack : List Command) (o : Output) :
    o.settled <:+ (run page stack o).settled := by
  fun_induction run page stack o with
  | case1 o => exact List.suffix_rfl
  | case2 o c rest next ih => exact (settled_step page c rest o).trans ih

/-! ## The turn of a part -/

variable {d : Doc}

/-- A step leaves a part on the stack, unless it takes it off. -/
theorem step_within (page : Page) {c : Command} {rest : List Command} (o : Output)
    (h : ∃ k ∈ c :: rest, Within d k.doc) :
    c.doc = d ∨ ∃ k ∈ (step page c rest o).1, Within d k.doc := by
  obtain ⟨k, hmem, hd⟩ := h
  obtain ⟨indent, mode, doc⟩ := c
  rcases List.mem_cons.mp hmem with rfl | hk
  · cases hd with
    | refl => exact .inl rfl
    | concat he hd =>
      refine .inr ⟨⟨indent, mode, _⟩, List.mem_append_left _ (List.mem_map_of_mem he), hd⟩
    | indent hd => exact .inr ⟨_, List.mem_cons_self, hd⟩
    | group hd => exact .inr ⟨_, List.mem_cons_self, hd⟩
  · refine .inr ⟨k, ?_, hd⟩
    clear hmem
    cases doc with
    | concat ds => exact List.mem_append_right _ hk
    | indent e => exact List.mem_cons_of_mem _ hk
    | group e broken => exact List.mem_cons_of_mem _ hk
    | empty => exact hk
    | text t => exact hk
    | line kind => exact hk

/-- **Every part of the documents on a stack has its turn.** -/
theorem run_within (page : Page) {stack : List Command} (o : Output)
    (h : ∃ k ∈ stack, Within d k.doc) : ∃ indent mode rest o',
      run page stack o = run page (⟨indent, mode, d⟩ :: rest) o' := by
  fun_induction run page stack o with
  | case1 o =>
    obtain ⟨k, hk, -⟩ := h
    exact absurd hk List.not_mem_nil
  | case2 o c rest next ih =>
    rcases step_within page o h with rfl | h
    · refine ⟨c.indent, c.mode, rest, o, ?_⟩
      conv_rhs => rw [run]
    · exact ih h

/-! ## Lines that are never dropped -/

theorem run_cons (page : Page) (c : Command) (rest : List Command) (o : Output) :
    run page (c :: rest) o = run page (step page c rest o).1 (step page c rest o).2 := by
  rw [run]

/-- Joined documents are printed one after the other. -/
theorem run_join (page : Page) (indent : Nat) (mode : Mode) (ds : List Doc) (rest : List Command)
    (o : Output) : run page (⟨indent, mode, Doc.join ds⟩ :: rest) o =
      run page (commands indent mode (ds.filter fun d => !d.isEmpty) ++ rest) o := by
  unfold Doc.join
  split
  · rename_i hnil
    rw [hnil, run_cons]
    rfl
  · rename_i hsingle
    rw [hsingle]
    rfl
  · rw [run_cons]
    rfl

/-- Lines, each after a break that is never dropped. -/
def verbatimDocs (ts : List Text) : List Doc := ts.flatMap fun t => [.line .verbatim, .ofText t]

/-- What such lines print at an indentation: none for an empty line. -/
def verbatimLines (page : Page) (level : Nat) (ts : List Text) : Text :=
  ts.flatMap fun t => '\n' :: if t.isEmpty then [] else page.indentation level ++ t

/-- The text ends with no space or tab. -/
def EndsFull (t : Text) : Prop := ∀ c ∈ t.getLast?, isSpace c = false

theorem settled_of_endsFull {t cs : Text} (h : EndsFull t) (hne : t ≠ []) :
    (t.reverse ++ cs).dropWhile isSpace = t.reverse ++ cs := by
  obtain ⟨c, s, hs⟩ := List.exists_cons_of_ne_nil (List.reverse_ne_nil_iff.mpr hne)
  have hlast : c ∈ t.getLast? := by
    rw [← List.head?_reverse, hs]
    rfl
  rw [hs, List.cons_append]
  exact List.dropWhile_cons_of_neg (by simp [h c hlast])

theorem indentation_reverse (page : Page) (levels : Nat) :
    (page.indentation levels).reverse = page.indentation levels := by
  unfold Page.indentation
  split <;> exact List.reverse_replicate

/-- **Lines that are never dropped are all in the output**, by induction on the lines: a line feed
for each, and no spaces on the empty ones. -/
theorem run_verbatimLines (page : Page) (level : Nat) (mode : Mode) (rest : List Command) :
    ∀ (ts : List Text) (o : Output), (∀ t ∈ ts, EndsFull t) → o.settled ≠ [] → ∃ o',
      run page (commands level mode ((verbatimDocs ts).filter fun d => !d.isEmpty) ++ rest) o =
          run page rest o' ∧
        o'.settled = (verbatimLines page level ts).reverse ++ o.settled := by
  intro ts
  induction ts with
  | nil => exact fun o _ _ => ⟨o, rfl, rfl⟩
  | cons t ts ih =>
    intro o hts hne
    have hbreak : lineBreak page level mode .verbatim o = o.newline page level false := by
      cases mode <;> rfl
    have hnew : (o.newline page level false).settled = '\n' :: o.settled := by
      rw [settled_newline_eq page level false hne]
      rfl
    have hts' : ∀ t' ∈ ts, EndsFull t' := fun t' ht' => hts t' (List.mem_cons_of_mem t ht')
    -- an empty line leaves no text behind, and the next line feed takes its indentation off
    by_cases ht : t = []
    · subst ht
      obtain ⟨o', hrun, hsettled⟩ := ih (o.newline page level false) hts' (by rw [hnew]; simp)
      refine ⟨o', ?_, ?_⟩
      · rw [← hrun, ← hbreak]
        exact run_cons page _ _ o
      · rw [hsettled, hnew]
        simp [verbatimLines]
    · have hwritten : ((o.newline page level false).write t).settled =
          (page.indentation level ++ t).reverse ++ '\n' :: o.settled := by
        rw [newline_of_settled page level false hne]
        show ((t.reverse ++ (page.indentation level ++ '\n' :: o.settled)).dropWhile isSpace) = _
        rw [settled_of_endsFull (hts t List.mem_cons_self) ht, List.reverse_append,
          indentation_reverse, List.append_assoc]
      obtain ⟨o', hrun, hsettled⟩ :=
        ih ((o.newline page level false).write t) hts' (by rw [hwritten]; simp)
      refine ⟨o', ?_, ?_⟩
      · have hdocs : ((verbatimDocs (t :: ts)).filter fun d => !d.isEmpty) =
            .line .verbatim :: .text t :: (verbatimDocs ts).filter fun d => !d.isEmpty := by
          show List.filter _ (.line .verbatim :: .ofText t :: verbatimDocs ts) = _
          rw [Doc.ofText, if_neg (by simpa using ht), List.filter_cons_of_pos (by rfl),
            List.filter_cons_of_pos (by simp [Doc.isEmpty, ht])]
        rw [hdocs, ← hrun, ← hbreak]
        show run page (_ :: (_ :: (commands level mode _ ++ rest))) o = _
        rw [run_cons]
        exact run_cons page _ _ _
      · rw [hsettled, hwritten]
        simp [verbatimLines, ht]

end Render

namespace Doc

open Render

/-! ## Documents without groups -/

theorem propagateAll_eq_self {ds : List Doc} (h : ∀ d ∈ ds, d.propagate = d) :
    propagateAll ds = ds := by
  induction ds with
  | nil => rfl
  | cons d ds ih =>
    rw [propagateAll, h d List.mem_cons_self, ih fun d' hd' => h d' (List.mem_cons_of_mem d hd')]

theorem propagate_join {ds : List Doc} (h : ∀ d ∈ ds, d.propagate = d) :
    (join ds).propagate = join ds := by
  have hall : propagateAll (ds.filter fun d => !d.isEmpty) = ds.filter fun d => !d.isEmpty :=
    propagateAll_eq_self fun d hd => h d (List.mem_of_mem_filter hd)
  unfold join
  generalize ds.filter (fun d => !d.isEmpty) = es at hall
  split
  · rw [propagate]
  · exact (List.cons.inj hall).1
  · rw [propagate, hall]

theorem propagate_ofText (t : Text) : (ofText t).propagate = ofText t := by
  rw [ofText]
  split <;> rw [propagate]

/-! ## Lines in a document -/

/-- A text and lines after it. -/
def linesDoc (first : Text) (ts : List Text) : Doc := join (text first :: verbatimDocs ts)

theorem propagate_linesDoc (first : Text) (ts : List Text) :
    (linesDoc first ts).propagate = linesDoc first ts := by
  refine propagate_join fun d hd => ?_
  rcases List.mem_cons.mp hd with rfl | hd
  · rw [propagate]
  · obtain ⟨t, -, ht⟩ := List.mem_flatMap.mp hd
    rcases List.mem_cons.mp ht with rfl | ht
    · rw [propagate]
    · rw [List.mem_singleton.mp ht]
      exact propagate_ofText t

/-- **The lines of a part of a document are in the output**, one after the other, with the
indentation of the part. -/
theorem verbatim_isInfix_render (page : Page) {first : Text} {ts : List Text} {doc : Doc}
    (hne : first ≠ []) (hfirst : EndsFull first) (hts : ∀ t ∈ ts, EndsFull t)
    (h : Within (linesDoc first ts) doc) :
    ∃ level, first ++ verbatimLines page level ts <:+: doc.render page := by
  have hdoc := h.propagate
  rw [propagate_linesDoc] at hdoc
  obtain ⟨level, mode, rest, o, hturn⟩ := run_within page ⟨[], 0⟩
    ⟨⟨0, .broken, doc.propagate⟩, List.mem_singleton_self _, hdoc⟩
  have hwrite : (o.write first).settled = first.reverse ++ o.chars :=
    settled_of_endsFull hfirst hne
  obtain ⟨o', hlines, hsettled⟩ := run_verbatimLines page level mode rest ts (o.write first) hts
    (by rw [hwrite]; simp [hne])
  have hrun : run page [⟨0, .broken, doc.propagate⟩] ⟨[], 0⟩ = run page rest o' := by
    rw [hturn, linesDoc, run_join, List.filter_cons_of_pos (by simp [isEmpty, hne]), ← hlines]
    exact run_cons page _ _ o
  refine ⟨level, ?_⟩
  rw [← List.reverse_infix]
  have hrender : (doc.render page).reverse = (run page rest o').settled := by
    rw [← hrun, render, List.reverse_reverse]
    rfl
  rw [hrender, List.reverse_append]
  refine List.IsInfix.trans ?_ (settled_run page rest o').isInfix
  rw [hsettled, hwrite, ← List.append_assoc]
  exact (List.prefix_append _ _).isInfix

end Doc

end TemplateFormat
