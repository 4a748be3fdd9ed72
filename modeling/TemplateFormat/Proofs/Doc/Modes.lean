import TemplateFormat.Proofs.Doc.FlatMode
import TemplateFormat.Proofs.Doc.Replaced
import TemplateFormat.Proofs.Markup.Levels

/-!
# Documents in one mode

A document that forces no break is written on the line in flat mode, whatever follows it
(`Straight`). A document of texts and forced line breaks is printed in both modes alike, and what
follows it does not matter (`Rigid`). In broken mode a group fits as its contents do, so documents
that differ in how their groups are marked can fit alike (`Akin`).

Results:
* `straight_of_unforced`: a document that forces no break, in flat mode.
* `print_of_rigid`: a rigid document, in both modes.
* `Render.newline_of_feed`, `Render.newline_of_blank`: new lines behind new lines.
-/

namespace TemplateFormat

namespace Doc

open Render

/-! ## Flat mode -/

/-- In flat mode the document is written on the line as the text. -/
structure Straight (d : Doc) (t : Text) : Prop where
  fits : ∀ after, fitsThen .flat d after = fun room => after (room - t.length)
  print : ∀ page indent after, printThen page indent .flat d after = Output.write t

theorem write_nil : Output.write [] = id := by
  funext o
  rfl

theorem write_append (s t : Text) : Output.write (s ++ t) = Output.write t ∘ Output.write s := by
  funext o
  simp [Output.write, List.append_assoc, Nat.add_assoc]

theorem Straight.text_eq {d e : Doc} {s t : Text} (h : Straight d s) (h' : Straight e t)
    (hsame : Same d e) : s = t := by
  have hprint := hsame.print {} 0 .flat fun _ => true
  rw [h.print, h'.print] at hprint
  have := congrArg Output.chars (congrFun hprint ⟨[], 0⟩)
  simpa [Output.write] using this

mutual

/-- **A document that forces no break is written on the line** in flat mode. -/
theorem straight_of_unforced : ∀ d : Doc, d.forcesBreak = false → Straight d d.flat
  | empty, _ => by
    rw [flat_empty]
    exact ⟨fun after => by rw [fitsThen]; simp, fun _ _ _ => by rw [printThen, write_nil]⟩
  | text t, _ => by
    rw [flat_text]
    exact ⟨fun after => by rw [fitsThen], fun _ _ _ => by rw [printThen]⟩
  | concat ds, h => by
    rw [forcesBreak] at h
    rw [flat_concat]
    obtain ⟨hfits, hprint⟩ := straightAll_of_unforced ds h
    exact ⟨fun after => by rw [fitsThen, hfits], fun page indent after => by rw [printThen, hprint]⟩
  | indent d, h => by
    rw [forcesBreak] at h
    have hd := straight_of_unforced d h
    have hflat : (indent d).flat = d.flat := by rw [flat, items_indent, flat]
    rw [hflat]
    exact ⟨fun after => by rw [fitsThen, hd.fits], fun page indent after => by rw [printThen,
      hd.print]⟩
  | group d broken, h => by
    rw [forcesBreak, Bool.or_eq_false_iff] at h
    have hd := straight_of_unforced d h.2
    rw [flat_group]
    refine ⟨fun after => ?_, fun page indent after => ?_⟩
    · rw [fitsThen, h.1]
      exact hd.fits after
    · rw [printThen, h.1]
      funext o
      exact congrFun (hd.print page indent after) o
  | line kind, h => by
    rw [forcesBreak] at h
    rw [flat_line]
    cases kind with
    | soft =>
      refine ⟨fun after => ?_, fun page indent after => ?_⟩
      · rw [fitsThen]
        simp [Line.isForced, Item.flat]
      · rw [printThen]
        rfl
    | normal =>
      refine ⟨fun after => ?_, fun page indent after => ?_⟩
      · rw [fitsThen]
        simp [Line.isForced, Item.flat]
      · rw [printThen]
        rfl
    | hard => exact absurd h (by decide)
    | verbatim => exact absurd h (by decide)
    | literal => exact absurd h (by decide)

theorem straightAll_of_unforced : ∀ ds : List Doc, anyForces ds = false →
    (∀ after, fitsAllThen .flat ds after =
      fun room => after (room - (ds.flatMap flat).length)) ∧
    ∀ page indent after, printAllThen page indent .flat ds after = Output.write (ds.flatMap flat)
  | [], _ => ⟨fun after => by rw [fitsAllThen]; simp, fun _ _ _ => by rw [printAllThen]; rfl⟩
  | d :: ds, h => by
    rw [anyForces, Bool.or_eq_false_iff] at h
    have hd := straight_of_unforced d h.1
    obtain ⟨hfits, hprint⟩ := straightAll_of_unforced ds h.2
    refine ⟨fun after => ?_, fun page indent after => ?_⟩
    · rw [fitsAllThen, hd.fits, hfits]
      funext room
      show after (room - d.flat.length - (ds.flatMap flat).length) = _
      rw [List.flatMap_cons, List.length_append, Int.natCast_add, Int.sub_sub]
    · rw [printAllThen, hd.print, hprint, List.flatMap_cons, write_append]

end

/-! ## Rigid documents -/

mutual

/-- The document is made of texts and forced line breaks. -/
def rigid : Doc → Bool
  | empty => true
  | text _ => true
  | concat docs => rigidAll docs
  | indent doc => rigid doc
  | group _ _ => false
  | line kind => kind.isForced

/-- The documents are made of texts and forced line breaks. -/
def rigidAll : List Doc → Bool
  | [] => true
  | d :: ds => rigid d && rigidAll ds

end

theorem rigidAll_iff {ds : List Doc} : rigidAll ds = true ↔ ∀ d ∈ ds, d.rigid = true := by
  induction ds with
  | nil => simp [rigidAll]
  | cons d ds ih => rw [rigidAll, Bool.and_eq_true, ih, List.forall_mem_cons]

theorem rigid_ofText (t : Text) : (ofText t).rigid = true := by
  unfold ofText
  split <;> rfl

theorem rigid_join {ds : List Doc} (h : ∀ d ∈ ds, d.rigid = true) : (join ds).rigid = true := by
  have hfilter : ∀ d ∈ ds.filter fun d => !d.isEmpty, d.rigid = true :=
    fun d hd => h d (List.mem_of_mem_filter hd)
  unfold join
  split
  · rfl
  · rename_i d hone
    exact hfilter d (hone ▸ List.mem_singleton_self d)
  · rw [rigid]
    exact rigidAll_iff.mpr hfilter

theorem rigid_nest {d : Doc} (h : d.rigid = true) : d.nest.rigid = true := by
  unfold nest
  split
  · rfl
  · rwa [rigid]

mutual

/-- **A rigid document is printed in both modes alike**, whatever follows it. -/
theorem print_of_rigid (page : Page) (mode mode' : Mode) (after after' : Int → Bool) :
    ∀ (d : Doc) (levels : Nat), d.rigid = true →
      printThen page levels mode d after = printThen page levels mode' d after'
  | empty, levels, _ => by rw [printThen, printThen]
  | text t, levels, _ => by rw [printThen, printThen]
  | concat ds, levels, h => by
    rw [rigid] at h
    rw [printThen, printThen, printAll_of_rigid page mode mode' after after' ds levels h]
  | Doc.indent d, levels, h => by
    rw [rigid] at h
    rw [printThen, printThen, print_of_rigid page mode mode' after after' d (levels + 1) h]
  | group d broken, levels, h => absurd h (by simp [rigid])
  | line kind, levels, h => by
    rw [rigid] at h
    rw [printThen, printThen]
    cases kind with
    | soft => exact absurd h (by decide)
    | normal => exact absurd h (by decide)
    | _ => cases mode <;> cases mode' <;> rfl

theorem printAll_of_rigid (page : Page) (mode mode' : Mode) (after after' : Int → Bool) :
    ∀ (ds : List Doc) (levels : Nat), rigidAll ds = true →
      printAllThen page levels mode ds after = printAllThen page levels mode' ds after'
  | [], levels, _ => by rw [printAllThen, printAllThen]
  | d :: ds, levels, h => by
    rw [rigidAll, Bool.and_eq_true] at h
    rw [printAllThen, printAllThen, print_of_rigid page mode mode' _ _ d levels h.1,
      printAll_of_rigid page mode mode' after after' ds levels h.2]

end

mutual

/-- There is nothing to mark in a rigid document. -/
theorem propagate_of_rigid : ∀ d : Doc, d.rigid = true → d.propagate = d
  | empty, _ => by rw [propagate]
  | text t, _ => by rw [propagate]
  | concat ds, h => by
    rw [rigid] at h
    rw [propagate, propagateAll_of_rigid ds h]
  | Doc.indent d, h => by
    rw [rigid] at h
    rw [propagate, propagate_of_rigid d h]
  | group d broken, h => absurd h (by simp [rigid])
  | line kind, _ => by rw [propagate]

theorem propagateAll_of_rigid : ∀ ds : List Doc, rigidAll ds = true → propagateAll ds = ds
  | [], _ => by rw [propagateAll]
  | d :: ds, h => by
    rw [rigidAll, Bool.and_eq_true] at h
    rw [propagateAll, propagate_of_rigid d h.1, propagateAll_of_rigid ds h.2]

end

/-! ## Broken mode -/

/-- In broken mode the documents fit and print alike, whatever follows them. -/
structure Akin (d e : Doc) : Prop where
  fits : ∀ after, fitsThen .broken d after = fitsThen .broken e after
  print : ∀ page levels after,
    printThen page levels .broken d after = printThen page levels .broken e after

namespace Akin

variable {d e f : Doc} {ds es : List Doc}

theorem refl (d : Doc) : Akin d d := ⟨fun _ => rfl, fun _ _ _ => rfl⟩

theorem symm (h : Akin d e) : Akin e d :=
  ⟨fun after => (h.fits after).symm, fun page levels after => (h.print page levels after).symm⟩

theorem trans (h : Akin d e) (h' : Akin e f) : Akin d f :=
  ⟨fun after => (h.fits after).trans (h'.fits after),
    fun page levels after => (h.print page levels after).trans (h'.print page levels after)⟩

theorem of_same (h : Same d e) : Akin d e :=
  ⟨h.fits .broken, fun page levels => h.print page levels .broken⟩

/-- Sequences of documents that are printed alike. -/
theorem all (h : List.Forall₂ Akin ds es) (page : Page) (levels : Nat) (after : Int → Bool) :
    fitsAllThen .broken ds after = fitsAllThen .broken es after ∧
      printAllThen page levels .broken ds after = printAllThen page levels .broken es after := by
  induction h with
  | nil => exact ⟨rfl, rfl⟩
  | cons hd _ ih =>
    exact ⟨by rw [fitsAllThen, fitsAllThen, ih.1, hd.fits],
      by rw [printAllThen, printAllThen, ih.1, ih.2, hd.print]⟩

/-- A group of a rigid document is the document. -/
theorem group_of_rigid (broken : Bool) (h : d.rigid = true) : Akin (.group d broken) d := by
  refine ⟨fun after => ?_, fun page levels after => ?_⟩
  · rw [fitsThen]
    cases broken <;> rfl
  · rw [printThen]
    funext o
    exact congrFun (print_of_rigid page _ .broken after after d levels h) o

end Akin

end Doc

namespace Render

/-! ## New lines -/

theorem newline_of_inked_eq (page : Page) (levels : Nat) {o : Output} (h : Inked o.chars) :
    o.newline page levels true =
      ⟨page.indentation levels ++ '\n' :: o.chars, levels * page.tabWidth⟩ := by
  have hchars := newline_of_inked page levels h
  obtain ⟨c, cs, hcs, hc⟩ := h
  have hsettled : o.settled ≠ [] := by
    rw [Output.settled, hcs, List.dropWhile_cons_of_neg (by simp [isSpace_eq_false hc])]
    exact List.cons_ne_nil _ _
  rw [newline_of_settled page levels true hsettled] at hchars ⊢
  exact congrArg (Output.mk · _) hchars

/-- A new line behind a new line: a blank line. -/
theorem newline_of_feed (page : Page) (levels levels' : Nat) {cs : Text} (h : Inked cs)
    (column : Nat) :
    (Output.mk (page.indentation levels ++ '\n' :: cs) column).newline page levels' true =
      ⟨page.indentation levels' ++ '\n' :: '\n' :: cs, levels' * page.tabWidth⟩ := by
  have hsettled : (Output.mk (page.indentation levels ++ '\n' :: cs) column).settled =
      '\n' :: cs := by
    rw [Output.settled, dropWhile_indentation, List.dropWhile_cons_of_neg (by decide)]
  rw [newline_of_settled page levels' true (by rw [hsettled]; exact List.cons_ne_nil _ _), hsettled]
  obtain ⟨c, cs, rfl, hc⟩ := h
  have hblank : Output.endsBlank ('\n' :: c :: cs) = false := by
    refine Bool.eq_false_iff.mpr fun hb => ?_
    unfold Output.endsBlank at hb
    split at hb
    · rename_i rest he
      obtain ⟨-, he⟩ := List.cons.inj he
      rw [(List.cons.inj he).1] at hc
      exact absurd hc (by decide)
    · exact absurd hb (by decide)
  rw [hblank]
  rfl

/-- A new line behind a blank line: there is no other one. -/
theorem newline_of_blank (page : Page) (levels levels' : Nat) (cs : Text) (column : Nat) :
    (Output.mk (page.indentation levels ++ '\n' :: '\n' :: cs) column).newline page levels' true =
      ⟨page.indentation levels' ++ '\n' :: '\n' :: cs, levels' * page.tabWidth⟩ := by
  have hsettled : (Output.mk (page.indentation levels ++ '\n' :: '\n' :: cs) column).settled =
      '\n' :: '\n' :: cs := by
    rw [Output.settled, dropWhile_indentation, List.dropWhile_cons_of_neg (by decide)]
  rw [newline_of_settled page levels' true (by rw [hsettled]; exact List.cons_ne_nil _ _), hsettled]
  rfl

end Render

end TemplateFormat
