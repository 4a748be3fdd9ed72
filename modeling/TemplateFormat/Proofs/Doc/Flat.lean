import TemplateFormat.Doc.Transform

/-!
# What a document prints, line breaks apart

`Doc.items` lists the texts and line breaks of a document in order; texts that are empty are no
items. `Doc.flat` is what the document prints on one line: nothing for a soft break and a space
for any other. Indentation, groups and the removal of parts that print nothing do not change the
items, so these lemmas are what later proofs know of the functions that build and rebuild
documents.

Results:
* `isEmpty_iff_items`: a document without items is one that prints nothing.
* `items_join`, `items_nest`, `items_propagate`: building documents adds and loses no item.
* `items_stripHardline`: only a forced line break at the end is removed.
* `items_mergeText`: where no two texts follow each other, joining texts changes nothing.
* `items_mapText`, `items_removeLines`: a document with its texts or line breaks replaced.
-/

namespace TemplateFormat

/-- A text or a line break of a document. -/
inductive Item where
  | text (t : Text)
  | line (kind : Line)
deriving DecidableEq, Repr

/-- An item on one line. -/
def Item.flat : Item → Text
  | text t => t
  | line .soft => []
  | line _ => [' ']

namespace Doc

mutual

/-- The texts, without the empty ones, and line breaks of a document, in order. -/
def items : Doc → List Item
  | empty => []
  | text t => if t.isEmpty then [] else [.text t]
  | concat docs => itemsAll docs
  | indent doc => items doc
  | group doc _ => items doc
  | line kind => [.line kind]

/-- The texts and line breaks of documents, in order. -/
def itemsAll : List Doc → List Item
  | [] => []
  | d :: ds => items d ++ itemsAll ds

end

/-- The document on one line. -/
def flat (d : Doc) : Text := d.items.flatMap Item.flat

theorem itemsAll_eq_flatMap (ds : List Doc) : itemsAll ds = ds.flatMap items := by
  induction ds with
  | nil => rfl
  | cons d ds ih => rw [itemsAll, ih, List.flatMap_cons]

/-! ## Building documents -/

@[simp] theorem items_empty : empty.items = [] := by rw [items]

@[simp] theorem items_line (kind : Line) : (line kind).items = [.line kind] := by rw [items]

@[simp] theorem items_indent (d : Doc) : d.indent.items = d.items := by rw [items]

@[simp] theorem items_group (d : Doc) (broken : Bool) : (group d broken).items = d.items := by
  rw [items]

@[simp] theorem items_concat (ds : List Doc) : (concat ds).items = ds.flatMap items := by
  rw [items, itemsAll_eq_flatMap]

theorem items_text_nil : (text []).items = [] := by simp [items]

theorem items_text {t : Text} (h : t ≠ []) : (text t).items = [.text t] := by
  simp [items, h]

theorem items_ofText (t : Text) : (ofText t).items = (text t).items := by
  unfold ofText
  by_cases h : t.isEmpty = true
  · rw [if_pos h, List.isEmpty_iff.mp h, items_text_nil, items_empty]
  · rw [if_neg h]

mutual

/-- **A document without items prints nothing**, and no other does. -/
theorem isEmpty_iff_items : ∀ d : Doc, d.isEmpty = true ↔ d.items = []
  | empty => by simp [isEmpty]
  | text t => by
    cases t <;> simp [isEmpty, items]
  | concat ds => by
    rw [isEmpty, items]
    exact allEmpty_iff_items ds
  | indent d => by
    rw [isEmpty, items]
    exact isEmpty_iff_items d
  | group d _ => by
    rw [isEmpty, items]
    exact isEmpty_iff_items d
  | line kind => by simp [isEmpty]

theorem allEmpty_iff_items : ∀ ds : List Doc, allEmpty ds = true ↔ itemsAll ds = []
  | [] => by simp [allEmpty, itemsAll]
  | d :: ds => by
    rw [allEmpty, Bool.and_eq_true, itemsAll, List.append_eq_nil_iff, isEmpty_iff_items d,
      allEmpty_iff_items ds]

end

theorem itemsAll_filter (ds : List Doc) :
    (ds.filter fun d => !d.isEmpty).flatMap items = ds.flatMap items := by
  induction ds with
  | nil => rfl
  | cons d ds ih =>
    rw [List.filter_cons, List.flatMap_cons]
    by_cases hd : d.isEmpty = true
    · rw [hd, (isEmpty_iff_items d).mp hd]
      exact ih
    · rw [Bool.not_eq_true] at hd
      rw [hd, Bool.not_false, if_pos rfl, List.flatMap_cons, ih]

@[simp] theorem items_join (ds : List Doc) : (join ds).items = ds.flatMap items := by
  rw [← itemsAll_filter ds]
  unfold join
  split
  · rename_i h
    rw [h, items_empty, List.flatMap_nil]
  · rename_i d h
    rw [h, List.flatMap_singleton]
  · rw [items_concat]

@[simp] theorem items_nest (d : Doc) : d.nest.items = d.items := by
  unfold nest
  by_cases h : d.isEmpty = true
  · rw [if_pos h, items_empty, (isEmpty_iff_items d).mp h]
  · rw [if_neg h, items_indent]

@[simp] theorem items_nestBy (levels : Nat) (d : Doc) : (nestBy levels d).items = d.items := by
  induction levels with
  | zero => rfl
  | succ levels ih => rw [nestBy, items_nest, ih]

theorem items_parts (d : Doc) : d.parts.flatMap items = d.items := by
  unfold parts
  split
  · rw [items_concat]
  · rw [List.flatMap_singleton]

/-! ## On one line -/

@[simp] theorem flat_text (t : Text) : (text t).flat = t := by
  cases t with
  | nil => rw [flat, items_text_nil, List.flatMap_nil]
  | cons c t => rw [flat, items_text (by simp), List.flatMap_singleton, Item.flat]

@[simp] theorem flat_ofText (t : Text) : (ofText t).flat = t := by
  rw [flat, items_ofText]
  exact flat_text t

@[simp] theorem flat_empty : empty.flat = [] := by rw [flat, items_empty, List.flatMap_nil]

theorem flat_line (kind : Line) : (line kind).flat = (Item.line kind).flat := by
  rw [flat, items_line, List.flatMap_singleton]

@[simp] theorem flat_softline : softline.flat = [] := flat_line .soft

@[simp] theorem flat_hardline : hardline.flat = [' '] := flat_line .hard

@[simp] theorem flat_group (d : Doc) (broken : Bool) : (group d broken).flat = d.flat := by
  rw [flat, items_group, flat]

@[simp] theorem flat_nest (d : Doc) : d.nest.flat = d.flat := by rw [flat, items_nest, flat]

theorem flat_flatMap (ds : List Doc) :
    (ds.flatMap items).flatMap Item.flat = ds.flatMap flat := by
  rw [List.flatMap_assoc]
  rfl

theorem flat_concat (ds : List Doc) : (concat ds).flat = ds.flatMap flat := by
  rw [flat, items_concat, flat_flatMap]

@[simp] theorem flat_join (ds : List Doc) : (join ds).flat = ds.flatMap flat := by
  rw [flat, items_join, flat_flatMap]

theorem flat_eq_nil_of_isEmpty {d : Doc} (h : d.isEmpty = true) : d.flat = [] := by
  rw [flat, (isEmpty_iff_items d).mp h, List.flatMap_nil]

/-! ## Rebuilding documents -/

mutual

/-- Marking groups as broken changes no item. -/
theorem items_propagate : ∀ d : Doc, d.propagate.items = d.items
  | group d _ => by
    rw [propagate, items, items]
    exact items_propagate d
  | concat ds => by
    rw [propagate, items, items]
    exact items_propagateAll ds
  | indent d => by
    rw [propagate, items, items]
    exact items_propagate d
  | empty => by rw [propagate]
  | text t => by rw [propagate]
  | line kind => by rw [propagate]

theorem items_propagateAll : ∀ ds : List Doc, itemsAll (propagateAll ds) = itemsAll ds
  | [] => by rw [propagateAll]
  | d :: ds => by rw [propagateAll, itemsAll, itemsAll, items_propagate d, items_propagateAll ds]

end

theorem flat_propagate (d : Doc) : d.propagate.flat = d.flat := by
  rw [flat, items_propagate, flat]

/-- An item with its break replaced by what it is on one line. -/
def Item.onLine : Item → List Item
  | .text t => [.text t]
  | .line .soft => []
  | .line _ => [.text [' ']]

mutual

/-- A document whose breaks are replaced by what they are on one line. -/
theorem items_removeLines : ∀ d : Doc, d.removeLines.items = d.items.flatMap Item.onLine
  | line kind => by cases kind <;> rfl
  | concat ds => by
    rw [removeLines, items_join, items_concat]
    exact items_removeLinesAll ds
  | indent d => by
    rw [removeLines, items_nest, items_indent]
    exact items_removeLines d
  | group d _ => by
    rw [removeLines, items_group, items_group]
    exact items_removeLines d
  | empty => by rw [removeLines, items_empty, List.flatMap_nil]
  | text t => by
    rw [removeLines]
    cases t with
    | nil => rw [items_text_nil, List.flatMap_nil]
    | cons c t => rw [items_text (by simp), List.flatMap_singleton, Item.onLine]

theorem items_removeLinesAll : ∀ ds : List Doc,
    (removeLinesAll ds).flatMap items = (ds.flatMap items).flatMap Item.onLine
  | [] => by rw [removeLinesAll, List.flatMap_nil, List.flatMap_nil]
  | d :: ds => by
    rw [removeLinesAll, List.flatMap_cons, List.flatMap_cons, List.flatMap_append,
      items_removeLines d, items_removeLinesAll ds]

end

/-- A document is its own line, if its breaks are replaced by what they are on one line. -/
theorem flat_removeLines (d : Doc) : d.removeLines.flat = d.flat := by
  rw [flat, items_removeLines, List.flatMap_assoc, flat]
  congr 1
  funext i
  cases i with
  | text t => exact List.flatMap_singleton ..
  | line kind => cases kind <;> rfl

end Doc

/-! ## The forced break at the end -/

/-- The items without a forced line break at the end. -/
def dropForced : List Item → List Item
  | [] => []
  | [.line kind] => if kind.isForced then [] else [.line kind]
  | i :: is => i :: dropForced is

theorem dropForced_append (is : List Item) {js : List Item} (h : js ≠ []) :
    dropForced (is ++ js) = is ++ dropForced js := by
  induction is with
  | nil => rfl
  | cons i is ih =>
    obtain ⟨j, rest, hj⟩ := List.exists_cons_of_ne_nil (List.append_ne_nil_of_right_ne_nil is h)
    rw [List.cons_append, List.cons_append, ← ih, hj]
    cases i <;> rfl

theorem dropForced_concat (is : List Item) {kind : Line} (h : kind.isForced = true) :
    dropForced (is ++ [.line kind]) = is := by
  rw [dropForced_append is (by simp), dropForced, if_pos h, List.append_nil]

namespace Doc

mutual

/-- **Only a forced line break at the end is removed.** -/
theorem items_stripHardline : ∀ d : Doc, d.stripHardline.items = dropForced d.items
  | line kind => by
    rw [stripHardline, items_line, dropForced]
    split <;> simp
  | concat ds => by
    rw [stripHardline, items_join, ← itemsAll_eq_flatMap, items]
    exact items_stripLast ds
  | indent d => by
    rw [stripHardline, items_nest, items_indent]
    exact items_stripHardline d
  | group d _ => by
    rw [stripHardline, items_group, items_group]
    exact items_stripHardline d
  | empty => by rw [stripHardline, items_empty, dropForced]
  | text t => by
    rw [stripHardline]
    cases t with
    | nil => rw [items_text_nil, dropForced]
    | cons c t => rw [items_text (by simp)]; rfl

theorem items_stripLast : ∀ ds : List Doc, itemsAll (stripLast ds) = dropForced (itemsAll ds)
  | [] => by rw [stripLast, itemsAll, dropForced]
  | d :: ds => by
    rw [stripLast, itemsAll]
    by_cases hds : allEmpty ds = true
    · rw [if_pos hds, (allEmpty_iff_items ds).mp hds, List.append_nil]
      by_cases hd : d.isEmpty = true
      · rw [if_pos hd, (isEmpty_iff_items d).mp hd, itemsAll, dropForced]
      · rw [if_neg hd, itemsAll, itemsAll, List.append_nil]
        exact items_stripHardline d
    · have hne : itemsAll ds ≠ [] := fun h => hds ((allEmpty_iff_items ds).mpr h)
      rw [if_neg hds, itemsAll, items_stripLast ds, dropForced_append _ hne]

end

end Doc

/-! ## Joining texts -/

/-- No two texts follow each other. -/
def Apart (is : List Item) : Prop := ∀ s t, ¬ [.text s, .text t] <:+: is

theorem Apart.of_isInfix {is js : List Item} (h : Apart is) (hj : js <:+: is) : Apart js :=
  fun s t hst => h s t (hst.trans hj)

namespace Doc

/-- Two texts that follow each other print no more than one of them, if no two texts with characters
do. -/
theorem items_text_append {a b : Text} {is : List Item}
    (h : Apart ((text a).items ++ ((text b).items ++ is))) :
    (text (a ++ b)).items = (text a).items ++ (text b).items := by
  by_cases ha : a = []
  · rw [ha, List.nil_append, items_text_nil, List.nil_append]
  · by_cases hb : b = []
    · rw [hb, List.append_nil, items_text_nil, List.append_nil]
    · rw [items_text ha, items_text hb] at h
      exact absurd (List.prefix_append ([.text a] ++ [.text b]) is).isInfix (h a b)

theorem items_joinTexts : ∀ ds : List Doc, Apart (ds.flatMap items) →
    (joinTexts ds).flatMap items = ds.flatMap items
  | [], _ => rfl
  | d :: ds, h => by
    have ih := items_joinTexts ds (h.of_isInfix (List.suffix_append ..).isInfix)
    unfold joinTexts
    split
    · rename_i heq
      exact absurd heq (by simp)
    · rename_i a ds' heq
      obtain ⟨rfl, rfl⟩ := List.cons.inj heq
      rw [List.flatMap_cons, ← ih] at h ⊢
      split
      · rename_i b rest hrest
        rw [hrest, List.flatMap_cons] at h
        rw [hrest, List.flatMap_cons, List.flatMap_cons, items_text_append h, List.append_assoc]
      · rfl
    · rename_i d' ds' heq
      obtain ⟨rfl, rfl⟩ := List.cons.inj heq
      rw [List.flatMap_cons, List.flatMap_cons, ih]

mutual

/-- **Joining texts changes no item** where no two texts follow each other. -/
theorem items_mergeText : ∀ d : Doc, Apart d.items → d.mergeText.items = d.items
  | concat ds, h => by
    rw [items_concat] at h ⊢
    have hparts := items_mergeParts ds h
    rw [mergeText, items_join, items_joinTexts _ (hparts ▸ h), hparts]
  | indent d, h => by
    rw [items_indent] at h ⊢
    rw [mergeText, items_nest, items_mergeText d h]
  | group d _, h => by
    rw [items_group] at h ⊢
    rw [mergeText, items_group, items_mergeText d h]
  | empty, _ => by rw [mergeText]
  | text t, _ => by rw [mergeText]
  | line kind, _ => by rw [mergeText]

theorem items_mergeParts : ∀ ds : List Doc, Apart (ds.flatMap items) →
    (mergeParts ds).flatMap items = ds.flatMap items
  | [], _ => by rw [mergeParts]
  | d :: ds, h => by
    rw [List.flatMap_cons] at h ⊢
    rw [mergeParts, List.flatMap_append, items_parts,
      items_mergeText d (h.of_isInfix (List.prefix_append ..).isInfix),
      items_mergeParts ds (h.of_isInfix (List.suffix_append ..).isInfix)]

end

/-! ## Replacing texts -/

/-- The items of an item, with `f t` for the text `t`. -/
def itemsWith (f : Text → Doc) : Item → List Item
  | .text t => (f t).items
  | .line kind => [.line kind]

mutual

/-- A document with its texts replaced. -/
theorem items_mapText {f : Text → Doc} (hf : (f []).items = []) :
    ∀ d : Doc, (d.mapText f).items = d.items.flatMap (itemsWith f)
  | empty => by rw [mapText, items_empty, List.flatMap_nil]
  | text t => by
    rw [mapText]
    cases t with
    | nil => rw [hf, items_text_nil, List.flatMap_nil]
    | cons c t => rw [items_text (by simp), List.flatMap_singleton, itemsWith]
  | concat ds => by
    rw [mapText, items_concat, items_concat]
    exact items_mapTextAll hf ds
  | indent d => by
    rw [mapText, items_indent, items_indent]
    exact items_mapText hf d
  | group d _ => by
    rw [mapText, items_group, items_group]
    exact items_mapText hf d
  | line kind => by rw [mapText, items_line, List.flatMap_singleton, itemsWith]

theorem items_mapTextAll {f : Text → Doc} (hf : (f []).items = []) : ∀ ds : List Doc,
    (mapTextAll f ds).flatMap items = (ds.flatMap items).flatMap (itemsWith f)
  | [] => by rw [mapTextAll, List.flatMap_nil, List.flatMap_nil]
  | d :: ds => by
    rw [mapTextAll, List.flatMap_cons, List.flatMap_cons, List.flatMap_append, items_mapText hf d,
      items_mapTextAll hf ds]

end

/-- An item on one line, with `f t` for the text `t`. -/
def flatWith (f : Text → Doc) : Item → Text
  | .text t => (f t).flat
  | .line kind => (Item.line kind).flat

/-- The line of a document with its texts replaced. -/
theorem flat_mapText {f : Text → Doc} (hf : (f []).items = []) (d : Doc) :
    (d.mapText f).flat = d.items.flatMap (flatWith f) := by
  rw [flat, items_mapText hf, List.flatMap_assoc]
  congr 1
  funext i
  cases i with
  | text t => rfl
  | line kind => exact List.flatMap_singleton ..

/-- What is read off each text of a document. -/
def ofItem {α : Type} (g : Text → List α) : Item → List α
  | .text t => g t
  | .line _ => []

mutual

/-- The texts of a document are those of its items, the empty ones apart. -/
theorem leaves_flatMap {α : Type} {g : Text → List α} (hg : g [] = []) :
    ∀ d : Doc, d.leaves.flatMap g = d.items.flatMap (ofItem g)
  | empty => by rw [leaves, items_empty, List.flatMap_nil, List.flatMap_nil]
  | text t => by
    rw [leaves, List.flatMap_singleton]
    cases t with
    | nil => rw [hg, items_text_nil, List.flatMap_nil]
    | cons c t => rw [items_text (by simp), List.flatMap_singleton, ofItem]
  | concat ds => by
    rw [leaves, items_concat]
    exact leavesAll_flatMap hg ds
  | indent d => by
    rw [leaves, items_indent]
    exact leaves_flatMap hg d
  | group d _ => by
    rw [leaves, items_group]
    exact leaves_flatMap hg d
  | line kind => by rw [leaves, items_line, List.flatMap_nil, List.flatMap_singleton, ofItem]

theorem leavesAll_flatMap {α : Type} {g : Text → List α} (hg : g [] = []) :
    ∀ ds : List Doc, (leavesAll ds).flatMap g = (ds.flatMap items).flatMap (ofItem g)
  | [] => by rw [leavesAll, List.flatMap_nil, List.flatMap_nil, List.flatMap_nil]
  | d :: ds => by
    rw [leavesAll, List.flatMap_append, List.flatMap_cons, List.flatMap_append, leaves_flatMap hg d,
      leavesAll_flatMap hg ds]

end

end Doc

end TemplateFormat
