import TemplateFormat.Proofs.Doc.Within

/-!
# Where a part stands in a document

`Doc.After d direct is e` says that `d` is a part of `e` and the items `is` come before it. It also
says if a group stands between the two, because only a group changes how line breaks are printed.

Results:
* `After.items_eq`: the items of the whole are those before the part, its own, and those behind it.
* `After.trans`: a part of a part.
* `After.join`, `After.nest`, `After.propagate`, `After.mapText`: parts of documents that are built.
* `After.of_items`: every text among the items is a part.
-/

namespace TemplateFormat

namespace Doc

/-- The document is a part of another one, behind the items `is`; `direct` if no group stands
between the two. -/
inductive After (d : Doc) : Bool → List Item → Doc → Prop
  | refl : After d true [] d
  | concat {direct : Bool} {is : List Item} {e : Doc} (ds es : List Doc)
      (h : After d direct is e) : After d direct (ds.flatMap items ++ is) (.concat (ds ++ e :: es))
  | indent {direct : Bool} {is : List Item} {e : Doc} (h : After d direct is e) :
      After d direct is (.indent e)
  | group {direct : Bool} {is : List Item} {e : Doc} (broken : Bool) (h : After d direct is e) :
      After d false is (.group e broken)

theorem propagateAll_eq_map (ds : List Doc) : propagateAll ds = ds.map propagate := by
  induction ds with
  | nil => rw [propagateAll, List.map_nil]
  | cons d ds ih => rw [propagateAll, ih, List.map_cons]

theorem mapTextAll_eq_map (f : Text → Doc) (ds : List Doc) :
    mapTextAll f ds = ds.map (mapText f) := by
  induction ds with
  | nil => rw [mapTextAll, List.map_nil]
  | cons d ds ih => rw [mapTextAll, ih, List.map_cons]

namespace After

variable {d e : Doc} {direct : Bool} {is : List Item}

theorem within (h : After d direct is e) : Within d e := by
  induction h with
  | refl => exact .refl
  | concat ds es _ ih => exact .concat (List.mem_append_right ds List.mem_cons_self) ih
  | indent _ ih => exact .indent ih
  | group _ _ ih => exact .group ih

/-- The items before a part, its own, and those behind it. -/
theorem items_eq (h : After d direct is e) : ∃ js, e.items = is ++ (d.items ++ js) := by
  induction h with
  | refl => exact ⟨[], (List.append_nil _).symm⟩
  | concat ds es _ ih =>
    obtain ⟨js, hjs⟩ := ih
    refine ⟨js ++ es.flatMap items, ?_⟩
    rw [items_concat, List.flatMap_append, List.flatMap_cons, hjs]
    simp only [List.append_assoc]
  | indent _ ih => rwa [items_indent]
  | group _ _ ih => rwa [items_group]

theorem trans {f : Doc} {direct' : Bool} {js : List Item} (h : After d direct is e)
    (h' : After e direct' js f) : After d (direct && direct') (js ++ is) f := by
  induction h' with
  | refl => rwa [Bool.and_true]
  | concat ds es _ ih =>
    rw [List.append_assoc]
    exact .concat ds es ih
  | indent _ ih => exact .indent ih
  | group broken _ ih =>
    rw [Bool.and_false]
    exact .group broken ih

/-- **A part that prints something** comes behind the documents before it. -/
theorem join (ds es : List Doc) (hd : d.isEmpty = false) (h : After d direct is e) :
    After d direct (ds.flatMap items ++ is) (Doc.join (ds ++ e :: es)) := by
  have hfilter : (ds ++ e :: es).filter (fun d => !d.isEmpty) =
      ds.filter (fun d => !d.isEmpty) ++ e :: es.filter fun d => !d.isEmpty := by
    rw [List.filter_append, List.filter_cons_of_pos (by simp [h.within.isEmpty_eq_false hd])]
  unfold Doc.join
  rw [hfilter, ← itemsAll_filter ds]
  generalize ds.filter (fun d => !d.isEmpty) = ds
  generalize es.filter (fun d => !d.isEmpty) = es
  split
  · rename_i hnil
    exact absurd hnil (by simp)
  · rename_i hsingle
    cases ds with
    | nil =>
      rw [← (List.cons.inj hsingle).1]
      exact h
    | cons x ds => exact absurd hsingle (by simp)
  · exact .concat ds es h

theorem nest (hd : d.isEmpty = false) (h : After d direct is e) : After d direct is e.nest := by
  rw [Doc.nest, h.within.isEmpty_eq_false hd]
  exact .indent h

theorem propagate (h : After d direct is e) : After d.propagate direct is e.propagate := by
  induction h with
  | refl => exact .refl
  | concat ds es _ ih =>
    have hitems : ds.flatMap items = (ds.map Doc.propagate).flatMap items := by
      rw [List.flatMap_map]
      congr 1
      funext d
      exact (items_propagate d).symm
    rw [Doc.propagate, propagateAll_eq_map, List.map_append, List.map_cons, hitems]
    exact .concat _ _ ih
  | indent _ ih =>
    rw [Doc.propagate]
    exact .indent ih
  | group _ _ ih =>
    rw [Doc.propagate]
    exact .group _ ih

/-- A part of what a text becomes is a part of the document with that text. -/
theorem mapText {f : Text → Doc} (hf : (f []).items = []) {t : Text} {js : List Item}
    {direct' : Bool} (hd : After d direct' js (f t)) (h : After (.text t) direct is e) :
    ∃ direct, After d direct (is.flatMap (itemsWith f) ++ js) (e.mapText f) := by
  induction h with
  | refl =>
    rw [Doc.mapText]
    exact ⟨_, hd⟩
  | concat ds es _ ih =>
    obtain ⟨direct, h⟩ := ih
    refine ⟨direct, ?_⟩
    have hitems : (ds.flatMap items).flatMap (itemsWith f) =
        (ds.map (Doc.mapText f)).flatMap items := by
      rw [List.flatMap_map, List.flatMap_assoc]
      congr 1
      funext d
      exact (items_mapText hf d).symm
    rw [Doc.mapText, mapTextAll_eq_map, List.map_append, List.map_cons, List.flatMap_append,
      List.append_assoc, hitems]
    exact .concat _ _ h
  | indent _ ih =>
    obtain ⟨direct, h⟩ := ih
    rw [Doc.mapText]
    exact ⟨direct, .indent h⟩
  | group broken _ ih =>
    obtain ⟨direct, h⟩ := ih
    rw [Doc.mapText]
    exact ⟨false, .group broken h⟩

mutual

/-- Every text among the items is a part of the document. -/
theorem of_items {t : Text} : ∀ (e : Doc) {is js : List Item}, e.items = is ++ .text t :: js →
    ∃ direct, After (.text t) direct is e
  | .empty, is, js, h => absurd h (by simp)
  | .text s, is, js, h => by
    by_cases hs : s = []
    · rw [hs, items_text_nil] at h
      exact absurd h (by simp)
    · rw [items_text hs] at h
      cases is with
      | nil =>
        rw [Item.text.inj (List.cons.inj h).1]
        exact ⟨true, .refl⟩
      | cons i is => exact absurd h (by simp)
  | .concat ds, is, js, h => by
    rw [items_concat] at h
    obtain ⟨es, e, es', is', direct, rfl, rfl, hafter⟩ := of_itemsAll ds h
    exact ⟨direct, .concat es es' hafter⟩
  | .indent e, is, js, h => by
    rw [items_indent] at h
    obtain ⟨direct, hafter⟩ := of_items e h
    exact ⟨direct, .indent hafter⟩
  | .group e broken, is, js, h => by
    rw [items_group] at h
    obtain ⟨direct, hafter⟩ := of_items e h
    exact ⟨false, .group broken hafter⟩
  | .line kind, is, js, h => by
    rw [items_line] at h
    cases is with
    | nil => exact absurd (List.cons.inj h).1 (by simp)
    | cons i is => exact absurd h (by simp)

theorem of_itemsAll {t : Text} : ∀ (ds : List Doc) {is js : List Item},
    ds.flatMap items = is ++ .text t :: js → ∃ es e es' is' direct, ds = es ++ e :: es' ∧
      is = es.flatMap items ++ is' ∧ After (.text t) direct is' e
  | [], is, js, h => absurd h (by simp)
  | d :: ds, is, js, h => by
    rw [List.flatMap_cons] at h
    rcases List.append_eq_append_iff.mp h with ⟨is', rfl, hrest⟩ | ⟨js', hitems, hjs⟩
    · obtain ⟨es, e, es', is'', direct, rfl, rfl, hafter⟩ := of_itemsAll ds hrest
      refine ⟨d :: es, e, es', is'', direct, rfl, ?_, hafter⟩
      rw [List.flatMap_cons, List.append_assoc]
    · cases js' with
      | nil =>
        obtain ⟨es, e, es', is'', direct, rfl, his, hafter⟩ :=
          of_itemsAll ds (show ds.flatMap items = [] ++ .text t :: js from hjs.symm)
        refine ⟨d :: es, e, es', is'', direct, rfl, ?_, hafter⟩
        rw [List.flatMap_cons, List.append_assoc, ← his, hitems, List.append_nil, List.append_nil]
      | cons i js' =>
        rw [List.cons_append] at hjs
        rw [← (List.cons.inj hjs).1] at hitems
        obtain ⟨direct, hafter⟩ := of_items d hitems
        exact ⟨[], d, ds, is, direct, rfl, rfl, hafter⟩

end

end After

end Doc

end TemplateFormat
