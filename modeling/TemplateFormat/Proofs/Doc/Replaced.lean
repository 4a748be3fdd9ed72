import TemplateFormat.Proofs.Doc.Merge

/-!
# Documents with their texts replaced

Where documents come in place of the texts of a document, groups can come in that hold forced line
breaks. A document without groups of its own has nothing else to mark: marking the groups of what
is put in does it (`propagate_mapText`).

Results:
* `forcesBreak_mapText`: a document with its texts replaced forces a break if it did before, or if
  something that is put in does.
* `propagate_mapText`: marking groups, before or after texts are replaced.
* `forcesBreak_of_items`: a forced line break in a document forces a break.
* `forcesBreak_join`, `same_ofText`: sequences and texts as they are built.
-/

namespace TemplateFormat

namespace Doc

open Render

mutual

/-- There is no group in the document. -/
def groupless : Doc → Bool
  | group _ _ => false
  | concat docs => grouplessAll docs
  | indent doc => groupless doc
  | empty => true
  | text _ => true
  | line _ => true

/-- There is no group in the documents. -/
def grouplessAll : List Doc → Bool
  | [] => true
  | d :: ds => groupless d && grouplessAll ds

end

theorem grouplessAll_iff {ds : List Doc} :
    grouplessAll ds = true ↔ ∀ d ∈ ds, d.groupless = true := by
  induction ds with
  | nil => simp [grouplessAll]
  | cons d ds ih => rw [grouplessAll, Bool.and_eq_true, ih, List.forall_mem_cons]

theorem groupless_join {ds : List Doc} (h : ∀ d ∈ ds, d.groupless = true) :
    (join ds).groupless = true := by
  have hfilter : ∀ d ∈ ds.filter fun d => !d.isEmpty, d.groupless = true :=
    fun d hd => h d (List.mem_of_mem_filter hd)
  unfold join
  split
  · rfl
  · rename_i d hone
    exact hfilter d (hone ▸ List.mem_singleton_self d)
  · rw [groupless]
    exact grouplessAll_iff.mpr hfilter

variable {f : Text → Doc}

mutual

/-- **A document with its texts replaced forces a break** if it did before, or if something that is
put in does. -/
theorem forcesBreak_mapText : ∀ d : Doc,
    (d.mapText f).forcesBreak = (d.forcesBreak || d.leaves.any fun t => (f t).forcesBreak)
  | empty => by rw [mapText, leaves, List.any_nil, Bool.or_false]
  | text t => by
    rw [mapText, leaves, List.any_cons, List.any_nil, Bool.or_false, forcesBreak, Bool.false_or]
  | concat ds => by
    rw [mapText, forcesBreak, forcesBreak, leaves]
    exact anyForces_mapTextAll ds
  | indent d => by
    rw [mapText, forcesBreak, forcesBreak, leaves]
    exact forcesBreak_mapText d
  | group d broken => by
    rw [mapText, forcesBreak, forcesBreak, leaves, forcesBreak_mapText d, Bool.or_assoc]
  | line kind => by rw [mapText, leaves, List.any_nil, Bool.or_false]

theorem anyForces_mapTextAll : ∀ ds : List Doc, anyForces (mapTextAll f ds) =
    (anyForces ds || (leavesAll ds).any fun t => (f t).forcesBreak)
  | [] => by rw [mapTextAll, leavesAll, List.any_nil, Bool.or_false]
  | d :: ds => by
    rw [mapTextAll, anyForces, anyForces, leavesAll, List.any_append, forcesBreak_mapText d,
      anyForces_mapTextAll ds, Bool.or_assoc, Bool.or_assoc]
    exact congrArg _ (Bool.or_left_comm _ _ _)

end

mutual

/-- **Marking the groups of a document with its texts replaced** is marking those of what is put
in, if it has no groups of its own. -/
theorem propagate_mapText : ∀ d : Doc, d.groupless = true →
    (d.mapText f).propagate = d.mapText fun t => (f t).propagate
  | empty, _ => by rw [mapText, mapText, propagate]
  | text t, _ => by rw [mapText, mapText]
  | concat ds, h => by
    rw [groupless] at h
    rw [mapText, mapText, propagate, propagateAll_mapTextAll ds h]
  | indent d, h => by
    rw [groupless] at h
    rw [mapText, mapText, propagate, propagate_mapText d h]
  | group d broken, h => absurd h (by simp [groupless])
  | line kind, _ => by rw [mapText, mapText, propagate]

theorem propagateAll_mapTextAll : ∀ ds : List Doc, grouplessAll ds = true →
    propagateAll (mapTextAll f ds) = mapTextAll (fun t => (f t).propagate) ds
  | [], _ => by rw [mapTextAll, mapTextAll, propagateAll]
  | d :: ds, h => by
    rw [grouplessAll, Bool.and_eq_true] at h
    rw [mapTextAll, mapTextAll, propagateAll, propagate_mapText d h.1,
      propagateAll_mapTextAll ds h.2]

end

/-! ## What is built -/

theorem same_ofText (t : Text) : Same (ofText t) (text t) := by
  unfold ofText
  split
  · rename_i h
    exact (same_empty (text t) h).symm
  · exact .refl _

theorem anyForces_eq_any (ds : List Doc) : anyForces ds = ds.any forcesBreak := by
  induction ds with
  | nil => rw [anyForces, List.any_nil]
  | cons d ds ih => rw [anyForces, List.any_cons, ih]

/-- A sequence forces a break if a part does, unless that part prints nothing. -/
theorem forcesBreak_join {ds : List Doc} (h : ∀ d ∈ ds, d.isEmpty = true → d.forcesBreak = false) :
    (join ds).forcesBreak = ds.any forcesBreak := by
  have hfilter : (ds.filter fun d => !d.isEmpty).any forcesBreak = ds.any forcesBreak := by
    induction ds with
    | nil => rfl
    | cons d ds ih =>
      obtain ⟨hd, hds⟩ := List.forall_mem_cons.mp h
      rw [List.filter_cons, List.any_cons, ← ih hds]
      cases he : d.isEmpty with
      | true =>
        rw [hd he]
        rfl
      | false => rfl
  rw [← hfilter]
  unfold join
  split
  · rename_i hnil
    rw [hnil]
    rfl
  · rename_i d hone
    rw [hone, List.any_cons, List.any_nil, Bool.or_false]
  · rw [forcesBreak, anyForces_eq_any]

mutual

/-- **A forced line break in a document** forces a break. -/
theorem forcesBreak_of_items {kind : Line} (hkind : kind.isForced = true) :
    ∀ d : Doc, .line kind ∈ d.items → d.forcesBreak = true
  | empty, h => absurd h (by simp)
  | text t, h => absurd h (by rw [items]; split <;> simp)
  | concat ds, h => by
    rw [items] at h
    rw [forcesBreak, anyForces_of_itemsAll hkind ds h]
  | indent d, h => by
    rw [items] at h
    rw [forcesBreak, forcesBreak_of_items hkind d h]
  | group d broken, h => by
    rw [items] at h
    rw [forcesBreak, forcesBreak_of_items hkind d h, Bool.or_true]
  | line k, h => by
    rw [items, List.mem_singleton] at h
    obtain rfl := Item.line.inj h
    rw [forcesBreak, hkind]

theorem anyForces_of_itemsAll {kind : Line} (hkind : kind.isForced = true) :
    ∀ ds : List Doc, .line kind ∈ itemsAll ds → anyForces ds = true
  | [], h => absurd h (by simp [itemsAll])
  | d :: ds, h => by
    rw [itemsAll, List.mem_append] at h
    rcases h with h | h
    · rw [anyForces, forcesBreak_of_items hkind d h, Bool.true_or]
    · rw [anyForces, anyForces_of_itemsAll hkind ds h, Bool.or_true]

end

/-- The parts of a sequence with their texts replaced. -/
theorem same_mapText_join {ds : List Doc} (h : ∀ d ∈ ds, d.isEmpty = false) :
    Same ((join ds).mapText f) (concat (ds.map (mapText f))) := by
  have hfilter : ds.filter (fun d => !d.isEmpty) = ds :=
    List.filter_eq_self.mpr fun d hd => by rw [h d hd]; rfl
  unfold join
  rw [hfilter]
  split
  · rw [mapText]
    exact same_nil.symm
  · exact (Same.singleton _).symm
  · rw [mapText, mapTextAll_eq_map]
    exact .refl _

end Doc

end TemplateFormat
