import TemplateFormat.Doc.Transform

/-!
# Texts in chunks

A text may be given as one leaf of a document or as several that follow each other. `Chunked d d'`
says that `d'` is `d` with some of its texts cut into chunks, each of them a sequence of texts in
the place of one. Removing the line break at the end keeps the relation, and joining texts undoes
the cuts, so afterwards the two documents are the same.

Results:
* `chunked_mapText`: cutting each text cuts the document.
* `Chunked.isEmpty_eq`: cutting texts does not change which documents print nothing.
* `Chunked.stripHardline`: the line break at the end is removed from both.
* `Chunked.mergeText_eq`: joining texts gives one document.
-/

namespace TemplateFormat

namespace Doc

/-! ## Documents with their texts cut -/

mutual

/-- The second document is the first with texts left whole or cut into chunks. -/
inductive Chunked : Doc → Doc → Prop where
  | empty : Chunked empty empty
  | line (kind : Line) : Chunked (line kind) (line kind)
  | whole (t : Text) : Chunked (text t) (text t)
  | cut {chunks : List Text} : chunks ≠ [] → [] ∉ chunks →
      Chunked (text chunks.flatten) (concat (chunks.map text))
  | concat {ds ds' : List Doc} : ChunkedAll ds ds' → Chunked (concat ds) (concat ds')
  | indent {d d' : Doc} : Chunked d d' → Chunked (indent d) (indent d')
  | group {d d' : Doc} (broken : Bool) : Chunked d d' → Chunked (group d broken) (group d' broken)

/-- The same of documents one by one. -/
inductive ChunkedAll : List Doc → List Doc → Prop where
  | nil : ChunkedAll [] []
  | cons {d d' : Doc} {ds ds' : List Doc} : Chunked d d' → ChunkedAll ds ds' →
      ChunkedAll (d :: ds) (d' :: ds')

end

/-! ## Chunks -/

section Chunks

variable {chunks : List Text}

theorem allEmpty_chunks (hne : chunks ≠ []) (h : [] ∉ chunks) :
    allEmpty (chunks.map text) = false := by
  cases chunks with
  | nil => exact absurd rfl hne
  | cons c chunks =>
    have hc : c ≠ [] := fun hc => h (hc ▸ List.mem_cons_self)
    rw [List.map_cons, allEmpty, isEmpty, List.isEmpty_eq_false_iff.mpr hc, Bool.false_and]

theorem flatten_chunks_ne_nil (hne : chunks ≠ []) (h : [] ∉ chunks) : chunks.flatten ≠ [] := by
  cases chunks with
  | nil => exact absurd rfl hne
  | cons c chunks =>
    have hc : c ≠ [] := fun hc => h (hc ▸ List.mem_cons_self)
    rw [List.flatten_cons]
    exact List.append_ne_nil_of_left_ne_nil hc _

/-- No chunk is removed from the end. -/
theorem stripLast_chunks (h : [] ∉ chunks) : stripLast (chunks.map text) = chunks.map text := by
  induction chunks with
  | nil => rw [List.map_nil, stripLast]
  | cons c chunks ih =>
    rw [List.mem_cons, not_or] at h
    rw [List.map_cons, stripLast, ih h.2]
    by_cases hempty : chunks = []
    · subst hempty
      have hc : c.isEmpty = false := List.isEmpty_eq_false_iff.mpr (Ne.symm h.1)
      simp [allEmpty, isEmpty, stripHardline, hc]
    · rw [if_neg (by rw [allEmpty_chunks hempty h.2]; simp)]

/-- Chunks that follow each other are joined into one text. -/
theorem joinTexts_chunks (hne : chunks ≠ []) :
    joinTexts (chunks.map text) = [text chunks.flatten] := by
  induction chunks with
  | nil => exact absurd rfl hne
  | cons c chunks ih =>
    rw [List.map_cons, joinTexts, List.flatten_cons]
    by_cases hempty : chunks = []
    · subst hempty
      rw [List.map_nil, joinTexts, List.flatten_nil, List.append_nil]
    · rw [ih hempty]

theorem mergeParts_chunks (chunks : List Text) :
    mergeParts (chunks.map text) = chunks.map text := by
  induction chunks with
  | nil => rw [List.map_nil, mergeParts]
  | cons c chunks ih =>
    rw [List.map_cons, mergeParts, mergeText, ih]
    rfl

/-- **Joining texts undoes a cut.** -/
theorem mergeText_chunks (hne : chunks ≠ []) (h : [] ∉ chunks) :
    mergeText (concat (chunks.map text)) = text chunks.flatten := by
  have htext : (text chunks.flatten).isEmpty = false := by
    rw [isEmpty]
    exact List.isEmpty_eq_false_iff.mpr (flatten_chunks_ne_nil hne h)
  rw [mergeText, mergeParts_chunks, joinTexts_chunks hne, join]
  simp [htext]

/-- The sequence of chunks without its empty parts is a text cut into the same chunks. -/
theorem chunked_join_chunks (hne : chunks ≠ []) (h : [] ∉ chunks) :
    Chunked (text chunks.flatten) (join (chunks.map text)) := by
  have hfilter : (chunks.map text).filter (fun d => !d.isEmpty) = chunks.map text := by
    refine List.filter_eq_self.mpr fun d hd => ?_
    obtain ⟨c, hc, rfl⟩ := List.mem_map.mp hd
    have hc' : c ≠ [] := fun he => h (he ▸ hc)
    simp [isEmpty, hc']
  unfold join
  rw [hfilter]
  rcases chunks with _ | ⟨c, _ | ⟨c', rest⟩⟩
  · exact absurd rfl hne
  · rw [List.flatten_cons, List.flatten_nil, List.append_nil]
    exact .whole c
  · exact .cut hne h

end Chunks

mutual

/-- A document with each of its texts replaced by chunks of it. -/
theorem chunked_mapText {f : Text → Doc} (h : ∀ t, Chunked (text t) (f t)) : ∀ d : Doc,
    Chunked d (d.mapText f)
  | .empty => by
    rw [mapText]
    exact .empty
  | .text t => by
    rw [mapText]
    exact h t
  | .concat ds => by
    rw [mapText]
    exact .concat (chunkedAll_mapTextAll h ds)
  | .indent d => by
    rw [mapText]
    exact .indent (chunked_mapText h d)
  | .group d broken => by
    rw [mapText]
    exact .group broken (chunked_mapText h d)
  | .line kind => by
    rw [mapText]
    exact .line kind

theorem chunkedAll_mapTextAll {f : Text → Doc} (h : ∀ t, Chunked (text t) (f t)) :
    ∀ ds : List Doc, ChunkedAll ds (mapTextAll f ds)
  | [] => by
    rw [mapTextAll]
    exact .nil
  | d :: ds => by
    rw [mapTextAll]
    exact .cons (chunked_mapText h d) (chunkedAll_mapTextAll h ds)

end

/-! ## Rebuilding both documents -/

mutual

/-- Cutting texts does not change which documents print nothing. -/
theorem Chunked.isEmpty_eq : ∀ {d d' : Doc}, Chunked d d' → d'.isEmpty = d.isEmpty
  | _, _, .empty => rfl
  | _, _, .line _ => rfl
  | _, _, .whole _ => rfl
  | _, _, .cut hne h => by
    rw [isEmpty, isEmpty, allEmpty_chunks hne h]
    exact (List.isEmpty_eq_false_iff.mpr (flatten_chunks_ne_nil hne h)).symm
  | _, _, .concat h => by
    rw [isEmpty, isEmpty]
    exact ChunkedAll.allEmpty_eq h
  | _, _, .indent h => by
    rw [isEmpty, isEmpty]
    exact Chunked.isEmpty_eq h
  | _, _, .group _ h => by
    rw [isEmpty, isEmpty]
    exact Chunked.isEmpty_eq h

theorem ChunkedAll.allEmpty_eq : ∀ {ds ds' : List Doc}, ChunkedAll ds ds' →
    allEmpty ds' = allEmpty ds
  | _, _, .nil => rfl
  | _, _, .cons hd hds => by
    rw [allEmpty, allEmpty, Chunked.isEmpty_eq hd, ChunkedAll.allEmpty_eq hds]

end

theorem ChunkedAll.filter {ds ds' : List Doc} (h : ChunkedAll ds ds') :
    ChunkedAll (ds.filter fun d => !d.isEmpty) (ds'.filter fun d => !d.isEmpty) := by
  match h with
  | .nil => exact .nil
  | .cons hd hds =>
    rw [List.filter_cons, List.filter_cons, hd.isEmpty_eq]
    split
    · exact .cons hd hds.filter
    · exact hds.filter

theorem ChunkedAll.join {ds ds' : List Doc} (h : ChunkedAll ds ds') :
    Chunked (join ds) (join ds') := by
  have hfilter := h.filter
  unfold Doc.join
  generalize (ds.filter fun d => !d.isEmpty) = kept at hfilter ⊢
  generalize (ds'.filter fun d => !d.isEmpty) = kept' at hfilter ⊢
  match hfilter with
  | .nil => exact .empty
  | .cons hd .nil => exact hd
  | .cons hd (.cons he hrest) => exact .concat (.cons hd (.cons he hrest))

theorem Chunked.nest {d d' : Doc} (h : Chunked d d') : Chunked d.nest d'.nest := by
  unfold Doc.nest
  rw [h.isEmpty_eq]
  split
  · exact .empty
  · exact .indent h

mutual

/-- **The line break at the end is removed from both.** -/
theorem Chunked.stripHardline : ∀ {d d' : Doc}, Chunked d d' →
    Chunked d.stripHardline d'.stripHardline
  | _, _, .empty => by
    rw [Doc.stripHardline]
    exact .empty
  | _, _, .line kind => by
    rw [Doc.stripHardline]
    split
    · exact .empty
    · exact .line kind
  | _, _, .whole t => by
    rw [Doc.stripHardline]
    exact .whole t
  | _, _, .cut hne h => by
    rw [Doc.stripHardline, Doc.stripHardline, stripLast_chunks h]
    exact chunked_join_chunks hne h
  | _, _, .concat h => by
    rw [Doc.stripHardline, Doc.stripHardline]
    exact (ChunkedAll.stripLast h).join
  | _, _, .indent h => by
    rw [Doc.stripHardline, Doc.stripHardline]
    exact (Chunked.stripHardline h).nest
  | _, _, .group broken h => by
    rw [Doc.stripHardline, Doc.stripHardline]
    exact .group broken (Chunked.stripHardline h)

theorem ChunkedAll.stripLast : ∀ {ds ds' : List Doc}, ChunkedAll ds ds' →
    ChunkedAll (stripLast ds) (stripLast ds')
  | _, _, .nil => by
    rw [Doc.stripLast]
    exact .nil
  | _, _, .cons hd hds => by
    rw [Doc.stripLast, Doc.stripLast, hds.allEmpty_eq, hd.isEmpty_eq]
    split
    · split
      · exact .nil
      · exact .cons (Chunked.stripHardline hd) .nil
    · exact .cons hd (ChunkedAll.stripLast hds)

end

mutual

/-- **Joining texts gives one document**, whole or cut as the texts may have been. -/
theorem Chunked.mergeText_eq : ∀ {d d' : Doc}, Chunked d d' → d'.mergeText = d.mergeText
  | _, _, .empty => rfl
  | _, _, .line _ => rfl
  | _, _, .whole _ => rfl
  | _, _, .cut hne h => by
    rw [mergeText_chunks hne h, mergeText]
  | _, _, .concat h => by
    rw [mergeText, mergeText, ChunkedAll.mergeParts_eq h]
  | _, _, .indent h => by
    rw [mergeText, mergeText, Chunked.mergeText_eq h]
  | _, _, .group _ h => by
    rw [mergeText, mergeText, Chunked.mergeText_eq h]

theorem ChunkedAll.mergeParts_eq : ∀ {ds ds' : List Doc}, ChunkedAll ds ds' →
    mergeParts ds' = mergeParts ds
  | _, _, .nil => rfl
  | _, _, .cons hd hds => by
    rw [mergeParts, mergeParts, Chunked.mergeText_eq hd, ChunkedAll.mergeParts_eq hds]

end

end Doc

end TemplateFormat
