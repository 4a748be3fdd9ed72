import TemplateFormat.Proofs.Doc.Merge

/-!
# Torn sequences

When the texts of a sequence are joined, nested sequences are made flat first, and what prints
nothing is left out last. So a part that prints nothing keeps the texts around it apart, though
nothing stands between them in the end: the sequence is `torn`. A text without characters tears no
sequence. Neither does anything in an inner sequence, whose parts are left out before the outer one is
joined.

What is left of a document among the parts of a merged sequence starts and ends as the document does
(`Leaves`), so it tears the sequence where the document does (`Keeps`).

Results:
* `keeps_joinTexts`: joining texts tears nothing and mends nothing.
* `keeps_mergeParts`: the parts of merged documents are torn as the documents are.
-/

namespace TemplateFormat

namespace Doc

/-! ## Texts in a sequence -/

/-- The document is a text. -/
def isText : Doc → Bool
  | text _ => true
  | _ => false

/-- The document is a sequence. -/
def isConcat : Doc → Bool
  | concat _ => true
  | _ => false

mutual

/-- The first part of the document that prints something is a text. -/
def startsText : Doc → Bool
  | text t => !t.isEmpty
  | concat docs => startsTextAll docs
  | empty => false
  | indent _ => false
  | group _ _ => false
  | line _ => false

/-- The first part of the documents that prints something is a text. -/
def startsTextAll : List Doc → Bool
  | [] => false
  | d :: ds => if isEmpty d then startsTextAll ds else startsText d

end

mutual

/-- The last part of the document that prints something is a text. -/
def endsText : Doc → Bool
  | text t => !t.isEmpty
  | concat docs => endsTextAll docs
  | empty => false
  | indent _ => false
  | group _ _ => false
  | line _ => false

/-- The last part of the documents that prints something is a text. -/
def endsTextAll : List Doc → Bool
  | [] => false
  | d :: ds => if allEmpty ds then endsText d else endsTextAll ds

end

/-- Before the documents print anything, one of them is no text. -/
def startsGap (ds : List Doc) : Bool := (ds.takeWhile isEmpty).any fun d => !d.isText

/-- Between two texts of the sequence stands something that is no text and prints nothing. -/
def torn : List Doc → Bool
  | [] => false
  | d :: ds => (d.endsText && startsGap ds && startsTextAll ds) || torn ds

mutual

/-- A sequence in the document is torn. A sequence inside of a sequence is a part of that one. -/
def hasTorn : Doc → Bool
  | concat docs => torn docs || hasTornParts docs
  | indent doc => hasTorn doc
  | group doc _ => hasTorn doc
  | empty => false
  | text _ => false
  | line _ => false

/-- A sequence in the part of a sequence is torn. -/
def hasTornPart : Doc → Bool
  | concat docs => hasTornParts docs
  | indent doc => hasTorn doc
  | group doc _ => hasTorn doc
  | empty => false
  | text _ => false
  | line _ => false

/-- A sequence in the parts of a sequence is torn. -/
def hasTornParts : List Doc → Bool
  | [] => false
  | d :: ds => hasTornPart d || hasTornParts ds

end

mutual

/-- A document that prints nothing does not end with a text. -/
theorem endsText_of_isEmpty : ∀ d : Doc, d.isEmpty = true → d.endsText = false
  | text t, h => by
    rw [isEmpty] at h
    rw [endsText, h, Bool.not_true]
  | concat ds, h => by
    rw [isEmpty] at h
    rw [endsText, endsTextAll_of_allEmpty ds h]
  | empty, _ => rfl
  | indent _, _ => rfl
  | group _ _, _ => rfl
  | line _, _ => rfl

theorem endsTextAll_of_allEmpty : ∀ ds : List Doc, allEmpty ds = true → endsTextAll ds = false
  | [], _ => rfl
  | d :: ds, h => by
    rw [allEmpty, Bool.and_eq_true] at h
    rw [endsTextAll, if_pos h.2, endsText_of_isEmpty d h.1]

end

variable {d e : Doc} {ds ps qs : List Doc}

/-- What prints something and is no sequence starts with a text if it is one. -/
theorem startsText_eq (hd : d.isEmpty = false) (h : d.isConcat = false) :
    d.startsText = d.isText := by
  cases d with
  | text t =>
    rw [isEmpty] at hd
    rw [startsText, hd]
    rfl
  | concat ds => exact absurd h (by simp [isConcat])
  | _ => rfl

/-- What is no sequence has one part, the first and the last. -/
theorem endsText_eq_startsText (h : d.isConcat = false) : d.endsText = d.startsText := by
  cases d with
  | concat ds => exact absurd h (by simp [isConcat])
  | _ => rfl

theorem endsText_eq (hd : d.isEmpty = false) (h : d.isConcat = false) :
    d.endsText = d.isText :=
  (endsText_eq_startsText h).trans (startsText_eq hd h)

/-! ## In front of other documents -/

theorem startsGap_of_isEmpty (h : d.isEmpty = true) (ds : List Doc) :
    startsGap (d :: ds) = (!d.isText || startsGap ds) := by
  rw [startsGap, List.takeWhile_cons_of_pos h, List.any_cons, startsGap]

theorem startsGap_of_not_isEmpty (h : d.isEmpty = false) (ds : List Doc) :
    startsGap (d :: ds) = false := by
  rw [startsGap, List.takeWhile_cons_of_neg (by simp [h]), List.any_nil]

/-- Documents that all print something, in front of others. -/
theorem allEmpty_shown_append (hne : ps ≠ []) (hall : ∀ e ∈ ps, e.isEmpty = false)
    (qs : List Doc) : allEmpty (ps ++ qs) = false := by
  obtain ⟨p, ps, rfl⟩ := List.exists_cons_of_ne_nil hne
  rw [List.cons_append, allEmpty, hall p List.mem_cons_self, Bool.false_and]

theorem allEmpty_of_shown (hne : ps ≠ []) (hall : ∀ e ∈ ps, e.isEmpty = false) :
    allEmpty ps = false := by
  have h := allEmpty_shown_append hne hall []
  rwa [List.append_nil] at h

theorem startsTextAll_shown_append (hne : ps ≠ []) (hall : ∀ e ∈ ps, e.isEmpty = false)
    (qs : List Doc) : startsTextAll (ps ++ qs) = startsTextAll ps := by
  obtain ⟨p, ps, rfl⟩ := List.exists_cons_of_ne_nil hne
  have hp := hall p List.mem_cons_self
  rw [List.cons_append, startsTextAll, startsTextAll, hp, if_neg Bool.false_ne_true,
    if_neg Bool.false_ne_true]

theorem startsGap_shown_append (hne : ps ≠ []) (hall : ∀ e ∈ ps, e.isEmpty = false)
    (qs : List Doc) : startsGap (ps ++ qs) = false := by
  obtain ⟨p, ps, rfl⟩ := List.exists_cons_of_ne_nil hne
  exact startsGap_of_not_isEmpty (hall p List.mem_cons_self) _

theorem endsTextAll_shown_append (hne : ps ≠ []) (hall : ∀ e ∈ ps, e.isEmpty = false)
    (qs : List Doc) :
    endsTextAll (ps ++ qs) = if allEmpty qs then endsTextAll ps else endsTextAll qs := by
  induction ps with
  | nil => exact absurd rfl hne
  | cons p ps ih =>
    rw [List.cons_append, endsTextAll, endsTextAll]
    cases ps with
    | nil => rfl
    | cons p' ps =>
      have hrest : ∀ e ∈ p' :: ps, e.isEmpty = false :=
        fun e he => hall e (List.mem_cons_of_mem p he)
      rw [allEmpty_shown_append (List.cons_ne_nil p' ps) hrest, if_neg Bool.false_ne_true,
        ih (List.cons_ne_nil p' ps) hrest, allEmpty_of_shown (List.cons_ne_nil p' ps) hrest,
        if_neg Bool.false_ne_true]

theorem torn_shown_append (hne : ps ≠ []) (hall : ∀ e ∈ ps, e.isEmpty = false)
    (qs : List Doc) :
    torn (ps ++ qs) = ((endsTextAll ps && startsGap qs && startsTextAll qs) || torn qs) := by
  induction ps with
  | nil => exact absurd rfl hne
  | cons p ps ih =>
    rw [List.cons_append, torn, endsTextAll]
    cases ps with
    | nil => rfl
    | cons p' ps =>
      have hrest : ∀ e ∈ p' :: ps, e.isEmpty = false :=
        fun e he => hall e (List.mem_cons_of_mem p he)
      rw [startsGap_shown_append (List.cons_ne_nil p' ps) hrest, Bool.and_false, Bool.false_and,
        Bool.false_or, ih (List.cons_ne_nil p' ps) hrest,
        allEmpty_of_shown (List.cons_ne_nil p' ps) hrest, if_neg Bool.false_ne_true]

/-! ## Merged parts -/

/-- What is left of a document among the parts of a merged sequence: something that prints nothing,
and is a text if the document is, or documents that start and end as it does. -/
inductive Leaves (d : Doc) : List Doc → Prop
  | nothing (e : Doc) (hd : d.isEmpty = true) (he : e.isEmpty = true) (hflat : e.isConcat = false)
      (htext : e.isText = d.isText) : Leaves d [e]
  | something (ps : List Doc) (hd : d.isEmpty = false) (hne : ps ≠ [])
      (hall : ∀ e ∈ ps, e.isEmpty = false) (hflat : ∀ e ∈ ps, e.isConcat = false)
      (hstarts : startsTextAll ps = d.startsText) (hends : endsTextAll ps = d.endsText) :
      Leaves d ps

/-- The parts `ps` are no sequences, and their texts are torn as those of `ds` are. -/
structure Keeps (ds ps : List Doc) : Prop where
  flat : ∀ e ∈ ps, e.isConcat = false
  empty : allEmpty ps = allEmpty ds
  starts : startsTextAll ps = startsTextAll ds
  ends : endsTextAll ps = endsTextAll ds
  gap : startsGap ps = startsGap ds
  torn : torn ps = torn ds

theorem Leaves.allEmpty_eq (h : Leaves d ps) : allEmpty ps = d.isEmpty := by
  cases h with
  | nothing e hd he => rw [allEmpty, allEmpty, he, hd, Bool.and_self]
  | something ps hd hne hall => rw [allEmpty_of_shown hne hall, hd]

theorem keeps_nil : Keeps [] [] := ⟨by simp, rfl, rfl, rfl, rfl, rfl⟩

theorem Keeps.cons (hd : Leaves d ps) (h : Keeps ds qs) : Keeps (d :: ds) (ps ++ qs) := by
  cases hd with
  | nothing e hd he hflat htext =>
    rw [List.singleton_append]
    refine ⟨List.forall_mem_cons.mpr ⟨hflat, h.flat⟩, ?_, ?_, ?_, ?_, ?_⟩
    · rw [allEmpty, allEmpty, he, hd, h.empty]
    · rw [startsTextAll, startsTextAll, if_pos he, if_pos hd, h.starts]
    · rw [endsTextAll, endsTextAll, endsText_of_isEmpty e he, endsText_of_isEmpty d hd, h.empty,
        h.ends]
    · rw [startsGap_of_isEmpty he, startsGap_of_isEmpty hd, htext, h.gap]
    · rw [Doc.torn, Doc.torn, endsText_of_isEmpty e he, endsText_of_isEmpty d hd, h.torn]
      rfl
  | something ps hd hne hall hflat hstarts hends =>
    refine ⟨?_, ?_, ?_, ?_, ?_, ?_⟩
    · intro e he
      rcases List.mem_append.mp he with he | he
      · exact hflat e he
      · exact h.flat e he
    · rw [allEmpty_shown_append hne hall, allEmpty, hd, Bool.false_and]
    · rw [startsTextAll_shown_append hne hall, hstarts, startsTextAll, hd,
        if_neg Bool.false_ne_true]
    · rw [endsTextAll_shown_append hne hall, hends, endsTextAll, h.empty, h.ends]
    · rw [startsGap_shown_append hne hall, startsGap_of_not_isEmpty hd]
    · rw [torn_shown_append hne hall, hends, h.gap, h.starts, h.torn, Doc.torn]

theorem Keeps.trans (h : Keeps ds ps) (h' : Keeps ps qs) : Keeps ds qs :=
  ⟨h'.flat, h'.empty.trans h.empty, h'.starts.trans h.starts, h'.ends.trans h.ends,
    h'.gap.trans h.gap, h'.torn.trans h.torn⟩

/-- A document that is no sequence leaves one that is no sequence either. -/
theorem leaves_singleton (hd : d.isConcat = false) (he : e.isConcat = false)
    (hempty : e.isEmpty = d.isEmpty) (htext : e.isText = d.isText) : Leaves d [e] := by
  cases hshown : d.isEmpty with
  | true => exact .nothing e hshown (hempty.trans hshown) he htext
  | false =>
    have heshown := hempty.trans hshown
    refine .something [e] hshown (List.cons_ne_nil e []) (List.forall_mem_singleton.mpr heshown)
      (List.forall_mem_singleton.mpr he) ?_ ?_
    · rw [startsTextAll, heshown, if_neg Bool.false_ne_true, startsText_eq heshown he, htext,
        startsText_eq hshown hd]
    · rw [endsTextAll, allEmpty, if_pos rfl, endsText_eq heshown he, htext, endsText_eq hshown hd]

theorem leaves_self (h : d.isConcat = false) : Leaves d [d] := leaves_singleton h h rfl rfl

/-- A text without characters may be left out. -/
theorem keeps_drop_nil (h : ∀ e ∈ ds, e.isConcat = false) : Keeps (text [] :: ds) ds := by
  refine ⟨h, ?_, ?_, ?_, ?_, ?_⟩
  · rw [allEmpty]
    rfl
  · rw [startsTextAll]
    rfl
  · rw [endsTextAll]
    split
    · rename_i hempty
      rw [endsTextAll_of_allEmpty ds hempty]
      rfl
    · rfl
  · have hnil : (text []).isEmpty = true := rfl
    rw [startsGap_of_isEmpty hnil]
    rfl
  · rw [torn]
    rfl

/-- Two texts that follow each other may be joined. -/
theorem keeps_texts (a b : Text) (h : ∀ e ∈ ds, e.isConcat = false) :
    Keeps (text a :: text b :: ds) (text (a ++ b) :: ds) := by
  have hflat (t : Text) : ∀ e ∈ text t :: ds, e.isConcat = false :=
    List.forall_mem_cons.mpr ⟨rfl, h⟩
  by_cases ha : a = []
  · subst ha
    exact keeps_drop_nil (hflat b)
  by_cases hb : b = []
  · subst hb
    rw [List.append_nil]
    exact Keeps.cons (leaves_self rfl) (keeps_drop_nil h)
  -- both texts print something, and the first is not followed by a gap
  have hshown {t : Text} (ht : t ≠ []) : (text t).isEmpty = false := by
    rwa [isEmpty, List.isEmpty_eq_false_iff]
  have hstarts {t : Text} (ht : t ≠ []) : (text t).startsText = true :=
    startsText_eq (hshown ht) rfl
  have hends {t : Text} (ht : t ≠ []) : (text t).endsText = true := endsText_eq (hshown ht) rfl
  have hab : a ++ b ≠ [] := List.append_ne_nil_of_left_ne_nil ha b
  refine ⟨hflat _, ?_, ?_, ?_, ?_, ?_⟩
  · rw [allEmpty, allEmpty, hshown hab, hshown ha, Bool.false_and, Bool.false_and]
  · rw [startsTextAll, startsTextAll, hshown hab, hshown ha, hstarts hab, hstarts ha]
    rfl
  · rw [endsTextAll, endsTextAll, endsTextAll, allEmpty, hshown hb, hends hab, hends hb]
    rfl
  · rw [startsGap_of_not_isEmpty (hshown hab), startsGap_of_not_isEmpty (hshown ha)]
  · rw [torn, torn, torn, startsGap_of_not_isEmpty (hshown hb), hends hab, hends hb, Bool.and_false,
      Bool.false_and, Bool.false_or]

/-- Joining texts that follow each other tears nothing and mends nothing. -/
theorem keeps_joinTexts (ds : List Doc) (h : ∀ e ∈ ds, e.isConcat = false) :
    Keeps ds (joinTexts ds) := by
  induction ds with
  | nil => exact keeps_nil
  | cons d ds ih =>
    obtain ⟨hd, hds⟩ := List.forall_mem_cons.mp h
    have hcons := Keeps.cons (leaves_self hd) (ih hds)
    rw [List.singleton_append] at hcons
    rcases joinTexts_cons d ds with hjoin | ⟨a, b, rest, rfl, hrest, hjoin⟩
    · rw [hjoin]
      exact hcons
    · rw [hrest] at hcons
      rw [hjoin]
      exact hcons.trans (keeps_texts a b fun e he => hcons.flat e (by simp [he]))

/-! ## Parts that print something -/

theorem startsTextAll_filter (ds : List Doc) :
    startsTextAll (ds.filter fun d => !d.isEmpty) = startsTextAll ds := by
  induction ds with
  | nil => rfl
  | cons d ds ih =>
    rw [List.filter_cons, startsTextAll]
    cases hd : d.isEmpty with
    | true => exact ih
    | false =>
      rw [Bool.not_false, if_pos rfl, startsTextAll, hd]
      rfl

theorem allEmpty_filter (ds : List Doc) :
    allEmpty (ds.filter fun d => !d.isEmpty) = allEmpty ds := by
  induction ds with
  | nil => rfl
  | cons d ds ih =>
    rw [List.filter_cons, allEmpty]
    cases hd : d.isEmpty with
    | true => exact ih
    | false =>
      rw [Bool.not_false, if_pos rfl, allEmpty, hd]
      rfl

theorem endsTextAll_filter (ds : List Doc) :
    endsTextAll (ds.filter fun d => !d.isEmpty) = endsTextAll ds := by
  induction ds with
  | nil => rfl
  | cons d ds ih =>
    rw [List.filter_cons, endsTextAll]
    cases hd : d.isEmpty with
    | true =>
      rw [Bool.not_true, if_neg Bool.false_ne_true, endsText_of_isEmpty d hd, ih]
      split
      · rename_i hempty
        exact endsTextAll_of_allEmpty ds hempty
      · rfl
    | false =>
      rw [Bool.not_false, if_pos rfl, endsTextAll, allEmpty_filter, ih]

theorem isEmpty_of_mem_filter {ds : List Doc} (h : d ∈ ds.filter fun d => !d.isEmpty) :
    d.isEmpty = false := by
  simpa using (List.mem_filter.mp h).2

theorem filter_ne_nil (h : allEmpty ds = false) : (ds.filter fun d => !d.isEmpty) ≠ [] := by
  intro hnil
  have := allEmpty_filter ds
  rw [hnil, h] at this
  exact absurd this (by decide)

theorem filter_eq_nil (h : allEmpty ds = true) : (ds.filter fun d => !d.isEmpty) = [] := by
  by_contra hne
  have hshown := allEmpty_of_shown hne fun e he => isEmpty_of_mem_filter he
  rw [allEmpty_filter, h] at hshown
  exact absurd hshown (by decide)

theorem join_of_allEmpty (h : allEmpty ds = true) : join ds = empty := by
  unfold join
  rw [filter_eq_nil h]

theorem parts_of_flat (h : d.isConcat = false) : d.parts = [d] := by
  cases d with
  | concat ds => exact absurd h (by simp [isConcat])
  | _ => rfl

/-- The parts of a sequence that prints something are those of its parts that do. -/
theorem parts_join (hflat : ∀ e ∈ ds, e.isConcat = false) (h : allEmpty ds = false) :
    (join ds).parts = ds.filter fun d => !d.isEmpty := by
  have hne := filter_ne_nil h
  have hkept : ∀ e ∈ ds.filter (fun d => !d.isEmpty), e.isConcat = false :=
    fun e he => hflat e (List.mem_of_mem_filter he)
  unfold join
  split
  · rename_i hnil
    exact absurd hnil hne
  · rename_i d hsingle
    rw [hsingle] at hkept ⊢
    exact parts_of_flat (hkept d (List.mem_singleton_self d))
  · rfl

theorem allEmpty_parts (d : Doc) : allEmpty d.parts = d.isEmpty := by
  cases d with
  | concat ds => rw [parts, isEmpty]
  | _ => rw [parts_of_flat rfl, allEmpty, allEmpty, Bool.and_true]

theorem Leaves.isEmpty_eq (h : Leaves d e.parts) : e.isEmpty = d.isEmpty :=
  (allEmpty_parts e).symm.trans h.allEmpty_eq

/-- The parts of a sequence, joined. -/
theorem leaves_join (h : Keeps ds ps) : Leaves (concat ds) (join ps).parts := by
  cases hempty : allEmpty ds with
  | true =>
    rw [join_of_allEmpty (h.empty.trans hempty)]
    exact .nothing empty hempty rfl rfl rfl
  | false =>
    have hps := h.empty.trans hempty
    rw [parts_join h.flat hps]
    refine .something _ hempty (filter_ne_nil hps) (fun e he => isEmpty_of_mem_filter he)
      (fun e he => h.flat e (List.mem_of_mem_filter he)) ?_ ?_
    · rw [startsTextAll_filter, h.starts, startsText]
    · rw [endsTextAll_filter, h.ends, endsText]

mutual

/-- What merging leaves of a document. -/
theorem leaves_mergeText : ∀ d : Doc, Leaves d d.mergeText.parts
  | concat ds => by
    have hparts := keeps_mergeParts ds
    rw [mergeText]
    exact leaves_join (hparts.trans (keeps_joinTexts _ hparts.flat))
  | indent d => by
    have hempty := (leaves_mergeText d).isEmpty_eq
    rw [mergeText, nest]
    split
    · rename_i h
      exact leaves_singleton rfl rfl (h.symm.trans hempty) rfl
    · exact leaves_singleton rfl rfl hempty rfl
  | group d broken => by
    rw [mergeText]
    exact leaves_singleton rfl rfl (leaves_mergeText d).isEmpty_eq rfl
  | empty => leaves_self rfl
  | text t => leaves_self rfl
  | line kind => leaves_self rfl

/-- **The parts of merged documents** are torn as the documents are. -/
theorem keeps_mergeParts : ∀ ds : List Doc, Keeps ds (mergeParts ds)
  | [] => keeps_nil
  | d :: ds => by
    rw [mergeParts]
    exact Keeps.cons (leaves_mergeText d) (keeps_mergeParts ds)

end

end Doc

end TemplateFormat
