import TemplateFormat.Proofs.Doc.Torn

/-!
# What joining texts leaves

A merged document is `tidy`: its sequences have no sequences and nothing empty for parts. If also no
two of its texts follow each other, joining texts leaves it as it is. Texts follow each other in it
where a sequence was torn, and there only; a tidy document has no torn sequence. So what joining texts
once leaves apart, joining them again puts together.

Results:
* `joined_mergeText`: the texts of a merged document are joined exactly if no sequence is torn.
* `mergeText_of_tidy`: a tidy document with joined texts stays as it is.
* `mergeText_joins`: what joining texts does the first, the second and the third time.
-/

namespace TemplateFormat

namespace Doc

/-! ## Sequences -/

mutual

/-- The parts of every sequence in a document. -/
def sequences : Doc → List (List Doc)
  | concat docs => docs :: sequencesAll docs
  | indent doc => sequences doc
  | group doc _ => sequences doc
  | empty => []
  | text _ => []
  | line _ => []

/-- The parts of every sequence in the documents. -/
def sequencesAll : List Doc → List (List Doc)
  | [] => []
  | d :: ds => sequences d ++ sequencesAll ds

end

/-- No two texts follow each other. -/
def Joined (ds : List Doc) : Prop := ∀ s t, ¬ [text s, text t] <:+: ds

variable {d e : Doc} {ds : List Doc}

/-! ## Joined texts -/

theorem isText_iff : d.isText = true ↔ ∃ t, d = text t := by
  cases d <;> simp [isText]

theorem joined_nil : Joined [] := fun s t h => absurd (List.infix_nil.mp h) (by simp)

theorem joined_cons_iff : Joined (d :: ds) ↔
    (d.isText = true → ∀ e ∈ ds.head?, e.isText = false) ∧ Joined ds := by
  constructor
  · intro h
    refine ⟨fun hd e he => ?_, fun s t hst => h s t (List.infix_cons hst)⟩
    obtain ⟨s, rfl⟩ := isText_iff.mp hd
    obtain ⟨ds, rfl⟩ := List.head?_eq_some_iff.mp he
    by_contra htext
    obtain ⟨t, rfl⟩ := isText_iff.mp (Bool.not_eq_false _ ▸ htext)
    exact h s t (List.prefix_append [text s, text t] ds).isInfix
  · rintro ⟨hhead, hds⟩ s t hst
    rcases List.infix_cons_iff.mp hst with hpre | hin
    · obtain ⟨rfl, rest, rfl⟩ := List.cons_prefix_cons.mp hpre
      exact absurd (hhead rfl (text t) rfl) (by simp [isText])
    · exact hds s t hin

theorem joined_joinTexts (ds : List Doc) : Joined (joinTexts ds) := by
  induction ds with
  | nil => exact joined_nil
  | cons d ds ih =>
    rcases joinTexts_cons d ds with hjoin | ⟨a, b, rest, rfl, hrest, hjoin⟩
    · rw [hjoin]
      refine joined_cons_iff.mpr ⟨fun hd e he => ?_, ih⟩
      by_contra htext
      obtain ⟨a, rfl⟩ := isText_iff.mp hd
      obtain ⟨b, rfl⟩ := isText_iff.mp (Bool.not_eq_false _ ▸ htext)
      obtain ⟨rest, hrest⟩ := List.head?_eq_some_iff.mp he
      -- the two texts would have been joined
      rw [joinTexts, hrest] at hjoin
      exact absurd (congrArg List.length hjoin) (by simp)
    · rw [hrest] at ih
      rw [hjoin]
      exact joined_cons_iff.mpr ⟨fun _ => (joined_cons_iff.mp ih).1 rfl, (joined_cons_iff.mp ih).2⟩

/-- Where the next text does not follow directly, there is a gap before it. -/
theorem startsGap_of_joined (hd : d.isText = true) (hj : Joined (d :: ds))
    (hflat : ∀ e ∈ ds, e.isConcat = false) (hs : startsTextAll ds = true) :
    startsGap ds = true := by
  cases ds with
  | nil => exact absurd hs (by simp [startsTextAll])
  | cons e ds =>
    have he : e.isText = false := (joined_cons_iff.mp hj).1 hd e rfl
    cases hempty : e.isEmpty with
    | true => rw [startsGap_of_isEmpty hempty, he, Bool.not_false, Bool.true_or]
    | false =>
      rw [startsTextAll, hempty, if_neg Bool.false_ne_true,
        startsText_eq hempty (hflat e List.mem_cons_self), he] at hs
      exact absurd hs (by decide)

theorem startsTextAll_eq_head (hall : ∀ e ∈ ds, e.isEmpty = false)
    (hflat : ∀ e ∈ ds, e.isConcat = false) :
    startsTextAll ds = true ↔ ∃ e ∈ ds.head?, e.isText = true := by
  cases ds with
  | nil => simp [startsTextAll]
  | cons e ds =>
    have he := hall e List.mem_cons_self
    rw [startsTextAll, he, if_neg Bool.false_ne_true,
      startsText_eq he (hflat e List.mem_cons_self)]
    simp

/-- **Leaving out what prints nothing** keeps texts joined exactly if they are not torn. -/
theorem joined_filter_iff (hflat : ∀ e ∈ ds, e.isConcat = false) (hj : Joined ds) :
    Joined (ds.filter fun d => !d.isEmpty) ↔ torn ds = false := by
  induction ds with
  | nil => exact iff_of_true joined_nil rfl
  | cons d ds ih =>
    obtain ⟨hd, hds⟩ := List.forall_mem_cons.mp hflat
    have ih := ih hds (joined_cons_iff.mp hj).2
    rw [List.filter_cons, torn, Bool.or_eq_false_iff]
    cases hempty : d.isEmpty with
    | true =>
      rw [endsText_of_isEmpty d hempty]
      simpa using ih
    | false =>
      have hnext : startsTextAll ds = true ↔
          ∃ e ∈ (ds.filter fun d => !d.isEmpty).head?, e.isText = true := by
        rw [← startsTextAll_filter]
        exact startsTextAll_eq_head (fun e he => isEmpty_of_mem_filter he)
          fun e he => hds e (List.mem_of_mem_filter he)
      rw [Bool.not_false, if_pos rfl, joined_cons_iff, ih, endsText_eq hempty hd]
      refine and_congr_left fun _ => ?_
      cases htext : d.isText with
      | false => simp
      | true =>
        have hgap := startsGap_of_joined htext hj hds
        constructor
        · intro h
          rw [Bool.true_and, Bool.and_eq_false_iff]
          right
          rw [← Bool.not_eq_true, hnext]
          rintro ⟨e, he, hetext⟩
          exact absurd (h rfl e he) (by simp [hetext])
        · intro h _ e he
          by_contra hetext
          have hs := hnext.mpr ⟨e, he, by simpa using hetext⟩
          rw [hgap hs, hs] at h
          exact absurd h (by decide)

/-! ## Tidy documents -/

mutual

/-- Every sequence in the document has more than one part, and its parts print something and are no
sequences; what is indented prints something. -/
def tidy : Doc → Bool
  | concat docs => 2 ≤ docs.length && tidyAll docs
  | indent doc => !isEmpty doc && tidy doc
  | group doc _ => tidy doc
  | empty => true
  | text _ => true
  | line _ => true

/-- The documents are tidy parts of a sequence. -/
def tidyAll : List Doc → Bool
  | [] => true
  | d :: ds => !isEmpty d && !isConcat d && tidy d && tidyAll ds

end

theorem tidyAll_iff : tidyAll ds = true ↔
    ∀ e ∈ ds, e.isEmpty = false ∧ e.isConcat = false ∧ e.tidy = true := by
  induction ds with
  | nil => simp [tidyAll]
  | cons d ds ih => simp [tidyAll, ih, and_assoc]

theorem tidy_join (hflat : ∀ e ∈ ds, e.isConcat = false) (h : ∀ e ∈ ds, e.tidy = true) :
    (join ds).tidy = true := by
  have hkept : tidyAll (ds.filter fun d => !d.isEmpty) = true := tidyAll_iff.mpr fun e he =>
    ⟨isEmpty_of_mem_filter he, hflat e (List.mem_of_mem_filter he), h e (List.mem_of_mem_filter he)⟩
  unfold join
  split
  · rfl
  · rename_i d hsingle
    rw [hsingle] at hkept
    exact (tidyAll_iff.mp hkept d (List.mem_singleton_self d)).2.2
  · rename_i hnil hsingle
    rw [tidy, hkept, Bool.and_true, decide_eq_true_eq]
    rcases hds : ds.filter (fun d => !d.isEmpty) with _ | ⟨d, _ | ⟨e, es⟩⟩
    · exact absurd hds hnil
    · exact absurd hds (hsingle d)
    · rw [hds]
      exact Nat.le_add_left 2 es.length

theorem tidy_nest (h : d.tidy = true) : d.nest.tidy = true := by
  unfold nest
  split
  · rfl
  · rename_i hshown
    rw [tidy, h, Bool.and_true]
    simpa using hshown

theorem tidy_parts (h : d.tidy = true) : ∀ e ∈ d.parts, e.tidy = true := by
  cases d with
  | concat ds =>
    rw [tidy, Bool.and_eq_true] at h
    exact fun e he => (tidyAll_iff.mp h.2 e he).2.2
  | _ =>
    rw [parts_of_flat rfl]
    exact List.forall_mem_singleton.mpr h

theorem tidy_joinTexts (h : ∀ e ∈ ds, e.tidy = true) : ∀ e ∈ joinTexts ds, e.tidy = true := by
  induction ds with
  | nil => exact h
  | cons d ds ih =>
    obtain ⟨hd, hds⟩ := List.forall_mem_cons.mp h
    rcases joinTexts_cons d ds with hjoin | ⟨a, b, rest, rfl, hrest, hjoin⟩
    · rw [hjoin]
      exact List.forall_mem_cons.mpr ⟨hd, ih hds⟩
    · have ih := ih hds
      rw [hrest] at ih
      rw [hjoin]
      exact List.forall_mem_cons.mpr ⟨rfl, (List.forall_mem_cons.mp ih).2⟩

mutual

/-- **A merged document is tidy.** -/
theorem tidy_mergeText : ∀ d : Doc, d.mergeText.tidy = true
  | concat ds => by
    have hparts := keeps_mergeParts ds
    rw [mergeText]
    exact tidy_join (keeps_joinTexts _ hparts.flat).flat (tidy_joinTexts (tidy_mergeParts ds))
  | indent d => by
    rw [mergeText]
    exact tidy_nest (tidy_mergeText d)
  | group d broken => by
    rw [mergeText, tidy]
    exact tidy_mergeText d
  | empty => rfl
  | text t => rfl
  | line kind => rfl

theorem tidy_mergeParts : ∀ ds : List Doc, ∀ e ∈ mergeParts ds, e.tidy = true
  | [] => by
    rw [mergeParts]
    exact List.forall_mem_nil _
  | d :: ds => by
    rw [mergeParts]
    intro e he
    rcases List.mem_append.mp he with he | he
    · exact tidy_parts (tidy_mergeText d) e he
    · exact tidy_mergeParts ds e he

end

/-! ## The sequences of a merged document -/

theorem sequencesAll_eq_flatMap (ds : List Doc) : sequencesAll ds = ds.flatMap sequences := by
  induction ds with
  | nil => rfl
  | cons d ds ih => rw [sequencesAll, ih, List.flatMap_cons]

/-- A tidy document that prints nothing has no sequence in it. -/
theorem sequences_of_isEmpty : ∀ d : Doc, d.tidy = true → d.isEmpty = true → d.sequences = []
  | concat [], h, _ => absurd h (by simp [tidy])
  | concat (d :: ds), h, hempty => by
    rw [tidy, tidyAll] at h
    rw [isEmpty, allEmpty, Bool.and_eq_true] at hempty
    exact absurd h (by simp [hempty.1])
  | indent d, h, hempty => by
    rw [tidy] at h
    rw [isEmpty] at hempty
    exact absurd h (by simp [hempty])
  | group d _, h, hempty => by
    rw [tidy] at h
    rw [isEmpty] at hempty
    rw [sequences]
    exact sequences_of_isEmpty d h hempty
  | empty, _, _ => rfl
  | text _, _, _ => rfl
  | line _, _, _ => rfl

theorem sequencesAll_filter (h : ∀ e ∈ ds, e.tidy = true) :
    sequencesAll (ds.filter fun d => !d.isEmpty) = sequencesAll ds := by
  induction ds with
  | nil => rfl
  | cons d ds ih =>
    obtain ⟨hd, hds⟩ := List.forall_mem_cons.mp h
    rw [List.filter_cons, sequencesAll]
    cases hempty : d.isEmpty with
    | true =>
      rw [sequences_of_isEmpty d hd hempty]
      exact ih hds
    | false => rw [Bool.not_false, if_pos rfl, sequencesAll, ih hds]

theorem sequencesAll_joinTexts (ds : List Doc) :
    sequencesAll (joinTexts ds) = sequencesAll ds := by
  induction ds with
  | nil => rfl
  | cons d ds ih =>
    rcases joinTexts_cons d ds with hjoin | ⟨a, b, rest, rfl, hrest, hjoin⟩
    · rw [hjoin, sequencesAll, sequencesAll, ih]
    · rw [hrest] at ih
      rw [hjoin]
      exact ih

theorem sequences_nest (h : d.tidy = true) : d.nest.sequences = d.sequences := by
  unfold nest
  split
  · rename_i hempty
    exact (sequences_of_isEmpty d h hempty).symm
  · rw [sequences]

theorem sequencesAll_singleton (d : Doc) : sequencesAll [d] = d.sequences := by
  rw [sequencesAll, sequencesAll, List.append_nil]

/-- The sequences in the parts of a sequence. -/
theorem sequencesAll_parts_join (hflat : ∀ e ∈ ds, e.isConcat = false)
    (h : ∀ e ∈ ds, e.tidy = true) : sequencesAll (join ds).parts = sequencesAll ds := by
  rw [← sequencesAll_filter h]
  cases hempty : allEmpty ds with
  | false => rw [parts_join hflat hempty]
  | true =>
    rw [join_of_allEmpty hempty, filter_eq_nil hempty]
    rfl

theorem joined_singleton (d : Doc) : Joined [d] :=
  joined_cons_iff.mpr ⟨by simp, joined_nil⟩

/-- A sequence, and the sequences in its parts. -/
theorem joined_join_iff (h : ∀ e ∈ ds, e.tidy = true) :
    (∀ s ∈ (join ds).sequences, Joined s) ↔
      Joined (ds.filter fun d => !d.isEmpty) ∧ ∀ s ∈ sequencesAll ds, Joined s := by
  rw [← sequencesAll_filter h]
  unfold join
  split
  · rename_i hnil
    rw [hnil]
    exact iff_of_true (List.forall_mem_nil _) ⟨joined_nil, List.forall_mem_nil _⟩
  · rename_i d hsingle
    rw [hsingle, sequencesAll_singleton]
    exact (and_iff_right (joined_singleton d)).symm
  · rw [sequences, List.forall_mem_cons]

mutual

/-- **The texts of a merged document are joined** exactly if no sequence of the document is torn. -/
theorem joined_mergeText : ∀ d : Doc,
    (∀ s ∈ d.mergeText.sequences, Joined s) ↔ d.hasTorn = false
  | concat ds => by
    have hparts := keeps_mergeParts ds
    have htexts := hparts.trans (keeps_joinTexts _ hparts.flat)
    rw [mergeText, joined_join_iff (tidy_joinTexts (tidy_mergeParts ds)),
      joined_filter_iff htexts.flat (joined_joinTexts _), htexts.torn, sequencesAll_joinTexts,
      joined_mergeParts ds, hasTorn, Bool.or_eq_false_iff]
  | indent d => by
    rw [mergeText, sequences_nest (tidy_mergeText d), hasTorn]
    exact joined_mergeText d
  | group d _ => by
    rw [mergeText, sequences, hasTorn]
    exact joined_mergeText d
  | empty => iff_of_true (List.forall_mem_nil _) rfl
  | text _ => iff_of_true (List.forall_mem_nil _) rfl
  | line _ => iff_of_true (List.forall_mem_nil _) rfl

/-- The same of a part of a sequence, whose own parts become parts of the sequence. -/
theorem joined_parts_mergeText : ∀ d : Doc,
    (∀ s ∈ sequencesAll d.mergeText.parts, Joined s) ↔ d.hasTornPart = false
  | concat ds => by
    have hparts := keeps_mergeParts ds
    rw [mergeText, sequencesAll_parts_join (keeps_joinTexts _ hparts.flat).flat
      (tidy_joinTexts (tidy_mergeParts ds)), sequencesAll_joinTexts, joined_mergeParts ds,
      hasTornPart]
  | indent d => by
    have hflat : d.mergeText.nest.isConcat = false := by
      unfold nest
      split <;> rfl
    rw [mergeText, parts_of_flat hflat, sequencesAll_singleton, sequences_nest (tidy_mergeText d),
      hasTornPart]
    exact joined_mergeText d
  | group d _ => by
    rw [mergeText, parts_of_flat rfl, sequencesAll_singleton, sequences, hasTornPart]
    exact joined_mergeText d
  | empty => iff_of_true (List.forall_mem_nil _) rfl
  | text _ => iff_of_true (List.forall_mem_nil _) rfl
  | line _ => iff_of_true (List.forall_mem_nil _) rfl

theorem joined_mergeParts : ∀ ds : List Doc,
    (∀ s ∈ sequencesAll (mergeParts ds), Joined s) ↔ hasTornParts ds = false
  | [] => iff_of_true (List.forall_mem_nil _) rfl
  | d :: ds => by
    rw [mergeParts, sequencesAll_eq_flatMap, List.flatMap_append, ← sequencesAll_eq_flatMap,
      ← sequencesAll_eq_flatMap, List.forall_mem_append, joined_parts_mergeText d,
      joined_mergeParts ds, hasTornParts, Bool.or_eq_false_iff]

end

/-! ## Joining again -/

theorem torn_of_shown (h : ∀ e ∈ ds, e.isEmpty = false) : torn ds = false := by
  cases ds with
  | nil => rfl
  | cons d ds =>
    rw [← List.append_nil (d :: ds), torn_shown_append (List.cons_ne_nil d ds) h]
    have hgap : startsGap [] = false := rfl
    rw [hgap, Bool.and_false, Bool.false_and, Bool.false_or, torn]

theorem hasTornPart_of_flat (h : d.isConcat = false) : d.hasTornPart = d.hasTorn := by
  cases d with
  | concat ds => exact absurd h (by simp [isConcat])
  | _ => rw [hasTornPart, hasTorn]

mutual

/-- Nothing tears a sequence in a tidy document. -/
theorem hasTorn_of_tidy : ∀ d : Doc, d.tidy = true → d.hasTorn = false
  | concat ds, h => by
    rw [tidy, Bool.and_eq_true] at h
    rw [hasTorn, torn_of_shown fun e he => (tidyAll_iff.mp h.2 e he).1,
      hasTornParts_of_tidyAll ds h.2, Bool.or_self]
  | indent d, h => by
    rw [tidy, Bool.and_eq_true] at h
    rw [hasTorn]
    exact hasTorn_of_tidy d h.2
  | group d _, h => by
    rw [tidy] at h
    rw [hasTorn]
    exact hasTorn_of_tidy d h
  | empty, _ => rfl
  | text _, _ => rfl
  | line _, _ => rfl

theorem hasTornParts_of_tidyAll : ∀ ds : List Doc, tidyAll ds = true → hasTornParts ds = false
  | [], _ => rfl
  | d :: ds, h => by
    have hd := tidyAll_iff.mp h d List.mem_cons_self
    rw [tidyAll, Bool.and_eq_true] at h
    rw [hasTornParts, hasTornPart_of_flat hd.2.1, hasTorn_of_tidy d hd.2.2,
      hasTornParts_of_tidyAll ds h.2, Bool.or_self]

end

theorem joinTexts_of_joined (h : Joined ds) : joinTexts ds = ds := by
  induction ds with
  | nil => rfl
  | cons d ds ih =>
    obtain ⟨hhead, hds⟩ := joined_cons_iff.mp h
    rcases joinTexts_cons d ds with hjoin | ⟨a, b, rest, rfl, hrest, -⟩
    · rw [hjoin, ih hds]
    · rw [ih hds] at hrest
      rw [hrest] at hhead
      exact absurd (hhead rfl (text b) rfl) (by simp [isText])

theorem join_of_tidyAll (hlen : 2 ≤ ds.length) (h : tidyAll ds = true) : join ds = concat ds := by
  have hfilter : (ds.filter fun d => !d.isEmpty) = ds :=
    List.filter_eq_self.mpr fun e he => by rw [(tidyAll_iff.mp h e he).1, Bool.not_false]
  unfold join
  rw [hfilter]
  match ds, hlen with
  | d :: e :: es, _ => rfl

mutual

/-- **A tidy document with joined texts stays as it is.** -/
theorem mergeText_of_tidy : ∀ d : Doc, d.tidy = true → (∀ s ∈ d.sequences, Joined s) →
    d.mergeText = d
  | concat ds, h, hj => by
    rw [tidy, Bool.and_eq_true, decide_eq_true_eq] at h
    rw [sequences, List.forall_mem_cons] at hj
    rw [mergeText, mergeParts_of_tidyAll ds h.2 hj.2, joinTexts_of_joined hj.1,
      join_of_tidyAll h.1 h.2]
  | indent d, h, hj => by
    rw [tidy, Bool.and_eq_true] at h
    rw [sequences] at hj
    rw [mergeText, mergeText_of_tidy d h.2 hj, nest, if_neg (by simpa using h.1)]
  | group d _, h, hj => by
    rw [tidy] at h
    rw [sequences] at hj
    rw [mergeText, mergeText_of_tidy d h hj]
  | empty, _, _ => rfl
  | text _, _, _ => rfl
  | line _, _, _ => rfl

theorem mergeParts_of_tidyAll : ∀ ds : List Doc, tidyAll ds = true →
    (∀ s ∈ sequencesAll ds, Joined s) → mergeParts ds = ds
  | [], _, _ => rfl
  | d :: ds, h, hj => by
    have hd := tidyAll_iff.mp h d List.mem_cons_self
    rw [tidyAll, Bool.and_eq_true] at h
    rw [sequencesAll, List.forall_mem_append] at hj
    rw [mergeParts, mergeText_of_tidy d hd.2.2 hj.1, parts_of_flat hd.2.1,
      mergeParts_of_tidyAll ds h.2 hj.2, List.singleton_append]

end

mutual

/-- No part of a sequence in a tidy document is a sequence. -/
theorem flat_of_tidy : ∀ d : Doc, d.tidy = true → ∀ s ∈ d.sequences, ∀ e ∈ s, e.isConcat = false
  | concat ds, h => by
    rw [tidy, Bool.and_eq_true] at h
    rw [sequences]
    exact List.forall_mem_cons.mpr
      ⟨fun e he => (tidyAll_iff.mp h.2 e he).2.1, flat_of_tidyAll ds h.2⟩
  | indent d, h => by
    rw [tidy, Bool.and_eq_true] at h
    rw [sequences]
    exact flat_of_tidy d h.2
  | group d _, h => by
    rw [tidy] at h
    rw [sequences]
    exact flat_of_tidy d h
  | empty, _ => List.forall_mem_nil _
  | text _, _ => List.forall_mem_nil _
  | line _, _ => List.forall_mem_nil _

theorem flat_of_tidyAll : ∀ ds : List Doc, tidyAll ds = true →
    ∀ s ∈ sequencesAll ds, ∀ e ∈ s, e.isConcat = false
  | [], _ => List.forall_mem_nil _
  | d :: ds, h => by
    have hd := tidyAll_iff.mp h d List.mem_cons_self
    rw [tidyAll, Bool.and_eq_true] at h
    rw [sequencesAll]
    exact List.forall_mem_append.mpr ⟨flat_of_tidy d hd.2.2, flat_of_tidyAll ds h.2⟩

end

/-- Joining texts twice joins them all. -/
theorem joined_mergeText_twice (d : Doc) :
    ∀ s ∈ d.mergeText.mergeText.sequences, Joined s :=
  (joined_mergeText d.mergeText).mpr (hasTorn_of_tidy _ (tidy_mergeText d))

/-- **Joining texts joins all that follow each other where no sequence is torn.** No part of a
sequence in a merged document is a sequence. Two texts follow each other in it exactly if a sequence
of the document is torn, and exactly then joining its texts again changes the document; joining them
a third time changes nothing. -/
theorem mergeText_joins (d : Doc) :
    (∀ s ∈ d.mergeText.sequences, ∀ e ∈ s, e.isConcat = false) ∧
    ((∀ s ∈ d.mergeText.sequences, Joined s) ↔ d.hasTorn = false) ∧
    (d.mergeText.mergeText = d.mergeText ↔ d.hasTorn = false) ∧
    (∀ s ∈ d.mergeText.mergeText.sequences, Joined s) ∧
      d.mergeText.mergeText.mergeText = d.mergeText.mergeText := by
  have htwice := joined_mergeText_twice d
  refine ⟨flat_of_tidy _ (tidy_mergeText d), joined_mergeText d, ⟨fun hsame => ?_, fun htorn => ?_⟩,
    htwice, mergeText_of_tidy _ (tidy_mergeText _) htwice⟩
  · rw [hsame] at htwice
    exact (joined_mergeText d).mp htwice
  · exact mergeText_of_tidy _ (tidy_mergeText d) ((joined_mergeText d).mpr htorn)

/-- A part that prints nothing leaves the texts around it next to each other. -/
theorem mergeText_leaves_texts :
    let d := concat [text ['a'], empty, text ['b']]
    d.mergeText = concat [text ['a'], text ['b']] ∧ d.mergeText.mergeText = text ['a', 'b'] :=
  ⟨rfl, rfl⟩

/-- What prints nothing in an inner sequence is left out before the outer one is joined. -/
example :
    let d := concat [concat [text ['a'], empty, text ['b']], text [], text ['c']]
    d.hasTorn = false ∧ d.mergeText = text ['a', 'b', 'c'] :=
  ⟨rfl, rfl⟩

end Doc

end TemplateFormat
