import TemplateFormat.Markup.Html
import TemplateFormat.Proofs.Doc.Flat
import TemplateFormat.Proofs.Markup.Mask

/-!
# The layout of markup

The markup formatter cuts markup at white space and puts line breaks between the parts. `Lays is
t` says this of the items `is` of a document and the markup `t`: the texts are those of `t` in
order, all between them is white space, and each text is followed by a line break that is a space
on one line. So a text is never cut where there is no white space, and two texts never come
together.

The formatter goes through the lines. One line adds items that lay it out (`addLine_items`), and
by induction on the lines the items lay out the markup. How the lines are indented is not read
off here: it does not change the items.

Results:
* `Lays.append`: markup that is laid out in two parts, cut before white space.
* `lays_foldl`: the lines read so far are laid out.
* `lays_format`: without its last line break, the formatted document lays out the markup.
-/

namespace TemplateFormat

namespace Markup

/-- A line break that is a space on one line comes next, or nothing. -/
def StartsLine (is : List Item) : Prop := ∀ i ∈ is.head?, ∃ kind, i = .line kind ∧ kind ≠ .soft

theorem startsLine_nil : StartsLine [] := by simp [StartsLine]

theorem startsLine_cons {kind : Line} (h : kind ≠ .soft) (is : List Item) :
    StartsLine (.line kind :: is) := by
  intro i hi
  exact ⟨kind, (Option.some.inj hi).symm, h⟩

theorem startsLine_append {is js : List Item} (hi : StartsLine is) (hj : StartsLine js) :
    StartsLine (is ++ js) := by
  cases is with
  | nil => exact hj
  | cons i is => exact fun x hx => hi x hx

/-- The items lay out the text. -/
inductive Lays : List Item → Text → Prop where
  | done {b : Text} : Text.isBlank b = true → Lays [] b
  | line (kind : Line) {is : List Item} {t : Text} : Lays is t → Lays (.line kind :: is) t
  | text {b s t : Text} {is : List Item} : Text.isBlank b = true → StartsLine is →
      Text.StartsBlank t → Lays is t → Lays (.text s :: is) (b ++ (s ++ t))

variable {is js : List Item} {t u : Text}

theorem Lays.blank_append {b : Text} (hb : Text.isBlank b = true) (h : Lays is t) :
    Lays is (b ++ t) := by
  induction h with
  | done hd => exact .done (by rw [Text.isBlank_append, hb, hd]; rfl)
  | line kind _ ih => exact .line kind ih
  | text hd hline hblank h _ =>
    rw [← List.append_assoc]
    exact .text (by rw [Text.isBlank_append, hb, hd]; rfl) hline hblank h

/-- **Markup that is laid out in two parts**, cut before white space. -/
theorem Lays.append (h : Lays is t) (hu : Lays js u) (hblank : Text.StartsBlank u)
    (hline : StartsLine js) : Lays (is ++ js) (t ++ u) := by
  induction h with
  | done hb => exact hu.blank_append hb
  | line kind _ ih => exact .line kind ih
  | text hb hl ht _ ih =>
    rw [List.append_assoc, List.append_assoc]
    exact .text hb (startsLine_append hl hline) (Text.startsBlank_append ht hblank) ih

theorem Lays.append_blank {b : Text} (h : Lays is t) (hb : Text.isBlank b = true) :
    Lays is (t ++ b) := by
  have := h.append (.done hb) (Text.startsBlank_of_isBlank hb) startsLine_nil
  rwa [List.append_nil] at this

/-- A text between white space. -/
theorem lays_ofText {b s t : Text} (hb : Text.isBlank b = true) (hline : StartsLine is)
    (hblank : Text.StartsBlank t) (h : Lays is t) :
    Lays ((Doc.ofText s).items ++ is) (b ++ (s ++ t)) := by
  rw [Doc.items_ofText]
  by_cases hs : s = []
  · rw [hs, Doc.items_text_nil]
    exact h.blank_append hb
  · rw [Doc.items_text hs]
    exact .text hb hline hblank h

/-- A text with nothing but white space behind it. -/
theorem lays_ofText_last {b s b' : Text} (hb : Text.isBlank b = true)
    (hb' : Text.isBlank b' = true) : Lays (Doc.ofText s).items (b ++ (s ++ b')) := by
  have := lays_ofText (s := s) hb startsLine_nil (Text.startsBlank_of_isBlank hb') (.done hb')
  rwa [List.append_nil] at this

theorem Lays.apart (h : Lays is t) : Apart is := by
  induction h with
  | done _ => exact fun s t hi => absurd hi (by simp)
  | line kind _ ih =>
    intro s t hi
    rcases List.infix_cons_iff.mp hi with hp | hi
    · exact absurd (List.cons_prefix_cons.mp hp).1 (by simp)
    · exact ih s t hi
  | text _ hline _ _ ih =>
    intro s t hi
    rcases List.infix_cons_iff.mp hi with hp | hi
    · obtain ⟨rest, rfl⟩ := (List.cons_prefix_cons.mp hp).2
      obtain ⟨kind, hk, -⟩ := hline (.text t) rfl
      exact absurd hk (by simp)
    · exact ih s t hi

/-! ## One line -/

namespace Layout

/-- The items of the lines read so far. -/
def items (s : Layout) : List Item := s.parts.reverse.flatMap Doc.items

theorem items_lineDoc (depth : Nat) (line : Text) :
    (lineDoc depth line).items = .line .hard :: (Doc.ofText line).items := by
  rw [lineDoc, Doc.items_nestBy, Doc.items_join, List.flatMap_cons, List.flatMap_singleton]
  rfl

theorem parts_preformattedLine (s : Layout) (name raw : Text) (here : List Tag) :
    (s.preformattedLine name raw here).parts =
      .ofText (Text.trimEnd raw) :: .line .literal :: s.parts := by
  unfold preformattedLine
  split <;> rfl

/-- A line that is not the first comes after a line break, or two. -/
theorem items_markupLine (s : Layout) (line masked : Text) (start stop : Nat) (here : List Tag) :
    (s.markupLine line masked start stop here).items = s.items ++ (Doc.ofText line).items ∧
        s.parts = [] ∨
      ∃ breaks, (s.markupLine line masked start stop here).items =
        s.items ++ (breaks ++ (Doc.ofText line).items) ∧
          (breaks = [.line .hard] ∨ breaks = [.line .hard, .line .hard]) := by
  unfold markupLine
  simp only [items]
  split
  · rename_i h
    rw [List.isEmpty_iff] at h
    rw [h]
    exact Or.inl ⟨by simp, rfl⟩
  · refine Or.inr ?_
    split
    · refine ⟨[.line .hard, .line .hard], ?_, Or.inr rfl⟩
      simp [items_lineDoc, Doc.hardline]
    · refine ⟨[.line .hard], ?_, Or.inl rfl⟩
      simp [items_lineDoc]

/-- **A line adds items that lay it out.** -/
theorem addLine_items (s : Layout) (raw masked : Text) : ∃ js,
    (s.addLine raw masked).items = s.items ++ js ∧ Lays js raw ∧
      (StartsLine js ∨ s.items = []) := by
  obtain ⟨b, b', hb, hb', htrim⟩ := Text.eq_append_trim raw
  have hline : Lays (Doc.ofText (Text.trim raw)).items raw := by
    have := lays_ofText_last (s := Text.trim raw) hb hb'
    rwa [← List.append_assoc, ← htrim] at this
  unfold addLine
  simp only
  split
  · -- a line of a preformatted element keeps the white space at its start
    rename_i name _
    obtain ⟨e, he, htrimEnd⟩ := Text.eq_append_trimEnd raw
    refine ⟨.line .literal :: (Doc.ofText (Text.trimEnd raw)).items, ?_, ?_,
      Or.inl (startsLine_cons (by decide) _)⟩
    · rw [items, parts_preformattedLine]
      simp [items]
    · have := lays_ofText_last (s := Text.trimEnd raw) (b := []) rfl he
      rw [List.nil_append, ← htrimEnd] at this
      exact .line .literal this
  · split
    · rename_i hempty
      refine ⟨[], (List.append_nil _).symm, .done ?_, Or.inl startsLine_nil⟩
      exact Text.isBlank_of_trim_eq_nil (List.isEmpty_iff.mp hempty)
    · rcases items_markupLine _ (Text.trim raw) masked _ _ _ with
        ⟨hitems, hparts⟩ | ⟨breaks, hitems, hbreaks⟩
      · refine ⟨_, hitems, hline, Or.inr ?_⟩
        rw [items, hparts]
        rfl
      · refine ⟨_, hitems, ?_, Or.inl ?_⟩
        · rcases hbreaks with rfl | rfl
          · exact .line .hard hline
          · exact .line .hard (.line .hard hline)
        · rcases hbreaks with rfl | rfl <;> exact startsLine_cons (by decide) _

/-- **The lines read so far are laid out**, by induction on the lines that follow. Line ends of the
markup may have lost white space before. -/
theorem lays_foldl {ls : List (Text × Text)} {ms : List Text} {s : Layout} {t : Text}
    (hs : Lays s.items t) (h : List.Forall₂ Text.EndsCut (ls.map Prod.fst) ms) :
    Lays (ls.foldl (fun s l => s.addLine l.1 l.2) s).items (t ++ ms.flatMap ('\n' :: ·)) := by
  induction ls generalizing ms s t with
  | nil =>
    obtain rfl := List.forall₂_nil_left_iff.mp h
    rw [List.flatMap_nil, List.append_nil]
    exact hs
  | cons l ls ih =>
    obtain ⟨m, ms, ⟨b, hb, rfl⟩, hms, rfl⟩ := List.forall₂_cons_left_iff.mp h
    obtain ⟨js, hitems, hjs, hstart⟩ := addLine_items s l.1 l.2
    have hnew : Lays (s.addLine l.1 l.2).items (t ++ '\n' :: (l.1 ++ b)) := by
      have hline : Lays js (['\n'] ++ (l.1 ++ b)) :=
        (hjs.append_blank hb).blank_append rfl
      rw [hitems]
      rcases hstart with hstart | hnil
      · exact hs.append hline (Text.startsBlank_cons (by decide) _) hstart
      · rw [hnil] at hs ⊢
        cases hs with
        | done ht => exact hline.blank_append ht
    rw [List.foldl_cons, List.flatMap_cons, ← List.append_assoc]
    exact ih hnew hms

end Layout

/-! ## The formatted document -/

namespace Html

open Layout

/-- The first line has no line feed before it. -/
theorem lays_lines {l : Text × Text} {ls : List (Text × Text)} {ms : List Text} {s : Layout}
    (hs : s.items = []) (h : List.Forall₂ Text.EndsCut ((l :: ls).map Prod.fst) ms) :
    Lays ((l :: ls).foldl (fun s l => s.addLine l.1 l.2) s).items (Text.unlines ms) := by
  obtain ⟨m, ms, ⟨b, hb, rfl⟩, hms, rfl⟩ := List.forall₂_cons_left_iff.mp h
  obtain ⟨js, hitems, hjs, -⟩ := addLine_items s l.1 l.2
  rw [hs, List.nil_append] at hitems
  rw [List.foldl_cons, Text.unlines_cons_eq]
  exact lays_foldl (hitems ▸ hjs.append_blank hb) hms

/-- Markup line by line. -/
theorem lays_formatLines {markup t : Text}
    (h : List.Forall₂ Text.EndsCut (Text.lines markup) (Text.lines t)) :
    ∃ is, (formatLines markup).items = is ++ [.line .hard] ∧ Lays is t := by
  have hlen : (Text.lines markup).length ≤ (Text.lines (mask markup)).length :=
    (length_lines_mask markup).ge
  have hfst := List.map_fst_zip hlen
  unfold formatLines
  dsimp only
  generalize (Text.lines markup).zip (Text.lines (mask markup)) = ls at hfst ⊢
  have hne : ls ≠ [] := by
    rintro rfl
    exact Text.lines_ne_nil markup hfst.symm
  obtain ⟨l, ls, rfl⟩ := List.exists_cons_of_ne_nil hne
  rw [← hfst] at h
  refine ⟨_, ?_, Text.unlines_lines t ▸ lays_lines (s := { tags := tags (mask markup) }) rfl h⟩
  rw [Doc.items_join, List.reverse_cons, List.flatMap_append, List.flatMap_singleton]
  rfl

/-- A normal line break, if there is white space at an edge. -/
theorem items_edge (blank : Bool) : (if blank then Doc.line .normal else .empty).items = [] ∨
    (if blank then Doc.line .normal else .empty).items = [.line .normal] := by
  cases blank with
  | false => exact Or.inl Doc.items_empty
  | true => exact Or.inr (Doc.items_line _)

/-- A block body on one line. -/
theorem lays_formatLine {markup t : Text} (h : Text.EndsCut markup t) :
    ∃ is, (formatLine markup).items = is ++ [.line .hard] ∧ Lays is t := by
  obtain ⟨b, hb, rfl⟩ := h
  obtain ⟨e, e', he, he', htrim⟩ := Text.eq_append_trim markup
  unfold formatLine
  simp only
  split
  · rename_i hempty
    have hblank := Text.isBlank_of_trim_eq_nil (List.isEmpty_iff.mp hempty)
    exact ⟨[], rfl, .done (by rw [Text.isBlank_append, hblank, hb]; rfl)⟩
  · have hfirst := items_edge (markup.head?.any isBlank)
    have hlast := items_edge (markup.getLast?.any isBlank)
    generalize (if markup.head?.any isBlank then Doc.line .normal else .empty) = first at hfirst ⊢
    generalize (if markup.getLast?.any isBlank then Doc.line .normal else .empty) = last at hlast ⊢
    have hblank : Text.isBlank (e' ++ b) = true := by
      rw [Text.isBlank_append, he', hb]
      rfl
    have hend : Lays last.items (e' ++ b) ∧ StartsLine last.items := by
      rcases hlast with h | h <;> rw [h]
      · exact ⟨.done hblank, startsLine_nil⟩
      · exact ⟨.line .normal (.done hblank), startsLine_cons (by decide) []⟩
    have hline := lays_ofText (s := Text.trim markup) he hend.2 (Text.startsBlank_of_isBlank hblank)
      hend.1
    rw [← List.append_assoc _ e', ← List.append_assoc e, ← List.append_assoc e, ← htrim] at hline
    refine ⟨first.items ++ ((Doc.ofText (Text.trim markup)).items ++ last.items), ?_, ?_⟩
    · simp [Doc.hardline]
    · rcases hfirst with h | h <;> rw [h]
      · exact hline
      · exact .line .normal hline

/-- **The formatted document lays out the markup**, without the line break at its end. -/
theorem lays_format (embedded : Bool) (t : Text) :
    ∃ is, (format embedded t).items = is ++ [.line .hard] ∧ Lays is t := by
  have hcut := Text.lines_replace_crlf t
  unfold format
  simp only
  split
  · rename_i hline
    rw [Bool.and_eq_true, Bool.not_eq_true', List.any_eq_false] at hline
    have hnone : '\n' ∉ Text.replace ['\r', '\n'] ['\n'] t :=
      fun hm => hline.2 '\n' hm (by decide)
    rw [Text.lines_of_notMem hnone] at hcut
    obtain ⟨m, ms, hm, hms, hlines⟩ := List.forall₂_cons_left_iff.mp hcut
    obtain rfl := List.forall₂_nil_left_iff.mp hms
    have ht := Text.unlines_lines t
    rw [hlines] at ht
    exact lays_formatLine (ht ▸ hm)
  · exact lays_formatLines hcut

/-- The document that is spliced lays out the markup. -/
theorem lays_stripped (embedded : Bool) (t : Text) :
    Lays (format embedded t).stripHardline.mergeText.items t := by
  obtain ⟨is, hitems, hlays⟩ := lays_format embedded t
  have hstrip : (format embedded t).stripHardline.items = is := by
    rw [Doc.items_stripHardline, hitems, dropForced_concat is rfl]
  rw [Doc.items_mergeText _ (hstrip ▸ hlays.apart), hstrip]
  exact hlays

end Html

end Markup

end TemplateFormat
