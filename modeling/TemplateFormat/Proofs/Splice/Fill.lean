import TemplateFormat.Proofs.Markup.Layout
import TemplateFormat.Proofs.Splice.Word

/-!
# Filling the slots of laid out markup

A markup formatter that lays out a spelled word cuts it at white space only. No placeholder holds
white space, so each text of the document is spelled from a part of the word, and the parts have
all its slots. With other texts in the slots the document then has the characters of the word
with those texts, up to white space, and the stem stays out of it: in a part it cannot reach over
a slot, because the texts in the slots start and end with characters that are no letters of
stems, and between two parts there is white space.

Results:
* `Word.free_restore`: a fresh word with free and framed texts in its slots is free.
* `filled_of_lays`: what laid out markup becomes when its placeholders are replaced.
* `misused?_eq_none`: no placeholder is lost or doubled.
* `found_perm_of_misused?`: where none is, each slot is found once.
-/

namespace TemplateFormat

namespace Word

open Placeholder

variable {source : Text} {f : Nat → Text}

/-- Texts that are the same up to white space give words that are. -/
theorem solid_restore {g : Nat → Text} {w : Word}
    (h : ∀ i, .slot i ∈ w → Text.solid (f i) = Text.solid (g i)) :
    Text.solid (w.restore f) = Text.solid (w.restore g) := by
  induction w with
  | nil => rfl
  | cons x w ih =>
    have hw := ih fun i hi => h i (List.mem_cons_of_mem x hi)
    cases x with
    | char c =>
      show Text.solid ([c] ++ restore f w) = Text.solid ([c] ++ restore g w)
      rw [Text.solid_append, hw, Text.solid_append]
    | slot i =>
      show Text.solid (f i ++ restore f w) = Text.solid (g i ++ restore g w)
      rw [Text.solid_append, h i List.mem_cons_self, hw, Text.solid_append]

/-- The characters up to the next slot are collected in `t`. -/
theorem free_append_restore {w : Word} :
    ∀ {t : Text}, (∀ i, .slot i ∈ w → Free source (f i) ∧ Framed (f i)) →
      Fresh source (ofText t ++ w) → Free source (t ++ w.restore f) := by
  induction w with
  | nil =>
    intro t _ h
    rw [List.append_nil] at h
    rw [restore, List.append_nil]
    exact fresh_ofText.mp h
  | cons x w ih =>
    intro t hf h
    have hf' : ∀ i, .slot i ∈ w → Free source (f i) ∧ Framed (f i) :=
      fun i hi => hf i (List.mem_cons_of_mem x hi)
    cases x with
    | char c =>
      have := ih (t := t ++ [c]) hf' (by simpa [ofText] using h)
      rwa [List.append_assoc] at this
    | slot i =>
      obtain ⟨hfree, hframed⟩ := hf i List.mem_cons_self
      have ht : Free source t := fresh_ofText.mp (h.of_isInfix (List.prefix_append ..).isInfix)
      have hrest : Free source (restore f w) :=
        ih (t := []) hf'
          (h.of_isInfix ((List.suffix_cons _ w).trans (List.suffix_append ..)).isInfix)
      show Free source (t ++ (f i ++ restore f w))
      exact free_append ht (free_append hfree hrest (Or.inl hframed.ends))
        (Or.inr (startsClear_append_of_ne_nil hframed.ne_nil hframed.starts _))

/-- **A fresh word with free and framed texts in its slots is free.** -/
theorem free_restore {w : Word} (hf : ∀ i, .slot i ∈ w → Free source (f i) ∧ Framed (f i))
    (h : Fresh source w) : Free source (w.restore f) :=
  free_append_restore (t := []) hf h

end Word

namespace Splice

open Placeholder Markup

variable {source : Text} {keys : List Text} {f : Nat → Text}

/-- An item on one line, with the texts `f` in place of the placeholders. -/
def fill (keys : List Text) (f : Nat → Text) : Item → Text
  | .text t => (pieces keys t).flatMap (Piece.restore f)
  | .line kind => (Item.line kind).flat

/-- The slots found in an item. -/
def slotsIn (keys : List Text) : Item → List Nat :=
  Doc.ofItem fun t => (pieces keys t).filterMap Piece.index?

/-- What the items of a word are when its slots are filled. -/
structure Filled (source : Text) (keys : List Text) (f : Nat → Text) (is : List Item) (w : Word) :
    Prop where
  solid : Text.solid (is.flatMap (fill keys f)) = Text.solid (w.restore f)
  free : Free source (is.flatMap (fill keys f))
  slots : is.flatMap (slotsIn keys) = w.slots

theorem filled_ofText {b : Text} (hb : Text.isBlank b = true) :
    Filled source keys f [] (Word.ofText b) := by
  refine ⟨?_, free_nil, (Word.slots_ofText b).symm⟩
  rw [Word.restore_ofText, Text.solid_of_isBlank hb]
  rfl

theorem Filled.line {is : List Item} {w : Word} (h : Filled source keys f is w) (kind : Line) :
    Filled source keys f (.line kind :: is) w := by
  refine ⟨?_, ?_, h.slots⟩
  · rw [List.flatMap_cons, Text.solid_append, h.solid]
    cases kind <;> rfl
  · cases kind with
    | soft => exact h.free
    | normal => exact free_cons (by decide) h.free
    | hard => exact free_cons (by decide) h.free
    | verbatim => exact free_cons (by decide) h.free
    | literal => exact free_cons (by decide) h.free

/-- What follows a text starts with a space, or is nothing. -/
theorem startsClear_fill {is : List Item} (h : StartsLine is) :
    StartsClear (is.flatMap (fill keys f)) := by
  cases is with
  | nil => simp [StartsClear]
  | cons i is =>
    obtain ⟨kind, rfl, hkind⟩ := h i rfl
    intro c hc
    cases kind with
    | soft => exact absurd rfl hkind
    | normal => exact Option.some.inj hc ▸ by decide
    | hard => exact Option.some.inj hc ▸ by decide
    | verbatim => exact Option.some.inj hc ▸ by decide
    | literal => exact Option.some.inj hc ▸ by decide

/-- A text that is spelled from a part of the word. -/
theorem Filled.text {is : List Item} {b s : Text} {v w : Word} (hkeys : IsKeys source keys)
    (hf : ∀ i, .slot i ∈ v → Free source (f i) ∧ Framed (f i)) (hb : Text.isBlank b = true)
    (hs : v.spell keys = s) (hfresh : v.Fresh source) (hwithin : v.Within keys.length)
    (hline : StartsLine is) (h : Filled source keys f is w) :
    Filled source keys f (.text s :: is) (Word.ofText b ++ (v ++ w)) := by
  have hpieces : pieces keys s = v.group := hs ▸ pieces_spell hkeys hfresh hwithin
  have hfill : fill keys f (.text s) = v.restore f := by
    rw [fill, hpieces, Word.restore_group]
  refine ⟨?_, ?_, ?_⟩
  · rw [List.flatMap_cons, hfill, Text.solid_append, h.solid, Word.restore_append,
      Word.restore_append, Text.solid_append, Text.solid_append, Word.restore_ofText,
      Text.solid_of_isBlank hb, List.nil_append]
  · rw [List.flatMap_cons, hfill]
    exact free_append (Word.free_restore hf hfresh) h.free (Or.inr (startsClear_fill hline))
  · rw [List.flatMap_cons, h.slots, Word.slots_append, Word.slots_append, Word.slots_ofText,
      List.nil_append]
    show (pieces keys s).filterMap Piece.index? ++ _ = _
    rw [hpieces, Word.index?_group]

/-- **Laid out markup with its placeholders replaced**, by induction on its items: each text is
spelled from a part of the word. -/
theorem filled_of_lays (hkeys : IsKeys source keys)
    (hf : ∀ i < keys.length, Free source (f i) ∧ Framed (f i)) {is : List Item} {t : Text}
    (h : Lays is t) {w : Word} (hspell : w.spell keys = t) (hfresh : w.Fresh source)
    (hwithin : w.Within keys.length) : Filled source keys f is w := by
  induction h generalizing w with
  | done hb =>
    subst hspell
    rw [spell_blank hkeys hwithin hb]
    exact filled_ofText hb
  | line kind _ ih => exact (ih hspell hfresh hwithin).line kind
  | @text b s t is hb hline hblank _ ih =>
    obtain ⟨w₁, rfl, hrest⟩ := spell_blank_append hkeys hwithin hspell hb
    have hsub : w₁ <:+: Word.ofText b ++ w₁ := (List.suffix_append ..).isInfix
    obtain ⟨v, w, rfl, hv, hw⟩ := spell_split hkeys (hwithin.of_isInfix hsub) hrest hblank
    have hvsub : v <:+: Word.ofText b ++ (v ++ w) := (List.prefix_append ..).isInfix.trans hsub
    have hwsub : w <:+: Word.ofText b ++ (v ++ w) := (List.suffix_append ..).isInfix.trans hsub
    exact .text hkeys (fun i hi => hf i (hwithin.of_isInfix hvsub i hi)) hb hv
      (hfresh.of_isInfix hvsub) (hwithin.of_isInfix hvsub) hline
      (ih hw (hfresh.of_isInfix hwsub) (hwithin.of_isInfix hwsub))

/-- The slots found in a document are those of its items. -/
theorem found_eq_flatMap (keys : List Text) (d : Doc) :
    found keys d = d.items.flatMap (slotsIn keys) := by
  have hnil : (pieces keys []).filterMap Piece.index? = [] := by
    rw [pieces]
    rfl
  rw [found, List.filterMap_flatMap, slotsIn]
  exact Doc.leaves_flatMap hnil d

/-- **No placeholder is lost or doubled**, if the slots found are all the slots in order. -/
theorem misused?_eq_none {d : Doc} (h : found keys d = List.range keys.length) :
    misused? keys d = none := by
  unfold misused?
  rw [List.findSome?_eq_none_iff]
  intro p hp
  have hlt : p.2 < keys.length := by
    have := List.snd_lt_of_mem_zipIdx hp
    omega
  have hcount : (found keys d).count p.2 = 1 := by
    rw [h]
    exact List.count_eq_one_of_mem List.nodup_range (List.mem_range.mpr hlt)
  simp only [hcount, if_true]

theorem keyAt?_lt {t key : Text} {i : Nat} : ∀ {keys : List Text} {index : Nat},
    keyAt? index keys t = some (i, key) → i < index + keys.length
  | [], _, h => by simp [keyAt?] at h
  | k :: keys, index, h => by
    rw [keyAt?] at h
    split at h
    · obtain ⟨rfl, -⟩ := Prod.mk.inj (Option.some.inj h)
      rw [List.length_cons]
      omega
    · have := keyAt?_lt h
      rw [List.length_cons]
      omega

/-- A text is cut at the keys only. -/
theorem lt_of_mem_pieces (keys : List Text) (t : Text) :
    ∀ i ∈ (pieces keys t).filterMap Piece.index?, i < keys.length := by
  fun_induction pieces keys t with
  | case1 => simp
  | case2 c rest index key hat ih =>
    have hlt := keyAt?_lt hat
    rw [Nat.zero_add] at hlt
    exact List.forall_mem_cons.mpr ⟨hlt, ih⟩
  | case3 c rest hat ih =>
    rw [Word.index?_consChar]
    exact ih

/-- **Where no placeholder is misused, each slot is found once**, in some order. -/
theorem found_perm_of_misused? {d : Doc} (h : misused? keys d = none) :
    (found keys d).Perm (List.range keys.length) := by
  rw [misused?, List.findSome?_eq_none_iff] at h
  refine List.perm_iff_count.mpr fun i => ?_
  rw [List.count_range]
  split
  · rename_i hlt
    have hmem : (keys[i], i) ∈ keys.zipIdx := by
      rw [List.mem_zipIdx_iff_getElem?]
      exact List.getElem?_eq_getElem hlt
    have hi := h _ hmem
    by_contra hne
    simp [hne] at hi
  · rename_i hge
    refine List.count_eq_zero.mpr fun hmem => hge ?_
    rw [found, List.mem_filterMap] at hmem
    obtain ⟨piece, hpiece, hindex⟩ := hmem
    obtain ⟨t, -, hpiece⟩ := List.mem_flatMap.mp hpiece
    exact lt_of_mem_pieces keys t i (List.mem_filterMap.mpr ⟨piece, hpiece, hindex⟩)

end Splice

end TemplateFormat
