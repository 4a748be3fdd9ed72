import TemplateFormat.Print.Splice
import TemplateFormat.Proofs.Placeholder
import TemplateFormat.Proofs.Text.Solid
import Mathlib.Data.List.GetD
import Mathlib.Data.List.Nodup

/-!
# Words of characters and slots

A text with placeholders in it is spelled from a `Word`: characters, and slots for the nodes that
the placeholders stand for. `Word.restore` writes a word with any text for each slot; with the
placeholders as those texts (`Word.spell`) it gives the text that is handed to the markup
formatter.

A text can hold placeholders that no slot wrote: literal text right after a placeholder may go on
from its last low line. The cut at placeholders is not led astray by them, because it goes from
left to right and passes each placeholder whole. It finds exactly the slots if the stem does not
occur in the characters of the word alone (`Word.Fresh`), whatever characters these are.

Results:
* `pieces_spell`: cutting a spelled word at its placeholders gives the word back.
* `spell_split`, `spell_blank_append`: a spelled word can be cut before and behind white space, as a
  word.
-/

namespace TemplateFormat

/-- A character, or a slot for a node. -/
inductive Symbol where
  | char (c : Char)
  | slot (index : Nat)
deriving DecidableEq, Repr

/-- Characters and slots in order. -/
abbrev Word := List Symbol

namespace Word

/-- A text as a word without slots. -/
def ofText (t : Text) : Word := t.map .char

/-- The text of a word that has the text `f i` in slot `i`. -/
def restore (f : Nat → Text) : Word → Text
  | [] => []
  | .char c :: w => c :: restore f w
  | .slot i :: w => f i ++ restore f w

/-- The word with placeholders in its slots. -/
def spell (keys : List Text) (w : Word) : Text := restore (fun i => keys.getD i []) w

/-- The slots of a word, in order. -/
def slots (w : Word) : List Nat :=
  w.filterMap fun
    | .char _ => none
    | .slot i => some i

/-- The stem does not occur in the characters of the word alone. -/
def Fresh (source : Text) (w : Word) : Prop := ¬ ofText (Placeholder.stem source) <:+: w

/-- The word has no slots but the first `n`. -/
def Within (n : Nat) (w : Word) : Prop := ∀ i, .slot i ∈ w → i < n

theorem spell_char (keys : List Text) (c : Char) (w : Word) :
    spell keys (.char c :: w) = c :: spell keys w := rfl

theorem spell_slot {keys : List Text} {i : Nat} (h : i < keys.length) (w : Word) :
    spell keys (.slot i :: w) = keys[i] ++ spell keys w := by
  show keys.getD i [] ++ spell keys w = _
  rw [List.getD_eq_getElem _ _ h]

theorem restore_append (f : Nat → Text) (v w : Word) :
    restore f (v ++ w) = restore f v ++ restore f w := by
  induction v with
  | nil => rfl
  | cons s v ih =>
    cases s with
    | char c => exact congrArg (c :: ·) ih
    | slot i =>
      show f i ++ restore f (v ++ w) = f i ++ restore f v ++ restore f w
      rw [ih, List.append_assoc]

@[simp] theorem restore_ofText (f : Nat → Text) (t : Text) : restore f (ofText t) = t := by
  induction t with
  | nil => rfl
  | cons c t ih => exact congrArg (c :: ·) ih

/-- A text at the start is spelled by characters, if no slot starts with one of these. -/
theorem restore_eq_append {f : Nat → Text} {s t : Text} : ∀ {w : Word},
    (∀ i, .slot i ∈ w → ∃ c ∉ s, c ∈ (f i).head?) → w.restore f = s ++ t →
      ∃ v, w = ofText s ++ v ∧ v.restore f = t := by
  induction s with
  | nil => exact fun {w} _ h => ⟨w, rfl, h⟩
  | cons c s ih =>
    intro w hf h
    cases w with
    | nil => exact absurd h (by simp [restore])
    | cons x w =>
      cases x with
      | char d =>
        obtain ⟨rfl, hrest⟩ := List.cons.inj h
        obtain ⟨v, rfl, hv⟩ := ih (fun i hi => by
          obtain ⟨e, he, hhead⟩ := hf i (List.mem_cons_of_mem _ hi)
          exact ⟨e, fun hmem => he (List.mem_cons_of_mem d hmem), hhead⟩) hrest
        exact ⟨v, rfl, hv⟩
      | slot i =>
        obtain ⟨e, he, hhead⟩ := hf i List.mem_cons_self
        obtain ⟨rest, hrest⟩ := List.head?_eq_some_iff.mp hhead
        have h' : f i ++ restore f w = c :: (s ++ t) := h
        rw [hrest, List.cons_append] at h'
        exact absurd ((List.cons.inj h').1 ▸ List.mem_cons_self) he

/-- A text at the end is spelled by characters, if no slot ends with one of these. -/
theorem restore_eq_append_right {f : Nat → Text} {s t : Text} : ∀ {w : Word},
    (∀ i, .slot i ∈ w → ∃ c ∉ t, c ∈ (f i).getLast?) → w.restore f = s ++ t →
      ∃ v, w = v ++ ofText t ∧ v.restore f = s := by
  induction t using List.reverseRecOn with
  | nil => exact fun {w} _ h => ⟨w, (List.append_nil w).symm, h.trans (List.append_nil s)⟩
  | append_singleton t c ih =>
    intro w hf h
    rw [← List.append_assoc] at h
    rcases List.eq_nil_or_concat w with rfl | ⟨w, x, rfl⟩
    · exact absurd h (by simp [restore])
    · rw [List.concat_eq_append] at hf h ⊢
      rw [restore_append] at h
      cases x with
      | char d =>
        obtain ⟨hrest, hd⟩ := List.append_inj' (show restore f w ++ [d] = _ from h) rfl
        obtain ⟨v, rfl, hv⟩ := ih (fun i hi => by
          obtain ⟨e, he, hlast⟩ := hf i (List.mem_append_left _ hi)
          exact ⟨e, fun hmem => he (List.mem_append_left _ hmem), hlast⟩) hrest
        refine ⟨v, ?_, hv⟩
        rw [List.singleton_inj.mp hd, List.append_assoc, ofText, ofText, List.map_append]
        rfl
      | slot i =>
        obtain ⟨e, he, hlast⟩ := hf i (by simp)
        obtain ⟨init, hinit⟩ := List.getLast?_eq_some_iff.mp hlast
        have h' : restore f w ++ (f i ++ []) = s ++ t ++ [c] := h
        rw [hinit, List.append_nil, ← List.append_assoc] at h'
        have hec := List.singleton_inj.mp (List.append_inj' h' rfl).2
        exact absurd (hec ▸ List.mem_append_right t (List.mem_singleton_self _)) he

theorem slots_append (v w : Word) : slots (v ++ w) = slots v ++ slots w := List.filterMap_append

theorem slots_ofText (t : Text) : slots (ofText t) = [] := by
  induction t with
  | nil => rfl
  | cons c t ih => exact ih

/-- A word without slots is a text. -/
theorem exists_ofText {w : Word} (h : w.slots = []) : ∃ t, w = ofText t := by
  induction w with
  | nil => exact ⟨[], rfl⟩
  | cons x w ih =>
    cases x with
    | char c =>
      obtain ⟨t, rfl⟩ := ih h
      exact ⟨c :: t, rfl⟩
    | slot i => exact absurd h (List.cons_ne_nil _ _)

theorem Fresh.of_isInfix {source : Text} {v w : Word} (h : Fresh source w) (hv : v <:+: w) :
    Fresh source v := fun hs => h (hs.trans hv)

theorem Within.of_isInfix {n : Nat} {v w : Word} (h : Within n w) (hv : v <:+: w) : Within n v :=
  fun i hi => h i (hv.subset hi)

theorem Within.tail {n : Nat} {x : Symbol} {w : Word} (h : Within n (x :: w)) : Within n w :=
  h.of_isInfix (List.suffix_cons x w).isInfix

theorem Within.lt {n i : Nat} {w : Word} (h : Within n (.slot i :: w)) : i < n :=
  h i List.mem_cons_self

theorem ofText_infix_iff {s t : Text} : ofText s <:+: ofText t ↔ s <:+: t := by
  constructor
  · rintro ⟨pre, post, h⟩
    have := congrArg (restore fun _ => []) h
    simp only [restore_append, restore_ofText] at this
    exact ⟨_, _, this⟩
  · exact fun h => h.map _

theorem fresh_ofText {source t : Text} : Fresh source (ofText t) ↔ Placeholder.Free source t :=
  not_congr ofText_infix_iff

/-- A slot parts the characters before it from those behind it. -/
theorem fresh_append_slot {source : Text} {v w : Word} {i : Nat} (hv : Fresh source v)
    (hw : Fresh source w) : Fresh source (v ++ .slot i :: w) := by
  intro h
  refine (infix_append_cons h fun hm => ?_).elim hv hw
  obtain ⟨c, -, hc⟩ := List.mem_map.mp hm
  exact absurd hc (by simp)

/-! ## Pieces -/

/-- The word cut at its slots. -/
def group : Word → List Splice.Piece
  | [] => []
  | .char c :: w => Splice.consChar c (group w)
  | .slot i :: w => .slot i :: group w

theorem index?_consChar (c : Char) (ps : List Splice.Piece) :
    (Splice.consChar c ps).filterMap Splice.Piece.index? = ps.filterMap Splice.Piece.index? := by
  unfold Splice.consChar
  split <;> rfl

theorem group_ofText {t : Text} (h : t ≠ []) : group (ofText t) = [.literal t] := by
  induction t with
  | nil => exact absurd rfl h
  | cons c t ih =>
    rw [show group (ofText (c :: t)) = Splice.consChar c (group (ofText t)) from rfl]
    by_cases ht : t = []
    · rw [ht]
      rfl
    · rw [ih ht]
      rfl

/-- The pieces of a word name its slots. -/
theorem index?_group (w : Word) : (group w).filterMap Splice.Piece.index? = slots w := by
  induction w with
  | nil => rfl
  | cons s w ih =>
    cases s with
    | char c =>
      rw [group, index?_consChar, ih]
      rfl
    | slot i => exact congrArg (i :: ·) ih

end Word

/-- The text of a piece that has the text `f i` in slot `i`. -/
def Splice.Piece.restore (f : Nat → Text) : Splice.Piece → Text
  | .literal t => t
  | .slot i => f i

namespace Word

theorem restore_consChar (f : Nat → Text) (c : Char) (ps : List Splice.Piece) :
    (Splice.consChar c ps).flatMap (Splice.Piece.restore f) =
      c :: ps.flatMap (Splice.Piece.restore f) := by
  unfold Splice.consChar
  split <;> rfl

/-- The pieces of a word spell it. -/
theorem restore_group (f : Nat → Text) (w : Word) :
    (group w).flatMap (Splice.Piece.restore f) = restore f w := by
  induction w with
  | nil => rfl
  | cons s w ih =>
    cases s with
    | char c =>
      rw [group, restore_consChar, ih]
      rfl
    | slot i =>
      rw [group, List.flatMap_cons, ih]
      rfl

end Word

/-! ## Cutting at placeholders -/

theorem Text.startsWith_iff {start t : Text} : Text.startsWith start t = true ↔ start <+: t := by
  rw [Text.startsWith, Option.isSome_iff_exists]
  exact exists_congr fun rest => Text.dropStart?_eq_some.trans eq_comm

namespace Splice

/-- The keys are different placeholders with the stem of `source`. -/
def IsKeys (source : Text) (keys : List Text) : Prop :=
  ∃ ids : List Nat, ids.Nodup ∧ keys = ids.map (Placeholder.token (Placeholder.stem source))

variable {source : Text} {keys : List Text}

theorem IsKeys.stem_isPrefix (h : IsKeys source keys) {key : Text} (hkey : key ∈ keys) :
    Placeholder.stem source <+: key := by
  obtain ⟨ids, -, rfl⟩ := h
  obtain ⟨n, -, rfl⟩ := List.mem_map.mp hkey
  exact Placeholder.stem_prefix_token _ n

/-- A placeholder starts with a low line. -/
theorem IsKeys.eq_cons (h : IsKeys source keys) {key : Text} (hkey : key ∈ keys) :
    ∃ rest, key = '_' :: rest := by
  obtain ⟨rest, hstem, -⟩ := Placeholder.stem_eq_cons source
  obtain ⟨post, hp⟩ := h.stem_isPrefix hkey
  rw [hstem] at hp
  exact ⟨_, hp.symm⟩

/-- A placeholder holds no white space. -/
theorem IsKeys.isSolid (h : IsKeys source keys) {key : Text} (hkey : key ∈ keys) :
    Text.IsSolid key := by
  obtain ⟨ids, -, rfl⟩ := h
  obtain ⟨n, -, rfl⟩ := List.mem_map.mp hkey
  exact Placeholder.isSolid_token source n

/-- A placeholder has no tags in it. -/
theorem IsKeys.tagless (h : IsKeys source keys) {key : Text} (hkey : key ∈ keys) : '<' ∉ key := by
  obtain ⟨ids, -, rfl⟩ := h
  obtain ⟨n, -, rfl⟩ := List.mem_map.mp hkey
  exact fun hc => absurd (Placeholder.mem_token hc) (by decide)

/-- No placeholder is found where none starts. -/
theorem keyAt?_eq_none {t : Text} : ∀ {keys : List Text} (index : Nat),
    (∀ key ∈ keys, ¬ key <+: t) → keyAt? index keys t = none
  | [], _, _ => rfl
  | key :: keys, index, h => by
    have hkey : ¬ (!key.isEmpty && Text.startsWith key t) = true := by
      rw [Bool.and_eq_true, Text.startsWith_iff]
      exact fun hp => h key List.mem_cons_self hp.2
    rw [keyAt?, if_neg hkey]
    exact keyAt?_eq_none (index + 1) fun k hk => h k (List.mem_cons_of_mem key hk)

/-- The placeholder that starts a text is found, if none before it in the list does. -/
theorem keyAt?_eq_some {t : Text} : ∀ {keys : List Text} (index i : Nat) {key : Text},
    keys[i]? = some key → key ≠ [] → key <+: t → (∀ j < i, ∀ k, keys[j]? = some k → ¬ k <+: t) →
      keyAt? index keys t = some (index + i, key)
  | [], _, _, _, hi, _, _, _ => by simp at hi
  | k :: keys, index, 0, key, hi, hne, hp, _ => by
    obtain rfl : k = key := by simpa using hi
    have hk : (!k.isEmpty && Text.startsWith k t) = true := by
      rw [Bool.and_eq_true, Text.startsWith_iff]
      exact ⟨by simpa using hne, hp⟩
    rw [keyAt?, if_pos hk]
    rfl
  | k :: keys, index, i + 1, key, hi, hne, hp, hj => by
    have hk : ¬ (!k.isEmpty && Text.startsWith k t) = true := by
      rw [Bool.and_eq_true, Text.startsWith_iff]
      exact fun h => hj 0 (Nat.succ_pos i) k rfl h.2
    rw [keyAt?, if_neg hk, keyAt?_eq_some (index + 1) i (by simpa using hi) hne hp
      fun j hlt k' hk' => hj (j + 1) (Nat.succ_lt_succ hlt) k' (by simpa using hk')]
    congr 2
    omega

/-- A placeholder is found where it stands. -/
theorem IsKeys.keyAt? (h : IsKeys source keys) {i : Nat} {key : Text} (hi : keys[i]? = some key)
    (rest : Text) : keyAt? 0 keys (key ++ rest) = some (i, key) := by
  have hmem := List.mem_of_getElem? hi
  obtain ⟨tail, htail⟩ := h.eq_cons hmem
  obtain ⟨ids, hnodup, rfl⟩ := h
  have hfound := keyAt?_eq_some (t := key ++ rest) 0 i hi (by rw [htail]; simp)
    (List.prefix_append key rest) fun j hlt k hk hp => ?_
  · rw [hfound, Nat.zero_add]
  · rw [List.getElem?_map, Option.map_eq_some_iff] at hi hk
    obtain ⟨m, hm, rfl⟩ := hi
    obtain ⟨n, hn, rfl⟩ := hk
    obtain rfl := Placeholder.eq_of_token_isPrefix hp
    have hji : j = i := by
      obtain ⟨hj', hj⟩ := List.getElem?_eq_some_iff.mp hn
      obtain ⟨hi', hi⟩ := List.getElem?_eq_some_iff.mp hm
      exact (List.Nodup.getElem_inj_iff hnodup).mp (hj.trans hi.symm)
    omega

/-- A slot is spelled with a low line first. -/
theorem IsKeys.spell_slot (h : IsKeys source keys) {i : Nat} (hlt : i < keys.length) (w : Word) :
    ∃ rest, Word.spell keys (.slot i :: w) = '_' :: rest := by
  obtain ⟨rest, hrest⟩ := h.eq_cons (List.getElem_mem hlt)
  rw [Word.spell_slot hlt, hrest]
  exact ⟨_, rfl⟩

/-- A text without low lines at the start of a spelled word is spelled by characters. -/
theorem ofText_prefix_of_spell (h : IsKeys source keys) {s : Text} (hs : '_' ∉ s) {w : Word}
    (hw : w.Within keys.length) (hp : s <+: w.spell keys) : Word.ofText s <+: w := by
  obtain ⟨t, ht⟩ := hp
  obtain ⟨v, rfl, -⟩ := Word.restore_eq_append (fun i hi => by
    obtain ⟨rest, hrest⟩ := h.eq_cons (List.getElem_mem (hw i hi))
    refine ⟨'_', hs, ?_⟩
    rw [List.getD_eq_getElem _ _ (hw i hi), hrest]
    rfl) ht.symm
  exact List.prefix_append ..

/-- No placeholder is found at a character of a fresh word. -/
theorem IsKeys.keyAt?_char (h : IsKeys source keys) {c : Char} {w : Word}
    (hfresh : Word.Fresh source (.char c :: w)) (hw : w.Within keys.length) :
    Splice.keyAt? 0 keys (c :: w.spell keys) = none := by
  refine keyAt?_eq_none 0 fun key hkey hp => hfresh ?_
  obtain ⟨rest, hstem, hrest⟩ := Placeholder.stem_eq_cons source
  have hp' := (h.stem_isPrefix hkey).trans hp
  rw [hstem] at hp' ⊢
  rw [List.cons_prefix_cons] at hp'
  obtain ⟨rfl, hs⟩ := hp'
  exact (List.cons_prefix_cons.mpr ⟨rfl, ofText_prefix_of_spell h hrest hw hs⟩).isInfix

/-- **Cutting a spelled word at its placeholders gives the word back.** -/
theorem pieces_spell (h : IsKeys source keys) : ∀ {w : Word}, Word.Fresh source w →
    w.Within keys.length → pieces keys (w.spell keys) = w.group
  | [], _, _ => by
    show pieces keys [] = []
    rw [pieces]
  | .char c :: w, hfresh, hw => by
    have ih := pieces_spell h (hfresh.of_isInfix (List.suffix_cons _ w).isInfix) hw.tail
    rw [Word.spell_char, pieces, h.keyAt?_char hfresh hw.tail]
    exact congrArg (consChar c) ih
  | .slot i :: w, hfresh, hw => by
    have ih := pieces_spell h (hfresh.of_isInfix (List.suffix_cons _ w).isInfix) hw.tail
    obtain ⟨tail, htail⟩ := h.eq_cons (List.getElem_mem hw.lt)
    have hat := h.keyAt? (List.getElem?_eq_getElem hw.lt) (Word.spell keys w)
    rw [htail, List.cons_append] at hat
    rw [Word.spell_slot hw.lt, htail, List.cons_append, pieces, hat]
    show .slot i :: pieces keys ((tail ++ Word.spell keys w).drop tail.length) = _
    rw [List.drop_left, ih]
    rfl

/-! ## Splitting spelled words at white space -/

/-- **A spelled word can be cut before white space**: no placeholder reaches over the cut. -/
theorem spell_split (h : IsKeys source keys) : ∀ {w : Word} {s t : Text}, w.Within keys.length →
    w.spell keys = s ++ t → Text.StartsBlank t →
      ∃ v v', w = v ++ v' ∧ v.spell keys = s ∧ v'.spell keys = t
  | [], s, t, _, he, _ => by
    obtain ⟨rfl, rfl⟩ := List.append_eq_nil_iff.mp he.symm
    exact ⟨[], [], rfl, rfl, rfl⟩
  | .char c :: w, [], t, hw, he, hb => ⟨[], .char c :: w, rfl, rfl, he⟩
  | .char c :: w, d :: s, t, hw, he, hb => by
    rw [Word.spell_char, List.cons_append] at he
    obtain ⟨rfl, hrest⟩ := List.cons.inj he
    obtain ⟨v, v', rfl, hv, hv'⟩ := spell_split h hw.tail hrest hb
    exact ⟨.char c :: v, v', rfl, congrArg (c :: ·) hv, hv'⟩
  | .slot i :: w, s, t, hw, he, hb => by
    rw [Word.spell_slot hw.lt] at he
    rcases List.append_eq_append_iff.mp he with ⟨u, rfl, hu⟩ | ⟨u, hkey, ht⟩
    · obtain ⟨v, v', rfl, hv, hv'⟩ := spell_split h hw.tail hu hb
      refine ⟨.slot i :: v, v', rfl, ?_, hv'⟩
      rw [Word.spell_slot hw.lt, hv]
    · cases u with
      | nil =>
        rw [List.append_nil] at hkey
        rw [List.nil_append] at ht
        refine ⟨[.slot i], w, rfl, ?_, ht.symm⟩
        rw [Word.spell_slot hw.lt, hkey]
        exact List.append_nil s
      | cons c u =>
        -- the cut would fall inside the placeholder, before one of its characters
        have hsolid := h.isSolid (List.getElem_mem hw.lt) c (by rw [hkey]; simp)
        have hblank := hb c (by rw [ht]; rfl)
        rw [hsolid] at hblank
        exact absurd hblank (by decide)

/-- White space at the start of a spelled word is spelled by characters. -/
theorem spell_blank_append (h : IsKeys source keys) : ∀ {b : Text} {w : Word} {t : Text},
    w.Within keys.length → w.spell keys = b ++ t → Text.isBlank b = true →
      ∃ v, w = Word.ofText b ++ v ∧ v.spell keys = t
  | [], w, t, _, he, _ => ⟨w, rfl, he⟩
  | c :: b, [], t, _, he, _ => absurd he (by simp [Word.spell, Word.restore])
  | c :: b, .char d :: w, t, hw, he, hb => by
    rw [Word.spell_char, List.cons_append] at he
    obtain ⟨rfl, hrest⟩ := List.cons.inj he
    rw [Text.isBlank_cons, Bool.and_eq_true] at hb
    obtain ⟨v, rfl, hv⟩ := spell_blank_append h hw.tail hrest hb.2
    exact ⟨v, rfl, hv⟩
  | c :: b, .slot i :: w, t, hw, he, hb => by
    obtain ⟨rest, hrest⟩ := h.spell_slot hw.lt w
    rw [hrest, List.cons_append] at he
    rw [← (List.cons.inj he).1] at hb
    exact absurd hb (by simp [isBlank])

/-- A spelled word that is all white space has no slots. -/
theorem spell_blank (h : IsKeys source keys) {w : Word} (hw : w.Within keys.length)
    (hb : Text.isBlank (w.spell keys) = true) : w = Word.ofText (w.spell keys) := by
  obtain ⟨v, hv, hnil⟩ := spell_blank_append h hw (List.append_nil _).symm hb
  have hwithin : v.Within keys.length := by
    rw [hv] at hw
    exact hw.of_isInfix (List.suffix_append ..).isInfix
  cases v with
  | nil => rwa [List.append_nil] at hv
  | cons x v =>
    cases x with
    | char c => exact absurd hnil (by simp [Word.spell_char])
    | slot i =>
      obtain ⟨rest, hrest⟩ := h.spell_slot hwithin.lt v
      rw [hrest] at hnil
      exact absurd hnil (by simp)

end Splice

end TemplateFormat
