import TemplateFormat.Proofs.Markup.Forest
import TemplateFormat.Proofs.Markup.Mask
import TemplateFormat.Proofs.Text.Search
import TemplateFormat.Proofs.Token.Regions

/-!
# Reading the lines of an element tree

The lines of a forest hold no comments and no elements whose body is no markup: each angle bracket
that opens a tag is followed by a name that is none of theirs (`Calm`), so masking changes nothing.
On each line the tag search finds the tag that is written there, and nothing else, whatever follows
the line.

Results:
* `mask_eq_self`: calm markup is not written over.
* `calm_line`: a line of a forest before calm markup.
* `tagsFrom_line`: the tags that are found on a line of a forest.
-/

namespace TemplateFormat

namespace Markup

/-! ## Names -/

theorem isWord_of_isAlpha {c : Char} (h : c.isAlpha = true) : isWord c = true := by
  simp [isWord, isAsciiWord, Char.isAlphanum, h]

theorem isNameChar_of_isAlpha {c : Char} (h : c.isAlpha = true) : isNameChar c = true := by
  simp [isNameChar, isWord_of_isAlpha h]

/-- The text does not go on with a character of a name. -/
def EndsName (t : Text) : Prop := ∀ c ∈ t.head?, isNameChar c = false

theorem EndsName.takeWhile {u : Text} (h : EndsName u) : u.takeWhile isNameChar = [] := by
  cases u with
  | nil => rfl
  | cons c u => exact List.takeWhile_cons_of_neg (by simp [h c rfl])

theorem EndsName.dropWhile {u : Text} (h : EndsName u) : u.dropWhile isNameChar = u := by
  cases u with
  | nil => rfl
  | cons c u => exact List.dropWhile_cons_of_neg (by simp [h c rfl])

theorem isNameChar_of_isBlank {c : Char} (h : isBlank c = true) : isNameChar c = false := by
  have hcolon : c ≠ ':' := ne_of_isBlank h (by decide)
  have hhyphen : c ≠ '-' := ne_of_isBlank h (by decide)
  simp [isNameChar, isWord_of_isBlank h, hcolon, hhyphen]

theorem AfterName.endsName {inside : Text} (h : AfterName inside) (rest : Text) :
    EndsName (inside ++ '>' :: rest) := by
  intro d hd
  cases h with
  | nil =>
    obtain rfl := Option.some.inj hd
    decide
  | slash =>
    obtain rfl := Option.some.inj hd
    decide
  | attributes hc _ =>
    obtain rfl := Option.some.inj hd
    exact isNameChar_of_isBlank hc

theorem isLetter_iff {l c : Char} :
    isLetter l c = true ↔ c.toLower = l ∨ l = 's' ∧ c.toNat = 0x17f := by
  rw [isLetter, Bool.or_eq_true, Bool.and_eq_true, beq_iff_eq, beq_iff_eq, beq_iff_eq]

/-- A lower case letter in either case, or the long s, belongs to a word. -/
theorem isWord_of_isLetter {l c : Char} (hl : l.isLower = true) (h : isLetter l c = true) :
    isWord c = true := by
  rcases isLetter_iff.mp h with rfl | ⟨-, hlong⟩
  · by_cases hc : c.isUpper = true
    · exact isWord_of_isAlpha (Bool.or_eq_true_iff.mpr (Or.inl hc))
    · have hself : c.toLower = c := dif_neg fun hrange => hc (decide_eq_true hrange)
      rw [hself] at hl
      exact isWord_of_isAlpha (Bool.or_eq_true_iff.mpr (Or.inr hl))
  · rw [← Char.ofNat_toNat c, hlong]
    decide +kernel

theorem toLower_of_isLetter {l c : Char} (hc : c.isAlpha = true) (h : isLetter l c = true) :
    c.toLower = l := by
  rcases isLetter_iff.mp h with h | ⟨-, hlong⟩
  · exact h
  · rw [← Char.ofNat_toNat c, hlong] at hc
    exact absurd hc (by decide)

theorem isLower_of_mem_rawNames {name : Text} (h : name ∈ rawNames) :
    ∀ l ∈ name, l.isLower = true := by
  have hall : (rawNames.all fun name => name.all Char.isLower) = true := by decide
  exact List.all_eq_true.mp (List.all_eq_true.mp hall name h)

/-- A whole word that is read as a name in either case is that name. -/
theorem lowerAscii_of_afterName? {name n u rest : Text} (hname : ∀ l ∈ name, l.isLower = true)
    (hn : ∀ c ∈ n, c.isAlpha = true) (hu : EndsName u)
    (h : (afterName? name (n ++ u)).filter atWordEnd = some rest) : Text.lowerAscii n = name := by
  induction name generalizing n with
  | nil =>
    cases n with
    | nil => rfl
    | cons c n =>
      have hword : atWordEnd (c :: (n ++ u)) = false := by
        rw [atWordEnd, isWord_of_isAlpha (hn c List.mem_cons_self)]
        rfl
      rw [afterName?, List.cons_append, Option.filter_some, hword] at h
      exact absurd h (by simp)
  | cons l name ih =>
    have hl := hname l List.mem_cons_self
    have hname' : ∀ l ∈ name, l.isLower = true := fun l hl => hname l (List.mem_cons_of_mem _ hl)
    cases n with
    | nil =>
      cases u with
      | nil => simp [afterName?] at h
      | cons d u =>
        have hd : isLetter l d = false := by
          refine Bool.eq_false_iff.mpr fun hd => ?_
          have hend := hu d rfl
          simp [isNameChar, isWord_of_isLetter hl hd] at hend
        simp [afterName?, hd] at h
    | cons c n =>
      have hc := hn c List.mem_cons_self
      rw [List.cons_append, afterName?] at h
      by_cases hlc : isLetter l c = true
      · rw [if_pos hlc] at h
        have htail := ih hname' (fun c hc => hn c (List.mem_cons_of_mem _ hc)) h
        rw [← htail, ← toLower_of_isLetter hc hlc]
        rfl
      · rw [if_neg hlc] at h
        simp at h

/-! ## Markup that is not written over -/

/-- What follows the angle bracket of a tag whose element's body is markup. -/
def TagStart (t : Text) : Prop :=
  ∃ (closing : Bool) (name : Name) (rest : Text), Text.lowerAscii name.text ∉ rawNames ∧
    EndsName rest ∧ t = (if closing then ['/'] else []) ++ (name.text ++ rest)

/-- All that starts like a tag is a tag of an element whose body is markup. -/
def Calm : Text → Prop
  | [] => True
  | c :: t => (c = '<' → TagStart t) ∧ Calm t

theorem calm_append {s t : Text} (hs : '<' ∉ s) (ht : Calm t) : Calm (s ++ t) := by
  induction s with
  | nil => exact ht
  | cons c s ih =>
    rw [List.mem_cons, not_or] at hs
    exact ⟨fun hc => absurd hc.symm hs.1, ih hs.2⟩

theorem tagText_append (closing : Bool) (name inside rest : Text) :
    tagText closing name inside ++ rest =
      '<' :: ((if closing then ['/'] else []) ++ (name ++ (inside ++ '>' :: rest))) := by
  simp [tagText]

theorem TextLine.tagless_trim (line : TextLine) : '<' ∉ Text.trim line.text :=
  fun h => line.tagless ((Text.trim_isInfix line.text).mem h)

theorem calm_tagText (closing : Bool) (name : Name) {inside rest : Text}
    (hraw : Text.lowerAscii name.text ∉ rawNames) (hinside : AfterName inside)
    (htagless : '<' ∉ inside) (hrest : Calm rest) :
    Calm (tagText closing name.text inside ++ rest) := by
  have hslash : '<' ∉ (if closing then ['/'] else [] : Text) := by cases closing <;> decide
  have hname : '<' ∉ name.text := fun h => absurd (name.letters '<' h) (by decide)
  rw [tagText_append]
  refine ⟨fun _ => ⟨closing, name, inside ++ '>' :: rest, hraw, hinside.endsName rest, rfl⟩, ?_⟩
  exact calm_append hslash (calm_append hname (calm_append htagless
    ⟨fun hc => absurd hc (by decide), hrest⟩))

/-- A line of a forest before calm markup. -/
theorem calm_body (r : Row) {rest : Text} (h : Calm rest) : Calm (r.body ++ rest) := by
  cases r with
  | text line => exact calm_append line.tagless_trim h
  | void tag =>
    have hraw : ∀ name ∈ voidElements, name ∉ rawNames := by decide
    rw [Row.body, Row.written, trim_tagText]
    exact calm_tagText false tag.name (hraw _ tag.void) tag.attributes tag.tagless h
  | opening name =>
    rw [Row.body, Row.written, trim_tagText]
    exact calm_tagText false name.toName name.not_raw .nil List.not_mem_nil h
  | closing name =>
    rw [Row.body, Row.written, trim_tagText]
    exact calm_tagText true name.toName name.not_raw .nil List.not_mem_nil h

theorem TagStart.head {t : Text} (h : TagStart t) : ∃ c u, t = c :: u ∧ c ≠ '!' := by
  obtain ⟨closing, ⟨name, hne, hletters⟩, rest, -, -, rfl⟩ := h
  obtain ⟨c, n, rfl⟩ := List.exists_cons_of_ne_nil hne
  cases closing with
  | true => exact ⟨'/', _, rfl, by decide⟩
  | false =>
    refine ⟨c, n ++ rest, rfl, ?_⟩
    rintro rfl
    exact absurd (hletters '!' List.mem_cons_self) (by decide)

theorem cut?_commentOpening {t : Text} (h : Calm t) : Text.cut? commentOpening t = none := by
  induction t with
  | nil => rfl
  | cons c t ih =>
    have hstart : Text.dropStart? commentOpening (c :: t) = none := by
      refine Option.eq_none_iff_forall_ne_some.mpr fun rest hrest => ?_
      obtain ⟨rfl, ht⟩ := List.cons.inj (Text.dropStart?_eq_some.mp hrest)
      obtain ⟨d, u, rfl, hd⟩ := (h.1 rfl).head
      exact hd (List.cons.inj ht).1
    rw [Text.cut?, hstart, ih h.2]
    rfl

/-- No tag of an element whose body is no markup. -/
theorem TagStart.afterRawOpening? {t : Text} (h : TagStart t) : afterRawOpening? ('<' :: t) = none := by
  obtain ⟨closing, ⟨name, hne, hletters⟩, rest, hraw, hends, rfl⟩ := h
  have hnone : (rawNames.findSome? fun raw =>
      (afterName? raw ((if closing then ['/'] else []) ++ (name ++ rest))).filter atWordEnd) = none := by
    rw [List.findSome?_eq_none_iff]
    intro raw hmem
    refine Option.eq_none_iff_forall_ne_some.mpr fun after hafter => ?_
    have hlower := isLower_of_mem_rawNames hmem
    cases closing with
    | true =>
      -- a closing tag does not even begin with a letter
      have hnil := lowerAscii_of_afterName? (n := []) hlower (by simp)
        (fun c hc => by obtain rfl := Option.some.inj hc; decide) hafter
      rw [← hnil] at hmem
      exact absurd hmem (by decide)
    | false =>
      have hname := lowerAscii_of_afterName? hlower hletters hends hafter
      exact hraw (hname ▸ hmem)
  rw [Markup.afterRawOpening?, hnone]

theorem bodyFlags_eq_false {t : Text} (h : Calm t) : bodyFlags t = List.replicate t.length false := by
  induction t with
  | nil => rw [bodyFlags]; rfl
  | cons c t ih =>
    have hopening : afterRawOpening? (c :: t) = none := by
      by_cases hc : c = '<'
      · rw [hc]
        exact (h.1 hc).afterRawOpening?
      · unfold afterRawOpening?
        split
        · rename_i heq
          exact absurd (List.cons.inj heq).1 hc
        · rfl
    have hnone : RawElement.at? (c :: t) = none := by rw [RawElement.at?, hopening]
    rw [bodyFlags]
    split
    · rw [ih h.2]
      rfl
    · rename_i e he
      exact absurd (hnone.symm.trans he) (by simp)

theorem commentFlags_eq_false {t : Text} (h : Calm t) :
    commentFlags t = List.replicate t.length false := by
  rw [commentFlags]
  split
  · rfl
  · rename_i hcut
    exact absurd ((cut?_commentOpening h).symm.trans hcut) (by simp)

/-- **Calm markup is not written over.** -/
theorem mask_eq_self {t : Text} (h : Calm t) : mask t = t := by
  rw [mask, commentFlags_eq_false h, bodyFlags_eq_false h, List.zipWith_replicate, Nat.min_self]
  clear h
  induction t with
  | nil => rfl
  | cons c t ih => exact congrArg (c :: ·) ih

/-! ## Reading a tag -/

theorem afterTag?_quoted {q : Char} {v : Text} (hv : q ∉ v) (t : Text) :
    afterTag? (some q) (v ++ q :: t) = afterTag? none t := by
  induction v with
  | nil => simp [afterTag?]
  | cons c v ih =>
    rw [List.mem_cons, not_or] at hv
    rw [List.cons_append, afterTag?, if_neg (Ne.symm hv.1)]
    exact ih hv.2

theorem Attributes.afterTag? {t : Text} (h : Attributes t) (rest : Text) :
    afterTag? none (t ++ '>' :: rest) = some rest := by
  induction h with
  | nil => simp [TemplateFormat.afterTag?]
  | char hc _ ih =>
    rw [List.cons_append, TemplateFormat.afterTag?, if_neg hc.1, if_neg (by simp [hc.2])]
    exact ih
  | quoted hq hv _ ih =>
    rw [List.cons_append, TemplateFormat.afterTag?, if_neg (by rcases hq with rfl | rfl <;> decide),
      if_pos (by simpa using hq), List.append_assoc, List.cons_append, afterTag?_quoted hv]
    exact ih

theorem AfterName.afterName {inside : Text} (h : AfterName inside) (rest : Text) :
    afterName (inside ++ '>' :: rest) = some rest := by
  cases h with
  | nil => rfl
  | slash => rfl
  | attributes hc h =>
    unfold Markup.afterName
    split
    · rename_i heq
      rw [(List.cons.inj heq).1] at hc
      exact absurd hc (by decide)
    · rename_i heq
      rw [(List.cons.inj heq).1] at hc
      exact absurd hc (by decide)
    · rename_i heq
      obtain ⟨rfl, rfl⟩ := List.cons.inj heq
      rw [if_pos hc]
      exact h.afterTag? rest
    · rename_i heq
      exact absurd heq (by simp)

namespace TagHead

theorem named_append (closing : Bool) (name : Name) {inside : Text} (hinside : AfterName inside)
    (rest : Text) : at?.named closing (name.text ++ (inside ++ '>' :: rest)) =
      some ⟨closing, Text.lowerAscii name.text, rest⟩ := by
  obtain ⟨name, hne, hletters⟩ := name
  obtain ⟨c, n, rfl⟩ := List.exists_cons_of_ne_nil hne
  have hchars : ∀ d ∈ n, isNameChar d = true :=
    fun d hd => isNameChar_of_isAlpha (hletters d (List.mem_cons_of_mem c hd))
  have hends := hinside.endsName rest
  have hdrop : (n ++ (inside ++ '>' :: rest)).dropWhile isNameChar = inside ++ '>' :: rest := by
    rw [List.dropWhile_append_of_pos hchars, hends.dropWhile]
  have htake : (n ++ (inside ++ '>' :: rest)).takeWhile isNameChar = n := by
    rw [List.takeWhile_append_of_pos hchars, hends.takeWhile, List.append_nil]
  rw [List.cons_append, at?.named, if_pos (hletters c List.mem_cons_self), hdrop, htake,
    hinside.afterName]
  rfl

theorem at?_tagText (closing : Bool) (name : Name) {inside : Text} (hinside : AfterName inside)
    (rest : Text) : at? (tagText closing name.text inside ++ rest) =
      some ⟨closing, Text.lowerAscii name.text, rest⟩ := by
  have hnamed := named_append closing name hinside rest
  rw [tagText_append]
  obtain ⟨c, n, hc⟩ := List.exists_cons_of_ne_nil name.ne_nil
  have hletter := name.letters c (hc ▸ List.mem_cons_self)
  rw [hc] at hnamed ⊢
  cases closing with
  | true => exact hnamed
  | false =>
    show at? ('<' :: c :: _) = _
    unfold at?
    split
    · rename_i heq
      rw [(List.cons.inj (List.cons.inj heq).2).1] at hletter
      exact absurd hletter (by decide)
    · rename_i heq
      rw [← (List.cons.inj heq).2]
      exact hnamed
    · rename_i hno
      exact absurd rfl (hno _)

end TagHead

/-! ## The tags of a line -/

theorem TagHead.at?_eq_none {c : Char} (hc : c ≠ '<') (t : Text) : TagHead.at? (c :: t) = none := by
  unfold TagHead.at?
  split
  · rename_i heq
    exact absurd (List.cons.inj heq).1 hc
  · rename_i heq
    exact absurd (List.cons.inj heq).1 hc
  · rfl

theorem tagsFrom_of_none {offset : Nat} {c : Char} {t : Text} (h : TagHead.at? (c :: t) = none) :
    tagsFrom offset (c :: t) = tagsFrom (offset + c.utf8Size) t := by
  rw [tagsFrom]
  split
  · rfl
  · rename_i head hhead
    exact absurd (h.symm.trans hhead) (by simp)

theorem tagsFrom_cons {c : Char} (hc : c ≠ '<') (offset : Nat) (t : Text) :
    tagsFrom offset (c :: t) = tagsFrom (offset + c.utf8Size) t :=
  tagsFrom_of_none (TagHead.at?_eq_none hc t)

theorem tagsFrom_append {s : Text} (hs : '<' ∉ s) (offset : Nat) (t : Text) :
    tagsFrom offset (s ++ t) = tagsFrom (offset + Text.bytes s) t := by
  induction s generalizing offset with
  | nil => rfl
  | cons c s ih =>
    rw [List.mem_cons, not_or] at hs
    rw [List.cons_append, tagsFrom_cons (Ne.symm hs.1), ih hs.2, Text.bytes_cons, Nat.add_assoc]

theorem tagsFrom_tagText (closing : Bool) (name : Name) {inside : Text} (hinside : AfterName inside)
    (offset : Nat) (rest : Text) : tagsFrom offset (tagText closing name.text inside ++ rest) =
      ⟨offset, offset + Text.bytes (tagText closing name.text inside), Text.lowerAscii name.text,
        closing, !closing && !Text.endsWith ['/', '>'] (tagText closing name.text inside) &&
          !voidElements.contains (Text.lowerAscii name.text)⟩ ::
        tagsFrom (offset + Text.bytes (tagText closing name.text inside)) rest := by
  have hat := TagHead.at?_tagText closing name hinside rest
  have hwhole : (tagText closing name.text inside ++ rest).take
      ((tagText closing name.text inside ++ rest).length - rest.length) =
        tagText closing name.text inside := by
    rw [List.length_append, Nat.add_sub_cancel]
    exact List.take_left
  obtain ⟨c, s, hcons⟩ := List.exists_cons_of_ne_nil
    (List.append_ne_nil_of_left_ne_nil (tagText_ne_nil closing name.text inside) rest)
  rw [hcons] at hat hwhole
  rw [hcons, tagsFrom]
  split
  · rename_i hnone
    exact absurd (hat.symm.trans hnone) (by simp)
  · rename_i head hhead
    obtain rfl := Option.some.inj (hat.symm.trans hhead)
    dsimp only
    rw [hwhole]

/-- Tags are found in order. -/
theorem le_start_of_mem_tagsFrom {offset : Nat} {t : Text} {tag : Tag} (h : tag ∈ tagsFrom offset t) :
    offset ≤ tag.start := by
  fun_induction tagsFrom offset t with
  | case1 offset => exact absurd h (by simp)
  | case2 offset c s hat ih => exact Nat.le_trans (Nat.le_add_right ..) (ih h)
  | case3 offset c s head hat whole stop opens ih =>
    rcases List.mem_cons.mp h with rfl | h
    · exact Nat.le_refl _
    · exact Nat.le_trans (Nat.le_add_right ..) (ih h)

/-- The tag on a line, if it starts at byte `offset`. -/
def Row.tags (offset : Nat) (r : Row) : List Tag :=
  let stop := offset + Text.bytes r.body
  match r with
  | .text _ => []
  | .void tag => [⟨offset, stop, Text.lowerAscii tag.name.text, false, false⟩]
  | .opening name => [⟨offset, stop, Text.lowerAscii name.text, false, true⟩]
  | .closing name => [⟨offset, stop, Text.lowerAscii name.text, true, false⟩]

/-- A name ends with a letter, so its tag does not end with a slash. -/
theorem endsWith_tagText (name : Name) :
    Text.endsWith ['/', '>'] (tagText false name.text []) = false := by
  refine Option.isSome_eq_false_iff.mpr (Option.isNone_iff_eq_none.mpr ?_)
  refine Option.eq_none_iff_forall_ne_some.mpr fun before h => ?_
  obtain ⟨n, c, hn⟩ : ∃ n c, name.text = n ++ [c] :=
    ⟨_, _, (List.dropLast_append_getLast name.ne_nil).symm⟩
  have hsplit : ('<' :: n) ++ [c, '>'] = before ++ ['/', '>'] := by
    rw [← Text.dropEnding?_eq_some.mp h, tagText, hn]
    simp
  obtain rfl : c = '/' := (List.cons.inj (List.append_inj' hsplit rfl).2).1
  have hletter := name.letters '/' (by simp [hn])
  exact absurd hletter (by decide)

/-- **The tag search finds the tag of a line**, and goes on behind it. -/
theorem tagsFrom_body (r : Row) (offset : Nat) (rest : Text) :
    tagsFrom offset (r.body ++ rest) =
      r.tags offset ++ tagsFrom (offset + Text.bytes r.body) rest := by
  cases r with
  | text line =>
    exact tagsFrom_append line.tagless_trim offset rest
  | void tag =>
    have hvoid := List.contains_iff_mem.mpr tag.void
    simp only [Row.tags, Row.body, Row.written, trim_tagText]
    rw [tagsFrom_tagText false tag.name tag.attributes, hvoid, Bool.not_true, Bool.and_false]
    rfl
  | opening name =>
    have hopens : voidElements.contains (Text.lowerAscii name.text) = false :=
      Bool.eq_false_iff.mpr fun h => name.not_void (List.contains_iff_mem.mp h)
    simp only [Row.tags, Row.body, Row.written, trim_tagText]
    rw [tagsFrom_tagText false name.toName .nil, hopens, endsWith_tagText]
    rfl
  | closing name =>
    simp only [Row.tags, Row.body, Row.written, trim_tagText]
    rw [tagsFrom_tagText true name.toName .nil]
    rfl

/-! ## Lines with white space around them -/

theorem notMem_of_isBlank {b : Text} (hb : Text.isBlank b = true) : '<' ∉ b :=
  fun h => absurd (Text.isBlank_iff.mp hb '<' h) (by decide)

theorem calm_line {r : Row} {line rest : Text} (hline : Text.trim line = r.body) (h : Calm rest) :
    Calm (line ++ rest) := by
  obtain ⟨a, b, ha, hb, heq⟩ := Text.eq_append_trim line
  rw [heq, hline, List.append_assoc, List.append_assoc]
  exact calm_append (notMem_of_isBlank ha) (calm_body r (calm_append (notMem_of_isBlank hb) h))

/-- The tags that are found on a line, and behind it. -/
theorem tagsFrom_line {r : Row} {a b : Text} (ha : Text.isBlank a = true) (hb : Text.isBlank b = true)
    (offset : Nat) (rest : Text) : tagsFrom offset (a ++ r.body ++ b ++ rest) =
      r.tags (offset + Text.bytes a) ++
        tagsFrom (offset + Text.bytes (a ++ r.body ++ b)) rest := by
  rw [List.append_assoc, List.append_assoc, tagsFrom_append (notMem_of_isBlank ha), tagsFrom_body,
    tagsFrom_append (notMem_of_isBlank hb), Text.bytes_append, Text.bytes_append]
  simp only [Nat.add_assoc]

end Markup

end TemplateFormat
