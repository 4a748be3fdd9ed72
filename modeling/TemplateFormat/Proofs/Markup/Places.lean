import TemplateFormat.Proofs.Markup.Layout
import TemplateFormat.Proofs.Markup.Rows
import TemplateFormat.Proofs.Span
import TemplateFormat.Proofs.Text.Bytes

/-!
# Places in markup

The layout goes through the lines of the markup and of the masked markup side by side. Both are read
off one text with a flag for each character (`Flagged`), so what is known of a line of the one is
known of the same line of the other: they have the same number of bytes, and a character of the
masked line that is no space stands in the line of the markup.

A tag is a part of the masked markup that begins with an angle bracket and ends with one. The cursor
of the layout passes over the tags that begin before the line that is read (`Layout.Reads`), so a
line on which a tag begins is not blank.

Results:
* `zip_lines`: the lines of the markup with those of the masked markup.
* `at_of_mem_tags`: where a tag stands.
* `Layout.reads_addLine`: the cursor, from one line to the next.
* `Layout.not_blank_of_here`: a line on which a tag begins.
-/

namespace TemplateFormat

namespace Markup

/-! ## Flagged texts -/

/-- A text with a flag for each of its characters. -/
abbrev Flagged := List (Char × Bool)

namespace Flagged

/-- The text. -/
def text (f : Flagged) : Text := f.map Prod.fst

/-- The text with the flagged characters written over. -/
def masked (f : Flagged) : Text := f.flatMap fun p => maskChar p.1 p.2

/-- The lines of the text, with their flags. -/
def lines : Flagged → List Flagged
  | [] => [[]]
  | p :: f =>
    if p.1 = '\n' then [] :: lines f
    else
      match lines f with
      | [] => [[p]]
      | l :: ls => (p :: l) :: ls

theorem lines_ne_nil (f : Flagged) : lines f ≠ [] := by
  cases f with
  | nil => simp [lines]
  | cons p f =>
    unfold lines
    split
    · simp
    · split <;> simp

theorem lines_cons {p : Char × Bool} (hp : p.1 ≠ '\n') {f l : Flagged} {ls : List Flagged}
    (h : lines f = l :: ls) : lines (p :: f) = (p :: l) :: ls := by
  rw [lines, if_neg hp, h]

theorem lines_newline {p : Char × Bool} (hp : p.1 = '\n') (f : Flagged) :
    lines (p :: f) = [] :: lines f := by
  rw [lines, if_pos hp]

theorem text_lines (f : Flagged) : Text.lines (text f) = (lines f).map text := by
  induction f with
  | nil => rfl
  | cons p f ih =>
    by_cases hp : p.1 = '\n'
    · rw [lines_newline hp, List.map_cons, ← ih, text, List.map_cons, hp, Text.lines_newline]
      rfl
    · obtain ⟨l, ls, hl⟩ := List.exists_cons_of_ne_nil (lines_ne_nil f)
      rw [hl] at ih
      rw [lines_cons hp hl]
      exact Text.lines_cons hp ih

theorem maskChar_newline (flag : Bool) : maskChar '\n' flag = ['\n'] := by
  cases flag <;> rfl

theorem newline_notMem_maskChar {c : Char} (hc : c ≠ '\n') (flag : Bool) :
    '\n' ∉ maskChar c flag := by
  unfold maskChar
  split
  · exact fun h => absurd (List.eq_of_mem_replicate h) (by decide)
  · exact fun h => hc (List.mem_singleton.mp h).symm

theorem masked_lines (f : Flagged) : Text.lines (masked f) = (lines f).map masked := by
  induction f with
  | nil => rfl
  | cons p f ih =>
    obtain ⟨c, flag⟩ := p
    rw [masked, List.flatMap_cons]
    show Text.lines (maskChar c flag ++ masked f) = _
    by_cases hc : c = '\n'
    · rw [lines_newline hc, hc, maskChar_newline, List.map_cons, ← ih, List.singleton_append,
        Text.lines_newline]
      rfl
    · obtain ⟨l, ls, hl⟩ := List.exists_cons_of_ne_nil (lines_ne_nil f)
      rw [hl] at ih
      rw [lines_cons hc hl]
      have hprefix {s : Text} (hs : '\n' ∉ s) :
          Text.lines (s ++ masked f) = (s ++ masked l) :: ls.map masked := by
        induction s with
        | nil => exact ih
        | cons d s ih' =>
          rw [List.mem_cons, not_or] at hs
          exact Text.lines_cons (Ne.symm hs.1) (ih' hs.2)
      exact hprefix (newline_notMem_maskChar hc flag)

/-- **A masked text has as many bytes as the text.** -/
theorem bytes_masked (f : Flagged) : Text.bytes (masked f) = Text.bytes (text f) := by
  have hspaces (n : Nat) : Text.bytes (List.replicate n ' ') = n := by
    induction n with
    | zero => rfl
    | succ n ih =>
      have hspace : Char.utf8Size ' ' = 1 := by decide
      rw [List.replicate_succ, Text.bytes_cons, ih, hspace, Nat.add_comm]
  induction f with
  | nil => rfl
  | cons p f ih =>
    obtain ⟨c, flag⟩ := p
    rw [masked, List.flatMap_cons, Text.bytes_append]
    show Text.bytes (maskChar c flag) + Text.bytes (masked f) = c.utf8Size + Text.bytes (text f)
    rw [ih]
    congr 1
    unfold maskChar
    split
    · exact hspaces _
    · rfl

/-- **A character of a masked text** that is no space is a character of the text. -/
theorem mem_text_of_mem_masked {f : Flagged} {c : Char} (h : c ∈ masked f) (hc : c ≠ ' ') :
    c ∈ text f := by
  obtain ⟨p, hp, hmem⟩ := List.mem_flatMap.mp h
  unfold maskChar at hmem
  split at hmem
  · exact absurd (List.eq_of_mem_replicate hmem) hc
  · rw [List.mem_singleton.mp hmem]
    exact List.mem_map_of_mem hp

end Flagged

/-- The markup with a flag for each character that is written over. -/
def flagged (t : Text) : Flagged := t.zip (List.zipWith or (commentFlags t) (bodyFlags t))

theorem text_flagged (t : Text) : (flagged t).text = t := by
  refine List.map_fst_zip ?_
  rw [List.length_zipWith, length_commentFlags, length_bodyFlags, Nat.min_self]

theorem masked_flagged (t : Text) : (flagged t).masked = mask t := by
  rw [mask, Flagged.masked, List.flatMap, flagged, List.zip, List.map_zipWith]

/-- **The lines of the markup and of the masked markup**, side by side. -/
theorem zip_lines (t : Text) : (Text.lines t).zip (Text.lines (mask t)) =
    (flagged t).lines.map fun l => (l.text, l.masked) := by
  have htext := Flagged.text_lines (flagged t)
  have hmasked := Flagged.masked_lines (flagged t)
  rw [text_flagged] at htext
  rw [masked_flagged] at hmasked
  rw [htext, hmasked, List.zip_map']

/-! ## Where tags stand -/

/-- The tag begins and ends with an angle bracket of the text. -/
def Tag.At (m : Text) (tag : Tag) : Prop := ∃ a s b, m = a ++ ('<' :: s ++ '>' :: b) ∧
  tag.start = Text.bytes a ∧ tag.stop = Text.bytes (a ++ ('<' :: s ++ ['>']))

theorem exists_of_afterName {t rest : Text} (h : afterName t = some rest) :
    ∃ s, t = s ++ '>' :: rest := by
  unfold afterName at h
  split at h
  · exact ⟨[], by rw [Option.some.inj h]; rfl⟩
  · exact ⟨['/'], by rw [Option.some.inj h]; rfl⟩
  · rename_i c t _ _
    split at h
    · obtain ⟨attrs, rfl, hattrs⟩ := afterTag?_eq_some_iff.mp h
      obtain ⟨s, rfl⟩ := exists_of_afterTag?_eq hattrs
      exact ⟨c :: s, by simp⟩
    · exact absurd h (by simp)
  · exact absurd h (by simp)

theorem TagHead.exists_of_named {closing : Bool} {t : Text} {head : TagHead}
    (h : TagHead.at?.named closing t = some head) : ∃ s, t = s ++ '>' :: head.rest := by
  unfold TagHead.at?.named at h
  split at h
  · rename_i c t
    split at h
    · obtain ⟨rest, hr, rfl⟩ := Option.map_eq_some_iff.mp h
      obtain ⟨s, hs⟩ := exists_of_afterName hr
      refine ⟨c :: t.takeWhile isNameChar ++ s, ?_⟩
      rw [List.cons_append, List.cons_append, List.append_assoc, ← hs,
        List.takeWhile_append_dropWhile]
    · exact absurd h (by simp)
  · exact absurd h (by simp)

/-- **A tag at the start of a text**: angle brackets, and the rest of the text behind them. -/
theorem TagHead.exists_of_at? {t : Text} {head : TagHead} (h : TagHead.at? t = some head) :
    ∃ s, t = '<' :: s ++ '>' :: head.rest := by
  unfold TagHead.at? at h
  split at h
  · obtain ⟨s, hs⟩ := TagHead.exists_of_named h
    exact ⟨'/' :: s, by rw [hs]; rfl⟩
  · obtain ⟨s, hs⟩ := TagHead.exists_of_named h
    exact ⟨s, by rw [hs]; rfl⟩
  · exact absurd h (by simp)

theorem take_of_tagHead {s rest : Text} : ('<' :: s ++ '>' :: rest).take
    (('<' :: s ++ '>' :: rest).length - rest.length) = '<' :: s ++ ['>'] := by
  have hsplit : '<' :: s ++ '>' :: rest = ('<' :: s ++ ['>']) ++ rest := by simp
  rw [hsplit, List.length_append, Nat.add_sub_cancel, List.take_left]

theorem at_of_mem_tagsFrom {offset : Nat} {t : Text} {tag : Tag} (h : tag ∈ tagsFrom offset t)
    (pre : Text) (hoffset : offset = Text.bytes pre) : tag.At (pre ++ t) := by
  fun_induction tagsFrom offset t generalizing pre with
  | case1 => exact absurd h List.not_mem_nil
  | case2 offset c s hnone ih =>
    have := ih h (pre ++ [c]) (by rw [hoffset, Text.bytes_append]; rfl)
    rwa [List.append_assoc] at this
  | case3 offset c s head hhead whole stop opens ih =>
    obtain ⟨w, hw⟩ := TagHead.exists_of_at? hhead
    have hwhole : whole = '<' :: w ++ ['>'] := by
      show (c :: s).take ((c :: s).length - head.rest.length) = _
      rw [hw]
      exact take_of_tagHead
    have hstop : stop = Text.bytes (pre ++ ('<' :: w ++ ['>'])) := by
      show offset + Text.bytes whole = _
      rw [hoffset, hwhole, ← Text.bytes_append]
    rw [hw]
    rcases List.mem_cons.mp h with rfl | h
    · exact ⟨pre, w, head.rest, rfl, hoffset, hstop⟩
    · have := ih h _ hstop
      simpa using this

/-- **Where the tags of a text stand.** -/
theorem at_of_mem_tags {m : Text} {tag : Tag} (h : tag ∈ tags m) : tag.At m :=
  at_of_mem_tagsFrom h [] rfl

/-! ## The cursor -/

/-- What stands between the two ends of a line is a part of the line. -/
theorem mem_of_bytes_lt {pre line tail a b : Text} {c : Char}
    (h : pre ++ (line ++ tail) = a ++ c :: b) (hle : Text.bytes pre ≤ Text.bytes a)
    (hlt : Text.bytes a < Text.bytes (pre ++ line)) : c ∈ line := by
  obtain ⟨x, rfl, -⟩ := Text.exists_split_of_bytes_le h hle
  rw [List.append_assoc, List.append_cancel_left_eq] at h
  rw [Text.bytes_append, Text.bytes_append, Nat.add_lt_add_iff_left] at hlt
  obtain ⟨y, rfl, -⟩ := Text.exists_split_of_bytes_le h.symm (Nat.le_of_lt hlt)
  cases y with
  | nil =>
    rw [List.append_nil] at hlt
    exact absurd hlt (Nat.lt_irrefl _)
  | cons d y =>
    rw [List.append_assoc, List.append_cancel_left_eq, List.cons_append] at h
    obtain ⟨rfl, -⟩ := List.cons.inj h
    exact List.mem_append_right x List.mem_cons_self

section Lists

variable {α : Type} {p q : α → Bool}

theorem dropWhile_dropWhile_of_imp (h : ∀ x, p x = true → q x = true) (l : List α) :
    (l.dropWhile p).dropWhile q = l.dropWhile q := by
  induction l with
  | nil => rfl
  | cons x l ih =>
    by_cases hx : p x = true
    · rw [List.dropWhile_cons_of_pos hx, ih, List.dropWhile_cons_of_pos (h x hx)]
    · rw [List.dropWhile_cons_of_neg hx]

theorem dropWhile_congr {l : List α} (h : ∀ x ∈ l, p x = q x) : l.dropWhile p = l.dropWhile q := by
  induction l with
  | nil => rfl
  | cons x l ih =>
    rw [List.dropWhile_cons, List.dropWhile_cons, h x List.mem_cons_self,
      ih fun y hy => h y (List.mem_cons_of_mem x hy)]

theorem takeWhile_congr {l : List α} (h : ∀ x ∈ l, p x = q x) : l.takeWhile p = l.takeWhile q := by
  induction l with
  | nil => rfl
  | cons x l ih =>
    rw [List.takeWhile_cons, List.takeWhile_cons, h x List.mem_cons_self,
      ih fun y hy => h y (List.mem_cons_of_mem x hy)]

end Lists

namespace Layout

/-- The layout reads the rest of the masked markup `m`: its cursor is at the first tag that does not
begin before the rest. -/
structure Reads (m rest : Text) (s : Layout) : Prop where
  place : ∃ pre, m = pre ++ rest ∧ s.offset = Text.bytes pre
  cursor : s.tags = (Markup.tags m).dropWhile fun tag => tag.start < s.offset

/-- The tags that start on a line. -/
def here (s : Layout) (raw : Text) : List Tag :=
  s.tags.takeWhile fun tag => tag.start < s.offset + Text.bytes raw

theorem tags_addLine (s : Layout) (raw masked : Text) : (s.addLine raw masked).tags =
    s.tags.dropWhile fun tag => tag.start < s.offset + Text.bytes raw := by
  unfold addLine
  dsimp only
  split
  · unfold preformattedLine
    split <;> rfl
  · split <;> rfl

theorem offset_addLine (s : Layout) (raw masked : Text) :
    (s.addLine raw masked).offset = s.offset + Text.bytes raw + 1 := by
  unfold addLine
  dsimp only
  split
  · unfold preformattedLine
    split <;> rfl
  · split <;> rfl

variable {m rest : Text} {s : Layout}

/-- No tag begins at the line feed behind a line. -/
theorem Reads.start_ne {l : Flagged} (h : Reads m (l.masked ++ '\n' :: rest) s) {tag : Tag}
    (htag : tag ∈ Markup.tags m) : tag.start ≠ s.offset + Text.bytes l.text := by
  obtain ⟨pre, hm, hoffset⟩ := h.place
  obtain ⟨a, x, b, hx, hstart, -⟩ := at_of_mem_tags htag
  intro he
  rw [hoffset, ← l.bytes_masked, ← Text.bytes_append, hstart] at he
  have hlist : a ++ ('<' :: x ++ '>' :: b) = (pre ++ l.masked) ++ '\n' :: rest := by
    rw [← hx, hm, List.append_assoc]
  have hcut := Text.dropBytes_append a ('<' :: x ++ '>' :: b)
  rw [hlist, he, Text.dropBytes_append] at hcut
  exact absurd (List.cons.inj hcut).1 (by decide)

/-- **The cursor is at the next line after a line is read.** -/
theorem reads_addLine {l : Flagged} (h : Reads m (l.masked ++ '\n' :: rest) s) :
    Reads m rest (s.addLine l.text l.masked) := by
  obtain ⟨pre, hm, hoffset⟩ := h.place
  have hstop : s.offset + Text.bytes l.text = Text.bytes (pre ++ l.masked) := by
    rw [hoffset, ← l.bytes_masked, Text.bytes_append]
  have hnext : s.offset + Text.bytes l.text + 1 = Text.bytes (pre ++ (l.masked ++ ['\n'])) := by
    have hsize : Char.utf8Size '\n' = 1 := by decide
    rw [hstop, ← List.append_assoc, Text.bytes_append _ ['\n'], Text.bytes_cons, hsize]
    rfl
  refine ⟨⟨pre ++ (l.masked ++ ['\n']), by rw [hm]; simp, ?_⟩, ?_⟩
  · rw [offset_addLine, hnext]
  · have hsame (tag : Tag) (htag : tag ∈ Markup.tags m) :
        decide (tag.start < s.offset + Text.bytes l.text) =
          decide (tag.start < s.offset + Text.bytes l.text + 1) := by
      have hne := h.start_ne htag
      exact decide_eq_decide.mpr (by omega)
    rw [tags_addLine, offset_addLine, h.cursor, dropWhile_dropWhile_of_imp, dropWhile_congr hsame]
    intro tag htag
    simp only [decide_eq_true_eq] at htag ⊢
    omega

/-- **A line on which a tag begins is not blank.** -/
theorem not_blank_of_here {l : Flagged} (h : Reads m (l.masked ++ rest) s)
    (hhere : s.here l.text ≠ []) : Text.isBlank l.text = false := by
  obtain ⟨pre, hm, hoffset⟩ := h.place
  obtain ⟨tag, ts, hts⟩ := List.exists_cons_of_ne_nil hhere
  have hfirst : s.tags.head? = some tag := by
    have hprefix := List.takeWhile_prefix (l := s.tags) fun tag =>
      decide (tag.start < s.offset + Text.bytes l.text)
    obtain ⟨u, hu⟩ := hprefix
    rw [← hu]
    show (s.here l.text ++ u).head? = some tag
    rw [hts]
    rfl
  have hlt : tag.start < s.offset + Text.bytes l.text := by
    have hmem : tag ∈ s.here l.text := hts ▸ List.mem_cons_self
    simpa using List.mem_takeWhile_imp hmem
  have hle : s.offset ≤ tag.start := by
    have hhead :=
      List.head?_dropWhile_not (fun tag : Tag => decide (tag.start < s.offset)) (Markup.tags m)
    rw [← h.cursor, hfirst] at hhead
    simpa using hhead
  have hmem : tag ∈ Markup.tags m := by
    refine (List.dropWhile_suffix fun tag : Tag => decide (tag.start < s.offset)).subset ?_
    rw [← h.cursor]
    exact List.mem_of_mem_head? hfirst
  obtain ⟨a, x, b, hx, hstart, -⟩ := at_of_mem_tags hmem
  have hangle : '<' ∈ l.masked := by
    refine mem_of_bytes_lt (hm.symm.trans hx) (by omega) ?_
    rw [Text.bytes_append, l.bytes_masked]
    omega
  have htext := Flagged.mem_text_of_mem_masked hangle (by decide)
  refine Bool.eq_false_iff.mpr fun hblank => ?_
  exact absurd (Text.isBlank_iff.mp hblank '<' htext) (by decide)

end Layout

end Markup

end TemplateFormat
