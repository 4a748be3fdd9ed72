import TemplateFormat.Proofs.Markup.Overwrite
import TemplateFormat.Proofs.Markup.Ranked

/-!
# Offsets stay in bounds

The formatter counts bytes: it cuts the masked markup at the places of the lines of the markup,
takes the tags of a line by a cursor, and looks at what stands between two tags of a line. `Masks`
says that masking keeps every offset of the markup, and `Layout.InBounds` that every offset used on
a line is one of the text it is used on: the parts are cut between two characters, a tag starts on
its line, and the tags of a line come one after the other.

Results:
* `masks`: masking keeps bytes and line feeds in their places, and leaves UTF-8.
* `Layout.AtLines.inBounds`: one line.
* `Html.format_in_bounds`: every line of every markup.
-/

namespace TemplateFormat

open Text (utf8 Slice)

/-- What stands between two beginnings of a text. -/
theorem Text.slice_of_prefix {t x y : Text} (hx : x <+: t) (hy : y <+: t)
    (hle : Text.bytes x ≤ Text.bytes y) : Slice t (Text.bytes x) (Text.bytes y)
      (Text.takeBytes (Text.bytes y - Text.bytes x) (Text.dropBytes (Text.bytes x) t)) := by
  obtain ⟨a, rfl⟩ := hx
  obtain ⟨b, hb⟩ := hy
  obtain ⟨z, rfl, -⟩ := Text.exists_split_of_bytes_le hb.symm hle
  rw [List.append_assoc, List.append_cancel_left_eq] at hb
  refine ⟨x, b, ?_, rfl, ?_⟩
  · rw [Text.dropBytes_append, ← hb, Text.bytes_append, Nat.add_sub_cancel_left,
      Text.takeBytes_append]
  · rw [Text.dropBytes_append, ← hb, Text.bytes_append, Nat.add_sub_cancel_left,
      Text.takeBytes_append, Text.bytes_append]

namespace Markup

/-! ## Masking -/

/-- Masking keeps every place of the markup. -/
structure Masks (markup : Text) : Prop where
  /-- What is written over lies in the markup, and begins and ends between two characters. -/
  spans : ∀ span ∈ commentSpans 0 markup ++ bodySpans 0 markup,
    ∃ part, Slice markup span.index span.stop part
  /-- The bytes that are left are UTF-8, and are read as the masked markup. -/
  decodes : (maskBytes markup).toByteArray.utf8Decode? = some (mask markup).toArray
  /-- No byte is added or lost. -/
  length : (maskBytes markup).length = Text.bytes markup
  /-- Line feeds stay where they are, and there are no others. -/
  newlines : ∀ i : Nat, (maskBytes markup)[i]? = some 10 ↔ (utf8 markup)[i]? = some 10

/-- **Masking keeps every place of the markup.** -/
theorem masks (markup : Text) : Masks markup where
  spans span hspan := by
    rcases List.mem_append.mp hspan with hspan | hspan
    · exact (marks_commentSpans 0 markup).slice [] rfl span hspan
    · exact (marks_bodySpans 0 markup).slice [] rfl span hspan
  decodes := by
    rw [← utf8_mask]
    exact List.utf8Decode?_utf8Encode
  length := by rw [maskBytes, foldl_overwrite, List.length_mapIdx, Text.length_utf8]
  newlines i := by
    rw [maskBytes, foldl_overwrite, List.getElem?_mapIdx, Option.map_eq_some_iff]
    simp only [hideByte_eq_newline, exists_eq_right]

/-! ## One line -/

namespace Layout

/-- Every offset that the layout `s` uses on the line `raw`, which is `line` in the masked markup
`m`, is in bounds. -/
structure InBounds (m : Text) (s : Layout) (raw line : Text) : Prop where
  /-- The line of the masked markup stands where the line of the markup does. -/
  cut : Slice m s.offset (s.offset + Text.bytes raw) line
  /-- The tags of the line are some of the tags, next to each other. -/
  tags : ∃ earlier later, Markup.tags m = earlier ++ (s.here raw ++ later)
  /-- A tag of the line starts on the line. -/
  start : ∀ tag ∈ s.here raw, s.offset ≤ tag.start ∧ tag.start < s.offset + Text.bytes raw
  /-- It does not end before the line. -/
  stop : ∀ tag ∈ s.here raw, s.offset ≤ tag.stop
  /-- It starts behind the end of the tag before it, and what stands between them is looked at. -/
  between : ∀ earlier tag later, s.here raw = earlier ++ tag :: later → ∀ continued : Bool,
    let last := (LineTags.ofLine line s.offset earlier continued).stop
    let first := tag.start - s.offset
    last ≤ first ∧
      Slice line last first (Text.takeBytes (first - last) (Text.dropBytes last line))

variable {m : Text} {s : Layout} {l : Flagged} {ls : List Flagged}

/-- The tags that start on the line start on it in the masked markup. -/
theorem AtLines.exists_on (h : AtLines m (l :: ls) s) : ∃ pre tail,
    m = pre ++ (l.masked ++ tail) ∧ s.offset = Text.bytes pre ∧
      ∀ tag ∈ s.here l.text, tag.On pre l.masked tail := by
  obtain ⟨pre, tail, hm, hoffset, -⟩ := h.place
  refine ⟨pre, tail, hm, hoffset, fun tag htag => ?_⟩
  obtain ⟨hmem, hle⟩ := h.mem_tags (List.cons_ne_nil l ls) ((List.takeWhile_prefix _).subset htag)
  have hlt := List.mem_takeWhile_imp htag
  rw [decide_eq_true_eq] at hlt
  refine ⟨hm ▸ at_of_mem_tags hmem, hoffset ▸ hle, ?_⟩
  rwa [Text.bytes_append, l.bytes_masked, ← hoffset]

/-- The tags of a line, between those of the lines before it and those of the lines behind it. -/
theorem AtLines.exists_around (h : AtLines m (l :: ls) s) :
    ∃ earlier later, Markup.tags m = earlier ++ (s.here l.text ++ later) := by
  refine ⟨(Markup.tags m).takeWhile fun tag => tag.start < s.offset,
    s.tags.dropWhile fun tag => tag.start < s.offset + Text.bytes l.text, ?_⟩
  rw [here, List.takeWhile_append_dropWhile, (h (List.cons_ne_nil l ls)).cursor,
    List.takeWhile_append_dropWhile]

theorem stop_add (line : Text) (offset : Nat) (sum : LineTags) (tag : Tag) :
    (sum.add line offset tag).stop = min (tag.stop - offset) (Text.bytes line) := by
  unfold LineTags.add
  dsimp only
  split
  · rfl
  · split <;> rfl

/-- **Where the last of some tags of a line ends**: between two characters of the line, and not
behind the start of the next tag. -/
theorem stop_ofLine_le {pre line tail : Text} {earlier : List Tag} {tag : Tag}
    (hon : ∀ t ∈ earlier, t.On pre line tail) (hapart : ∀ t ∈ earlier, t.stop ≤ tag.start)
    (continued : Bool) : ∃ x, x <+: line ∧
      (LineTags.ofLine line (Text.bytes pre) earlier continued).stop = Text.bytes x ∧
        Text.bytes x ≤ tag.start - Text.bytes pre := by
  rcases List.eq_nil_or_concat earlier with rfl | ⟨init, prev, rfl⟩
  · exact ⟨[], List.nil_prefix, rfl, Nat.zero_le _⟩
  · rw [List.concat_eq_append] at hon hapart ⊢
    have hprev : prev ∈ init ++ [prev] := List.mem_append_right _ List.mem_cons_self
    have hlast : LineTags.ofLine line (Text.bytes pre) (init ++ [prev]) continued =
        (LineTags.ofLine line (Text.bytes pre) init continued).add line (Text.bytes pre) prev := by
      rw [LineTags.ofLine, List.foldl_append]
      rfl
    obtain ⟨x, hx, hstop⟩ := LineTags.within_add
      (s := LineTags.ofLine line (Text.bytes pre) init continued) (hon prev hprev)
    refine ⟨x, hx, hlast ▸ hstop, ?_⟩
    rw [← hstop, stop_add]
    have := hapart prev hprev
    omega

/-- **The offsets of a line are in bounds**, if the cursor is at the line. -/
theorem AtLines.inBounds (h : AtLines m (l :: ls) s) : s.InBounds m l.text l.masked := by
  obtain ⟨pre, tail, hm, hoffset, hon⟩ := h.exists_on
  obtain ⟨before, behind, htags⟩ := h.exists_around
  have hbytes : Text.bytes (pre ++ l.masked) = s.offset + Text.bytes l.text := by
    rw [Text.bytes_append, l.bytes_masked, hoffset]
  refine ⟨⟨pre, tail, hm, hoffset, hbytes.symm⟩, ⟨before, behind, htags⟩, fun tag htag => ?_,
    fun tag htag => ?_, fun earlier tag later hhere continued => ?_⟩
  · exact ⟨hoffset ▸ (hon tag htag).le_start, hbytes ▸ (hon tag htag).start_lt⟩
  · obtain ⟨a, x, b, -, hstart, hstop⟩ := (hon tag htag).at_text
    have hle := (hon tag htag).le_start
    rw [hstop, Text.bytes_append, ← hstart, hoffset]
    exact Nat.le_trans hle (Nat.le_add_right ..)
  · have hapart := apart_tagsFrom 0 m
    rw [show tagsFrom 0 m = _ from htags, hhere] at hapart
    have hbefore : ∀ t ∈ earlier, t.stop ≤ tag.start := by
      have hparts := (List.pairwise_append.mp (List.pairwise_append.mp hapart).2.1).1
      exact fun t ht => ((List.pairwise_append.mp hparts).2.2 t ht tag List.mem_cons_self).2
    rw [hhere] at hon
    obtain ⟨x, hx, hlast, hle⟩ := stop_ofLine_le
      (fun t ht => hon t (List.mem_append_left _ ht)) hbefore continued
    obtain ⟨y, hy, hfirst, -⟩ :=
      (hon tag (List.mem_append_right _ List.mem_cons_self)).exists_start
    rw [hfirst] at hle
    simp only [hoffset, hlast, hfirst]
    exact ⟨hle, Text.slice_of_prefix hx hy hle⟩

/-- The cursor is at the next line after any number of lines. -/
theorem atLines_addAll {ms : List Flagged} (h : AtLines m (ms ++ ls) s) :
    AtLines m ls (s.addAll ms) := by
  induction ms generalizing s with
  | nil => exact h
  | cons l ms ih => exact ih h.next

end Layout

/-! ## Every line -/

namespace Html

/-- Every line that the formatter goes through is in bounds. -/
def LinesInBounds (text : Text) : Prop :=
  ∀ before raw line after,
    (Text.lines text).zip (Text.lines (mask text)) = before ++ (raw, line) :: after →
      Layout.InBounds (mask text)
        (before.foldl (fun s l => s.addLine l.1 l.2) { tags := tags (mask text) }) raw line

theorem linesInBounds (text : Text) : LinesInBounds text := by
  intro before raw line after hsplit
  rw [zip_lines] at hsplit
  obtain ⟨ms, ls, hlines, rfl, htail⟩ := List.map_eq_append_iff.mp hsplit
  obtain ⟨l, ls, rfl, hl, -⟩ := List.map_eq_cons_iff.mp htail
  obtain ⟨rfl, rfl⟩ := Prod.mk.inj hl
  rw [List.foldl_map]
  have hat := atLines_start text
  rw [hlines] at hat
  exact (Layout.atLines_addAll hat).inBounds

/-- **The formatter stays in bounds**: masking the markup keeps its places, and a block body on one
line aside, every offset used on a line of the markup is one of the text it is used on. -/
theorem format_in_bounds (embedded : Bool) (markup : Text) :
    Masks markup ∧
      let text := Text.replace ['\r', '\n'] ['\n'] markup
      if embedded && !text.any (· == '\n') then format embedded markup = formatLine text
      else format embedded markup = formatLines text ∧ LinesInBounds text := by
  refine ⟨masks markup, ?_⟩
  simp only [format]
  split
  · rfl
  · exact ⟨rfl, linesInBounds _⟩

end Html

end Markup

end TemplateFormat
