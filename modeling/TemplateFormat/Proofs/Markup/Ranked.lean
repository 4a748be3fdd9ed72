import TemplateFormat.Proofs.Markup.Puts
import TemplateFormat.Proofs.Markup.Respaced

/-!
# Places counted without white space

The rank of an offset in a text is the number of bytes before it that are no white space. A tag
begins and ends with a character that is no white space, so it stands before or behind another place
in the text exactly if its rank does (`Tag.At.start_lt_iff`, `Tag.At.lt_stop_iff`), and the layout
may as well be computed from ranks: `Layout.addRow` takes a line without the white space at its ends
and the characters of the masked line that are no white space.

The tags of the markup and their ranks do not depend on how long the runs of white space are.

Results:
* `rankedTags_congr`: the tags of texts that differ in their white space.
* `LineTags.ranked_ofLine`: what the tags of a line do, in ranks.
* `Layout.AtLines.ranked_addLine`: a line, in ranks.
-/

namespace TemplateFormat

open Text (loose squeeze solid)

/-! ## Ranks -/

namespace Text

theorem takeBytes_append_add (s t : Text) (n : Nat) :
    takeBytes (bytes s + n) (s ++ t) = s ++ takeBytes n t := by
  induction s with
  | nil => rw [bytes_nil, Nat.zero_add, List.nil_append, List.nil_append]
  | cons c s ih =>
    have hsize : c.utf8Size ≤ c.utf8Size + bytes s + n := by omega
    have hrest : c.utf8Size + bytes s + n - c.utf8Size = bytes s + n := by omega
    rw [List.cons_append, bytes_cons, takeBytes, if_pos hsize, hrest, ih, List.cons_append]

theorem takeBytes_zero (t : Text) : takeBytes 0 t = [] := takeBytes_append [] t

theorem takeBytes_isPrefix {n k : Nat} (h : n ≤ k) (t : Text) :
    takeBytes n t <+: takeBytes k t := by
  induction t generalizing n k with
  | nil => exact List.nil_prefix
  | cons c t ih =>
    rw [takeBytes, takeBytes]
    by_cases hn : c.utf8Size ≤ n
    · rw [if_pos hn, if_pos (hn.trans h)]
      exact List.cons_prefix_cons.mpr ⟨rfl, ih (Nat.sub_le_sub_right h _)⟩
    · rw [if_neg hn]
      exact List.nil_prefix

/-- The number of bytes before an offset that are no white space. -/
def rank (t : Text) (n : Nat) : Nat := bytes (solid (takeBytes n t))

theorem rank_bytes (s t : Text) : rank (s ++ t) (bytes s) = bytes (solid s) := by
  rw [rank, takeBytes_append]

/-- The rank does not grow at white space. -/
theorem rank_bytes_add_one (s : Text) {t : Text} (ht : StartsBlank t) :
    rank (s ++ t) (bytes s + 1) = bytes (solid s) := by
  have hblank : isBlank (takeBytes 1 t) = true := by
    cases t with
    | nil => rfl
    | cons c t =>
      have hsize := c.utf8Size_pos
      rw [takeBytes]
      split
      · rw [Nat.sub_eq_zero_of_le hsize, takeBytes_zero]
        simp [ht c rfl]
      · rfl
  rw [rank, takeBytes_append_add, solid_append, solid_of_isBlank hblank, List.append_nil]

theorem rank_mono (t : Text) {n k : Nat} (h : n ≤ k) : rank t n ≤ rank t k := by
  obtain ⟨r, hr⟩ := takeBytes_isPrefix h t
  rw [rank, rank, ← hr, solid_append, bytes_append]
  exact Nat.le_add_right ..

/-- White space between two places does not count. -/
theorem isBlank_between {t x y : Text} (hx : x <+: t) (hy : y <+: t) :
    isBlank (takeBytes (bytes y - bytes x) (dropBytes (bytes x) t)) =
      isBlank (takeBytes (bytes (solid y) - bytes (solid x))
        (dropBytes (bytes (solid x)) (solid t))) := by
  obtain ⟨r, rfl⟩ := hx
  obtain ⟨q, hq⟩ := hy
  rw [solid_append, dropBytes_append, dropBytes_append]
  rcases Nat.le_total (bytes x) (bytes y) with h | h
  · obtain ⟨w, rfl, -⟩ := Text.exists_split_of_bytes_le hq.symm h
    rw [List.append_assoc, List.append_cancel_left_eq] at hq
    subst hq
    have hsub : bytes (x ++ w) - bytes x = bytes w := by
      rw [bytes_append, Nat.add_sub_cancel_left]
    have hsub' : bytes (solid (x ++ w)) - bytes (solid x) = bytes (solid w) := by
      rw [solid_append, bytes_append, Nat.add_sub_cancel_left]
    rw [hsub, hsub', takeBytes_append, solid_append, takeBytes_append]
    cases hw : isBlank w with
    | true => rw [solid_of_isBlank hw, isBlank_nil]
    | false =>
      symm
      rw [isBlank, List.all_eq_false] at hw ⊢
      obtain ⟨c, hc, hblank⟩ := hw
      exact ⟨c, List.mem_filter.mpr ⟨hc, by simpa using hblank⟩, hblank⟩
  · obtain ⟨w, rfl, -⟩ := Text.exists_split_of_bytes_le hq h
    have hsub' : bytes (solid y) - bytes (solid (y ++ w)) = 0 := by
      rw [solid_append, bytes_append]
      omega
    rw [Nat.sub_eq_zero_of_le h, hsub', takeBytes_zero, takeBytes_zero]

end Text

namespace Markup

open Text (rank)

/-! ## Tags -/

/-- The tag with its ranks for its offsets. -/
def Tag.ranked (m : Text) (tag : Tag) : Tag :=
  { tag with start := rank m tag.start, stop := rank m tag.stop }

section At

variable {m : Text} {tag : Tag}

/-- The rank grows at a character that is no white space. -/
theorem rank_lt_of_cons (a b : Text) {c : Char} (hc : isBlank c = false) :
    rank (a ++ c :: b) (Text.bytes a) < rank (a ++ c :: b) (Text.bytes (a ++ [c])) := by
  have hsplit : a ++ c :: b = (a ++ [c]) ++ b := by simp
  rw [Text.rank_bytes, hsplit, Text.rank_bytes, Text.solid_append, Text.solid_cons_of_not_blank hc,
    Text.bytes_append, Text.bytes_cons]
  have := c.utf8Size_pos
  omega

theorem bytes_append_angle (a : Text) {c : Char} (hc : c = '<' ∨ c = '>') :
    Text.bytes (a ++ [c]) = Text.bytes a + 1 := by
  rw [Text.bytes_append]
  rcases hc with rfl | rfl <;> rfl

/-- **A tag starts before a place** if its rank says so. -/
theorem Tag.At.start_lt_iff (h : tag.At m) (n : Nat) :
    tag.start < n ↔ rank m tag.start < rank m n := by
  obtain ⟨a, s, b, rfl, hstart, -⟩ := h
  have hlt := rank_lt_of_cons a (s ++ '>' :: b) (c := '<') (by decide)
  rw [bytes_append_angle a (.inl rfl), ← hstart] at hlt
  refine ⟨fun hn => Nat.lt_of_lt_of_le hlt (Text.rank_mono _ hn), fun hn => ?_⟩
  by_contra hle
  exact absurd (Text.rank_mono _ (Nat.le_of_not_lt hle)) (Nat.not_le_of_gt hn)

/-- **A tag ends behind a place** if its rank says so. -/
theorem Tag.At.lt_stop_iff (h : tag.At m) (n : Nat) :
    n < tag.stop ↔ rank m n < rank m tag.stop := by
  obtain ⟨a, s, b, rfl, -, hstop⟩ := h
  have hlt := rank_lt_of_cons (a ++ '<' :: s) b (c := '>') (by decide)
  have hsplit : (a ++ '<' :: s) ++ '>' :: b = a ++ ('<' :: s ++ '>' :: b) := by simp
  have hwhole : (a ++ '<' :: s) ++ ['>'] = a ++ ('<' :: s ++ ['>']) := by simp
  rw [hsplit, hwhole, ← hstop] at hlt
  have hsize := bytes_append_angle (a ++ '<' :: s) (c := '>') (.inr rfl)
  rw [hwhole, ← hstop] at hsize
  refine ⟨fun hn => Nat.lt_of_le_of_lt (Text.rank_mono _ (by omega)) hlt, fun hn => ?_⟩
  by_contra hle
  exact absurd (Text.rank_mono _ (Nat.le_of_not_lt hle)) (Nat.not_le_of_gt hn)

end At

/-! ## The tags of a loose text -/

theorem nameChars_loose (t : Text) : (loose t).takeWhile isNameChar = t.takeWhile isNameChar ∧
    (loose t).dropWhile isNameChar = loose (t.dropWhile isNameChar) := by
  have hspace : isNameChar ' ' = false := isNameChar_of_isBlank (by decide)
  induction t with
  | nil => simp [hspace]
  | cons c t ih =>
    by_cases hc : isNameChar c = true
    · have hsolid : isBlank c = false := by
        refine Bool.eq_false_iff.mpr fun hblank => ?_
        rw [isNameChar_of_isBlank hblank] at hc
        exact absurd hc (by decide)
      rw [Text.loose_cons_of_not_blank hsolid, List.takeWhile_cons_of_pos hc,
        List.takeWhile_cons_of_pos hc, List.dropWhile_cons_of_pos hc, List.dropWhile_cons_of_pos hc,
        ih.1, ih.2]
      exact ⟨rfl, rfl⟩
    · obtain ⟨d, s, hs, hd⟩ : ∃ d s, loose (c :: t) = d :: s ∧ ¬ isNameChar d = true := by
        cases hblank : isBlank c with
        | true =>
          obtain ⟨s, hs⟩ := Text.exists_loose_cons_of_blank hblank t
          exact ⟨' ', s, hs, by simp [hspace]⟩
        | false => exact ⟨c, loose t, Text.loose_cons_of_not_blank hblank t, hc⟩
      rw [List.takeWhile_cons_of_neg hc, List.dropWhile_cons_of_neg hc, hs,
        List.takeWhile_cons_of_neg hd, List.dropWhile_cons_of_neg hd]
      exact ⟨rfl, rfl⟩

theorem afterName_eq (t : Text) : afterName t = (Text.dropStart? ['>'] t).or
    ((Text.dropStart? ['/', '>'] t).or
      (if t.head?.any isBlank then afterTag? none t else none)) := by
  unfold afterName
  split
  · rfl
  · rfl
  · rename_i c t hbracket hslash
    have hfirst : Text.dropStart? ['>'] (c :: t) = none :=
      Option.eq_none_iff_forall_ne_some.mpr fun rest h =>
        hbracket (List.cons.inj (Text.dropStart?_eq_some.mp h)).1
    have hsecond : Text.dropStart? ['/', '>'] (c :: t) = none :=
      Option.eq_none_iff_forall_ne_some.mpr fun rest h =>
        hslash rest (List.cons.inj (Text.dropStart?_eq_some.mp h)).1
          (List.cons.inj (Text.dropStart?_eq_some.mp h)).2
    rw [hfirst, hsecond, Option.none_or, Option.none_or, List.head?_cons, Option.any_some]
    split
    · rename_i hc
      rw [afterTag?_cons_of_blank (by simp) hc]
    · rfl
  · rfl

theorem afterName_loose (t : Text) : afterName (loose t) = (afterName t).map loose := by
  have hattributes : (if (loose t).head?.any isBlank then afterTag? none (loose t) else none) =
      (if t.head?.any isBlank then afterTag? none t else none).map loose := by
    cases t with
    | nil => rfl
    | cons c t =>
      have hhead : (loose (c :: t)).head?.any isBlank = isBlank c := by
        cases hc : isBlank c with
        | true =>
          obtain ⟨s, hs⟩ := Text.exists_loose_cons_of_blank hc t
          rw [hs]
          rfl
        | false => rw [Text.loose_cons_of_not_blank hc, List.head?_cons, Option.any_some, hc]
      rw [hhead, List.head?_cons, Option.any_some, afterTag?_loose (by simp)]
      split <;> rfl
  rw [afterName_eq, afterName_eq, Text.dropStart?_loose (by decide),
    Text.dropStart?_loose (by decide), hattributes]
  cases Text.dropStart? ['>'] t with
  | some rest => rfl
  | none => cases Text.dropStart? ['/', '>'] t <;> rfl

namespace TagHead

theorem named_loose (closing : Bool) (t : Text) : at?.named closing (loose t) =
    (at?.named closing t).map fun head => { head with rest := loose head.rest } := by
  cases t with
  | nil => rfl
  | cons c t =>
    cases hc : isBlank c with
    | true =>
      obtain ⟨s, hs⟩ := Text.exists_loose_cons_of_blank hc t
      have halpha : ¬ c.isAlpha = true := fun halpha => by
        have hword := isWord_of_isAlpha halpha
        rw [isWord_of_isBlank hc] at hword
        exact absurd hword (by decide)
      rw [hs, at?.named, at?.named, if_neg halpha]
      rfl
    | false =>
      obtain ⟨htake, hdrop⟩ := nameChars_loose t
      rw [Text.loose_cons_of_not_blank hc, at?.named, at?.named]
      split
      · rw [htake, hdrop, afterName_loose]
        cases afterName (t.dropWhile isNameChar) <;> rfl
      · rfl

theorem at?_eq (t : Text) : at? t = (Text.dropStart? ['<'] t).bind fun s =>
    match Text.dropStart? ['/'] s with
    | some rest => at?.named true rest
    | none => at?.named false s := by
  unfold at?
  split
  · rfl
  · rename_i s hno
    show _ = match Text.dropStart? ['/'] s with
      | some rest => at?.named true rest
      | none => at?.named false s
    split
    · rename_i rest hrest
      rw [Text.dropStart?_eq_some] at hrest
      subst hrest
      cases rest with
      | nil => rfl
      | cons c rest => exact absurd rfl (hno c rest)
    · rfl
  · rename_i hno
    have hnone : Text.dropStart? ['<'] t = none :=
      Option.eq_none_iff_forall_ne_some.mpr fun s hs => hno s (Text.dropStart?_eq_some.mp hs)
    rw [hnone]
    rfl

/-- **The same tag is found in the loose text.** -/
theorem at?_loose (t : Text) : at? (loose t) =
    (at? t).map fun head => { head with rest := loose head.rest } := by
  rw [at?_eq, at?_eq, Text.dropStart?_loose (by decide)]
  cases Text.dropStart? ['<'] t with
  | none => rfl
  | some s =>
    rw [Option.map_some, Option.bind_some, Option.bind_some, Text.dropStart?_loose (by decide)]
    cases Text.dropStart? ['/'] s with
    | none => exact named_loose false s
    | some rest => exact named_loose true rest

end TagHead

theorem tagsFrom_of_at? {w rest name : Text} {closing : Bool}
    (h : TagHead.at? ('<' :: w ++ '>' :: rest) = some ⟨closing, name, rest⟩) (offset : Nat) :
    tagsFrom offset ('<' :: w ++ '>' :: rest) =
      ⟨offset, offset + Text.bytes ('<' :: w ++ ['>']), name, closing, !closing &&
        !Text.endsWith ['/', '>'] ('<' :: w ++ ['>']) && !voidElements.contains name⟩ ::
          tagsFrom (offset + Text.bytes ('<' :: w ++ ['>'])) rest := by
  have htake : ('<' :: (w ++ '>' :: rest)).take (('<' :: (w ++ '>' :: rest)).length - rest.length) =
      '<' :: w ++ ['>'] := take_of_tagHead
  rw [List.cons_append, tagsFrom]
  split
  · rename_i hnone
    exact absurd (hnone.symm.trans h) (by simp)
  · rename_i head hhead
    obtain rfl := Option.some.inj (hhead.symm.trans h)
    dsimp only
    rw [htake]

theorem append_tag (pre w rest : Text) :
    pre ++ ('<' :: w ++ '>' :: rest) = (pre ++ ('<' :: w ++ ['>'])) ++ rest := by
  simp

theorem squeeze_tag (w : Text) : squeeze ('<' :: w ++ ['>']) = '<' :: squeeze w ++ ['>'] := by
  rw [List.cons_append, Text.squeeze_cons_of_not_blank (by decide),
    Text.squeeze_append_cons (by decide), List.cons_append, Text.squeeze_nil]

theorem loose_tag (w rest : Text) :
    loose ('<' :: w ++ '>' :: rest) = '<' :: squeeze w ++ '>' :: loose rest := by
  have hlast : ∀ d ∈ ('<' :: w ++ ['>']).getLast?, isBlank d = false := by
    intro d hd
    rw [List.getLast?_append_of_ne_nil _ (by simp)] at hd
    obtain rfl := Option.some.inj hd
    decide
  have hsplit := append_tag [] w rest
  rw [List.nil_append, List.nil_append] at hsplit
  rw [hsplit, Text.loose_append_of_last _ hlast, squeeze_tag]
  simp

theorem endsWith_squeeze_tag (w : Text) : Text.endsWith ['/', '>'] ('<' :: squeeze w ++ ['>']) =
    Text.endsWith ['/', '>'] ('<' :: w ++ ['>']) := by
  rw [← squeeze_tag, Text.endsWith, Text.dropEnding?_squeeze (by decide), Option.isSome_map,
    Text.endsWith]

/-- The rank of the end of a tag. -/
theorem rank_tag (pre w rest : Text) :
    rank (pre ++ ('<' :: w ++ '>' :: rest)) (Text.bytes (pre ++ ('<' :: w ++ ['>']))) =
      Text.bytes (solid (pre ++ ('<' :: w ++ ['>']))) := by
  rw [append_tag, Text.rank_bytes]

/-- The ranks of the tags of a text that follows another one, and of the loose text. -/
theorem map_ranked_tagsFrom_loose {offset : Nat} {t : Text} (pre pre' : Text)
    (hoffset : offset = Text.bytes pre) (hpre : solid pre = solid pre') :
    (tagsFrom offset t).map (Tag.ranked (pre ++ t)) =
      (tagsFrom (Text.bytes pre') (loose t)).map (Tag.ranked (pre' ++ loose t)) := by
  fun_induction tagsFrom offset t generalizing pre pre' with
  | case1 =>
    rw [Text.loose_nil, tagsFrom_cons (by decide), tagsFrom]
    rfl
  | case2 offset c t hnone ih =>
    have hnext : offset + c.utf8Size = Text.bytes (pre ++ [c]) := by
      rw [hoffset, Text.bytes_append]
      rfl
    cases hc : isBlank c with
    | true =>
      have hsame : solid (pre ++ [c]) = solid pre' := by
        rw [Text.solid_append, Text.solid_of_isBlank (t := [c]) (by simp [hc]), List.append_nil,
          hpre]
      rcases Text.loose_cons_of_blank hc t with h | h <;> rw [h]
      · have := ih _ _ hnext hsame
        rwa [List.append_assoc] at this
      · have hspace : solid (pre ++ [c]) = solid (pre' ++ [' ']) := by
          rw [hsame, Text.solid_append, Text.solid_of_isBlank (t := [' ']) rfl, List.append_nil]
        have := ih _ _ hnext hspace
        rw [List.append_assoc, List.append_assoc, Text.bytes_append] at this
        rw [tagsFrom_cons (by decide)]
        exact this
    | false =>
      have hloose := TagHead.at?_loose (c :: t)
      rw [hnone, Option.map_none, Text.loose_cons_of_not_blank hc] at hloose
      have hsame : solid (pre ++ [c]) = solid (pre' ++ [c]) := by
        rw [Text.solid_append, hpre, Text.solid_append]
      have := ih _ _ hnext hsame
      rw [List.append_assoc, List.append_assoc, Text.bytes_append] at this
      rw [Text.loose_cons_of_not_blank hc, tagsFrom_of_none hloose]
      exact this
  | case3 offset c t head hhead whole stop =>
    rename_i opens ih
    obtain ⟨w, hw⟩ := TagHead.exists_of_at? hhead
    have hwhole : whole = '<' :: w ++ ['>'] := by
      show (c :: t).take ((c :: t).length - head.rest.length) = _
      rw [hw]
      exact take_of_tagHead
    have hstop : stop = Text.bytes (pre ++ ('<' :: w ++ ['>'])) := by
      show offset + Text.bytes whole = _
      rw [hoffset, hwhole, ← Text.bytes_append]
    have hsame : solid (pre ++ ('<' :: w ++ ['>'])) =
        solid (pre' ++ ('<' :: squeeze w ++ ['>'])) := by
      rw [Text.solid_append, hpre, ← squeeze_tag, Text.solid_append pre', Text.solid_squeeze]
    have hhead' := TagHead.at?_loose (c :: t)
    rw [hhead, Option.map_some, hw, loose_tag] at hhead'
    rw [hw, loose_tag, tagsFrom_of_at? hhead', List.map_cons, List.map_cons]
    congr 1
    · rw [Tag.ranked, Tag.ranked, Tag.mk.injEq]
      refine ⟨?_, ?_, rfl, rfl, ?_⟩
      · rw [hoffset, Text.rank_bytes, Text.rank_bytes, hpre]
      · rw [hstop, rank_tag, ← Text.bytes_append, rank_tag, hsame]
      · rw [endsWith_squeeze_tag, ← hwhole]
    · rw [append_tag pre, append_tag pre', ih _ _ hstop hsame, Text.bytes_append]

/-- The tags of a text, with their ranks for their offsets. -/
def rankedTags (m : Text) : List Tag := (tags m).map (Tag.ranked m)

/-- **The tags and their ranks are the same** in texts that differ in their white space. -/
theorem rankedTags_congr {m m' : Text} (h : Text.even m = Text.even m') :
    rankedTags m = rankedTags m' := by
  have heven (m : Text) : rankedTags m = rankedTags (Text.even m) := by
    rcases Text.even_eq_or m with h | h <;> rw [h]
    · exact map_ranked_tagsFrom_loose [] [] rfl rfl
    · have hspace : rankedTags (' ' :: loose m) =
          (tagsFrom (Text.bytes [' ']) (loose m)).map (Tag.ranked ([' '] ++ loose m)) := by
        rw [rankedTags, tags, tagsFrom_cons (by decide)]
        rfl
      rw [hspace]
      exact map_ranked_tagsFrom_loose [] [' '] rfl rfl
  rw [heven, h, ← heven]

/-! ## The tags of a line -/

/-- A tag ends before the tags behind it start. -/
theorem apart_tagsFrom (offset : Nat) (t : Text) :
    (tagsFrom offset t).Pairwise fun a b => a.start ≤ a.stop ∧ a.stop ≤ b.start := by
  fun_induction tagsFrom offset t with
  | case1 => exact .nil
  | case2 offset c t hnone ih => exact ih
  | case3 offset c t head hhead whole stop opens ih =>
    refine List.pairwise_cons.mpr ⟨fun tag htag => ?_, ih⟩
    exact ⟨Nat.le_add_right .., le_start_of_mem_tagsFrom htag⟩

theorem pairwise_tagsFrom (offset : Nat) (t : Text) :
    (tagsFrom offset t).Pairwise fun a b => a.start ≤ b.start :=
  (apart_tagsFrom offset t).imp fun h => Nat.le_trans h.1 h.2

theorem le_start_of_mem_dropWhile {n : Nat} {ts : List Tag}
    (hts : ts.Pairwise fun a b => a.start ≤ b.start) {tag : Tag}
    (h : tag ∈ ts.dropWhile fun tag => tag.start < n) : n ≤ tag.start := by
  induction ts with
  | nil => exact absurd h List.not_mem_nil
  | cons first ts ih =>
    obtain ⟨hfirst, hts⟩ := List.pairwise_cons.mp hts
    by_cases hlt : first.start < n
    · rw [List.dropWhile_cons_of_pos (by simpa using hlt)] at h
      exact ih hts h
    · rw [List.dropWhile_cons_of_neg (by simpa using hlt)] at h
      rcases List.mem_cons.mp h with rfl | h
      · exact Nat.le_of_not_lt hlt
      · exact Nat.le_trans (Nat.le_of_not_lt hlt) (hfirst tag h)

/-- The tag starts on the line `line` of a text. -/
structure Tag.On (pre line tail : Text) (tag : Tag) : Prop where
  at_text : tag.At (pre ++ (line ++ tail))
  le_start : Text.bytes pre ≤ tag.start
  start_lt : tag.start < Text.bytes (pre ++ line)

section Line

variable {pre line tail : Text} {tag : Tag}

/-- Where in its line a tag starts. -/
theorem Tag.On.exists_start (h : tag.On pre line tail) : ∃ x, x <+: line ∧
    tag.start - Text.bytes pre = Text.bytes x ∧
      rank (pre ++ (line ++ tail)) tag.start - Text.bytes (solid pre) = Text.bytes (solid x) := by
  obtain ⟨a, s, b, hm, hstart, -⟩ := h.at_text
  have hle := h.le_start
  have hlt := h.start_lt
  rw [hstart] at hle hlt
  obtain ⟨x, rfl, -⟩ := Text.exists_split_of_bytes_le hm hle
  have hrank := Text.rank_bytes (pre ++ x) ('<' :: s ++ '>' :: b)
  rw [← hm, ← hstart, Text.solid_append, Text.bytes_append] at hrank
  rw [List.append_assoc, List.append_cancel_left_eq] at hm
  rw [Text.bytes_append, Text.bytes_append, Nat.add_lt_add_iff_left] at hlt
  obtain ⟨y, rfl, -⟩ := Text.exists_split_of_bytes_le hm.symm (Nat.le_of_lt hlt)
  refine ⟨x, List.prefix_append x y, ?_, ?_⟩
  · rw [hstart, Text.bytes_append, Nat.add_sub_cancel_left]
  · rw [hrank, Nat.add_sub_cancel_left]

/-- Where in its line a tag ends, if it ends there. -/
theorem Tag.On.exists_stop (h : tag.On pre line tail) : ∃ x, x <+: line ∧
    min (tag.stop - Text.bytes pre) (Text.bytes line) = Text.bytes x ∧
      min (rank (pre ++ (line ++ tail)) tag.stop - Text.bytes (solid pre))
        (Text.bytes (solid line)) = Text.bytes (solid x) := by
  obtain ⟨a, s, b, hm, hstart, hstop⟩ := h.at_text
  have hle := h.le_start
  rw [append_tag] at hm
  obtain ⟨x, hx, -⟩ := Text.exists_split_of_bytes_le hm (by rw [Text.bytes_append]; omega)
  have hrank := Text.rank_bytes (pre ++ x) b
  rw [hx] at hm hstop
  rw [← hm, ← hstop, Text.solid_append, Text.bytes_append] at hrank
  rw [List.append_assoc, List.append_cancel_left_eq] at hm
  rw [hrank, hstop, Text.bytes_append, Nat.add_sub_cancel_left, Nat.add_sub_cancel_left]
  rcases Nat.le_total (Text.bytes x) (Text.bytes line) with hxl | hxl
  · obtain ⟨y, rfl, -⟩ := Text.exists_split_of_bytes_le hm.symm hxl
    refine ⟨x, List.prefix_append x y, Nat.min_eq_left hxl, Nat.min_eq_left ?_⟩
    rw [Text.solid_append, Text.bytes_append]
    exact Nat.le_add_right ..
  · obtain ⟨y, rfl, -⟩ := Text.exists_split_of_bytes_le hm hxl
    refine ⟨line, List.prefix_rfl, Nat.min_eq_right hxl, Nat.min_eq_right ?_⟩
    rw [Text.solid_append, Text.bytes_append]
    exact Nat.le_add_right ..

namespace LineTags

/-- What the tags of a line do, with its rank for the place behind the last tag. -/
def ranked (line : Text) (s : LineTags) : LineTags := { s with stop := rank line s.stop }

/-- The last tag ends between two characters of the line. -/
def Within (line : Text) (s : LineTags) : Prop := ∃ x, x <+: line ∧ s.stop = Text.bytes x

theorem within_add {s : LineTags} (htag : tag.On pre line tail) :
    Within line (add line (Text.bytes pre) s tag) := by
  obtain ⟨x, hx, hstop, -⟩ := htag.exists_stop
  refine ⟨x, hx, ?_⟩
  rw [← hstop, add]
  split
  · rfl
  · split <;> rfl

/-- **One tag of a line, in ranks.** -/
theorem ranked_add {s : LineTags} (hs : s.Within line) (htag : tag.On pre line tail) :
    (add line (Text.bytes pre) s tag).ranked line = add (solid line) (Text.bytes (solid pre))
      (s.ranked line) (tag.ranked (pre ++ (line ++ tail))) := by
  obtain ⟨z, hz, hlast⟩ := hs
  obtain ⟨x, hx, hstart, hstart'⟩ := htag.exists_start
  obtain ⟨y, hy, hstop, hstop'⟩ := htag.exists_stop
  have hrank {w : Text} (hw : w <+: line) : rank line (Text.bytes w) = Text.bytes (solid w) := by
    obtain ⟨r, rfl⟩ := hw
    exact Text.rank_bytes w r
  have hbetween := Text.isBlank_between hz hx
  unfold add
  simp only [ranked, Tag.ranked, hstart, hstart', hlast, hrank hz, hbetween, hstop, hstop']
  by_cases hclosing : tag.closing = true
  · simp [hclosing, hrank hy]
  · by_cases hopens : tag.opens = true <;> simp [hclosing, hopens, hrank hy]

/-- **The tags of a line, in ranks**, by induction on the tags. -/
theorem ranked_foldl_add {ts : List Tag} (hts : ∀ tag ∈ ts, tag.On pre line tail) {s : LineTags}
    (hs : s.Within line) : (ts.foldl (add line (Text.bytes pre)) s).ranked line =
      (ts.map (Tag.ranked (pre ++ (line ++ tail)))).foldl
        (add (solid line) (Text.bytes (solid pre))) (s.ranked line) := by
  induction ts generalizing s with
  | nil => rfl
  | cons tag ts ih =>
    obtain ⟨htag, hts⟩ := List.forall_mem_cons.mp hts
    rw [List.foldl_cons, List.map_cons, List.foldl_cons, ← ranked_add hs htag]
    exact ih hts (within_add htag)

theorem ranked_ofLine {ts : List Tag} (hts : ∀ tag ∈ ts, tag.On pre line tail) (continued : Bool) :
    (ofLine line (Text.bytes pre) ts continued).ranked line =
      ofLine (solid line) (Text.bytes (solid pre))
        (ts.map (Tag.ranked (pre ++ (line ++ tail)))) continued := by
  have hnone : ({ leading := !continued } : LineTags).Within line := ⟨[], List.nil_prefix, rfl⟩
  have hzero : rank line 0 = 0 := by rw [rank, Text.takeBytes_zero]; rfl
  rw [ofLine, ranked_foldl_add hts hnone, ranked, hzero, ofLine]

end LineTags

end Line

/-! ## A line -/

namespace Layout

/-- The layout, with ranks for offsets. -/
def ranked (m : Text) (s : Layout) : Layout :=
  { s with
    tags := s.tags.map (Tag.ranked m)
    offset := rank m s.offset
    spanning := s.spanning.map fun x => { x with stop := rank m x.stop } }

/-- The tag that goes on is a tag of the text. -/
def Spans (m : Text) (s : Layout) : Prop :=
  ∀ x ∈ s.spanning, ∃ tag : Tag, tag.At m ∧ x.stop = tag.stop

/-- The layout of one line that is no part of a preformatted element, in ranks: `line` is the line
without the white space at its ends, `inked` are the characters of the masked line that are no white
space. -/
def addRow (s : Layout) (line inked : Text) : Layout :=
  let start := s.offset
  let stop := start + Text.bytes inked
  let here := s.tags.takeWhile fun tag => tag.start < stop
  let s := { s with tags := s.tags.dropWhile fun tag => tag.start < stop, offset := stop }
  if line.isEmpty then { s with pendingBlank := !s.parts.isEmpty }
  else s.markupLine line inked start stop here

variable {m pre masked tail : Text} {s : Layout} {here : List Tag}

theorem spans_markupLine (hs : s.Spans m) (hhere : ∀ tag ∈ here, tag.At m) (line masked : Text)
    (start stop : Nat) :
    (s.markupLine line masked start stop here).Spans m := by
  have hgoes :
      ∀ x ∈ (s.spanning.filter fun tag => start < tag.stop).filter fun tag => stop < tag.stop,
        ∃ tag : Tag, tag.At m ∧ x.stop = tag.stop := by
    intro x hx
    exact hs x (Option.filter_eq_some_iff.mp (Option.filter_eq_some_iff.mp hx).1).1
  intro x hx
  unfold markupLine at hx
  dsimp only at hx
  split at hx
  · rename_i tag htag
    split at hx
    · obtain rfl := Option.some.inj hx
      exact ⟨tag, hhere tag (List.mem_of_getLast? htag), rfl⟩
    · exact hgoes x hx
  · exact hgoes x hx

/-- Whether the tag that goes on ends behind a place, in ranks. -/
theorem filter_ranked (spanning : Option Spanning)
    (h : ∀ x ∈ spanning, ∃ tag : Tag, tag.At m ∧ x.stop = tag.stop) (n : Nat) :
    (spanning.map fun x => { x with stop := rank m x.stop }).filter (fun x => rank m n < x.stop) =
      (spanning.filter fun x => n < x.stop).map fun x => { x with stop := rank m x.stop } := by
  cases spanning with
  | none => rfl
  | some x =>
    obtain ⟨tag, htag, hstop⟩ := h x rfl
    have hsame : decide (n < x.stop) = decide (rank m n < rank m x.stop) := by
      rw [hstop]
      exact decide_eq_decide.mpr (htag.lt_stop_iff n)
    rw [Option.map_some, Option.filter_some, Option.filter_some, hsame]
    split <;> rfl

/-- **A line of markup, in ranks.** -/
theorem ranked_markupLine (hs : s.Spans (pre ++ (masked ++ tail)))
    (hhere : ∀ tag ∈ here, tag.On pre masked tail) (line : Text) (stop : Nat) :
    (s.markupLine line masked (Text.bytes pre) stop here).ranked (pre ++ (masked ++ tail)) =
      (s.ranked (pre ++ (masked ++ tail))).markupLine line (solid masked) (Text.bytes (solid pre))
        (rank (pre ++ (masked ++ tail)) stop)
          (here.map (Tag.ranked (pre ++ (masked ++ tail)))) := by
  have hcont := filter_ranked s.spanning hs (Text.bytes pre)
  rw [Text.rank_bytes] at hcont
  have hgoes := filter_ranked (s.spanning.filter fun x => Text.bytes pre < x.stop)
    (fun x hx => hs x (Option.filter_eq_some_iff.mp hx).1) stop
  have hsummary :=
    LineTags.ranked_ofLine hhere (s.spanning.filter fun x => Text.bytes pre < x.stop).isSome
  have hlast : ∀ tag ∈ here.getLast?, stop < tag.stop ↔
      rank (pre ++ (masked ++ tail)) stop < rank (pre ++ (masked ++ tail)) tag.stop :=
    fun tag htag => (hhere tag (List.mem_of_getLast? htag)).at_text.lt_stop_iff stop
  unfold markupLine
  simp only [ranked, hcont, Option.isSome_map, ← hsummary, hgoes, List.getLast?_map]
  generalize s.spanning.filter (fun x => Text.bytes pre < x.stop) = continuation
  generalize LineTags.ofLine masked (Text.bytes pre) here continuation.isSome = summary
  cases hget : here.getLast? with
  | none => cases continuation <;> rfl
  | some tag =>
    simp only [Option.map_some, Tag.ranked, ← hlast tag hget]
    by_cases hstop : stop < tag.stop
    · rw [if_pos hstop, if_pos hstop]
      cases continuation <;> rfl
    · rw [if_neg hstop, if_neg hstop]
      cases continuation <;> rfl

/-- Where the line stands that is read next. -/
theorem AtLines.place {l : Flagged} {ls : List Flagged} (h : AtLines m (l :: ls) s) : ∃ pre tail,
    m = pre ++ (l.masked ++ tail) ∧ s.offset = Text.bytes pre ∧ Text.StartsBlank tail := by
  obtain ⟨pre, hm, hoffset⟩ := (h (List.cons_ne_nil l ls)).place
  rw [List.map_cons, Text.unlines_cons_eq] at hm
  refine ⟨pre, _, hm, hoffset, ?_⟩
  cases ls with
  | nil => exact Text.startsBlank_of_isBlank rfl
  | cons l' ls => exact Text.startsBlank_cons (by decide) _

theorem AtLines.mem_tags {ls : List Flagged} (h : AtLines m ls s) (hne : ls ≠ []) {tag : Tag}
    (htag : tag ∈ s.tags) : tag ∈ Markup.tags m ∧ s.offset ≤ tag.start := by
  rw [(h hne).cursor] at htag
  exact ⟨(List.dropWhile_suffix _).subset htag,
    le_start_of_mem_dropWhile (pairwise_tagsFrom 0 m) htag⟩

/-- **A line, in ranks.** -/
theorem AtLines.ranked_addLine {l : Flagged} {ls : List Flagged} (h : AtLines m (l :: ls) s)
    (hs : s.Spans m) (hpre : s.preformatted = none) :
    (s.addLine l.text l.masked).ranked m =
      (s.ranked m).addRow (Text.trim l.text) (solid l.masked) := by
  have htags {tag : Tag} (htag : tag ∈ s.tags) := h.mem_tags (List.cons_ne_nil l ls) htag
  obtain ⟨pre, tail, hm, hoffset, htail⟩ := h.place
  have hstop : Text.bytes pre + Text.bytes l.text = Text.bytes (pre ++ l.masked) := by
    rw [Text.bytes_append, l.bytes_masked]
  have hoffset' : rank m (Text.bytes pre) = Text.bytes (solid pre) := by rw [hm, Text.rank_bytes]
  have hrank : rank m (Text.bytes (pre ++ l.masked)) =
      Text.bytes (solid pre) + Text.bytes (solid l.masked) := by
    rw [hm, ← List.append_assoc, Text.rank_bytes, Text.solid_append, Text.bytes_append]
  have hnext : rank m (Text.bytes (pre ++ l.masked) + 1) =
      Text.bytes (solid pre) + Text.bytes (solid l.masked) := by
    rw [hm, ← List.append_assoc, Text.rank_bytes_add_one _ htail, Text.solid_append,
      Text.bytes_append]
  have hlt : ∀ tag ∈ s.tags, decide (tag.start < Text.bytes (pre ++ l.masked)) =
      decide ((tag.ranked m).start < Text.bytes (solid pre) + Text.bytes (solid l.masked)) := by
    intro tag htag
    rw [← hrank]
    exact decide_eq_decide.mpr ((at_of_mem_tags (htags htag).1).start_lt_iff _)
  have htake : (s.tags.map (Tag.ranked m)).takeWhile (fun tag =>
        tag.start < Text.bytes (solid pre) + Text.bytes (solid l.masked)) =
      (s.tags.takeWhile fun tag =>
        tag.start < Text.bytes (pre ++ l.masked)).map (Tag.ranked m) := by
    rw [List.takeWhile_map, takeWhile_congr hlt]
    rfl
  have hdrop : (s.tags.map (Tag.ranked m)).dropWhile (fun tag =>
        tag.start < Text.bytes (solid pre) + Text.bytes (solid l.masked)) =
      (s.tags.dropWhile fun tag =>
        tag.start < Text.bytes (pre ++ l.masked)).map (Tag.ranked m) := by
    rw [List.dropWhile_map, dropWhile_congr hlt]
    rfl
  unfold addLine addRow
  simp only [hpre, hoffset, hstop]
  by_cases hline : (Text.trim l.text).isEmpty = true
  · simp only [hline, if_true, ranked, hpre, hoffset, hoffset', hdrop, hnext]
  · rw [if_neg hline, if_neg hline]
    have hon : ∀ tag ∈ s.tags.takeWhile (fun tag => tag.start < Text.bytes (pre ++ l.masked)),
        tag.On pre l.masked tail := by
      intro tag htag
      obtain ⟨hmem, hle⟩ := htags ((List.takeWhile_prefix _).subset htag)
      have hlt := List.mem_takeWhile_imp htag
      exact ⟨hm ▸ at_of_mem_tags hmem, hoffset ▸ hle, by simpa using hlt⟩
    have hmarkup := ranked_markupLine (s := { s with
          tags := s.tags.dropWhile fun tag => tag.start < Text.bytes (pre ++ l.masked)
          offset := Text.bytes (pre ++ l.masked) + 1 })
      (hm ▸ hs) hon (Text.trim l.text) (Text.bytes (pre ++ l.masked))
    rw [← hm, hrank] at hmarkup
    refine Eq.trans hmarkup ?_
    simp only [ranked, hpre, hoffset, hoffset', htake, hdrop, hnext]

end Layout

end Markup

end TemplateFormat
