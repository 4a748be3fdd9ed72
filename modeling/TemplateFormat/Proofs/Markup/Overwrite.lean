import TemplateFormat.Proofs.Markup.Respaced
import TemplateFormat.Proofs.Text.Bytes

/-!
# Masking byte by byte

`mask` writes over characters. The same can be done to the bytes of the markup: find where the
comments and the bodies of script and style elements are, in bytes, and write spaces over the bytes
there, line feeds apart. The spans of bytes may overlap, but each begins and ends between two
characters, so what is written over is whole characters, and what comes out is UTF-8 again.

`Marks` relates the flags for the characters of a text to the spans of its bytes: the text is cut
into parts that are flagged, each with its span, and parts that are not.

Results:
* `marks_commentSpans`, `marks_bodySpans`: where the comments and the bodies are, in bytes.
* `Marks.slice`: every span lies in the markup and begins and ends between two characters.
* `utf8_mask`: the bytes that are left are the bytes of the masked markup.
-/

namespace TemplateFormat

/-- The span covers a byte. -/
def Span.has (span : Span) (i : Nat) : Bool := span.index ≤ i && i < span.stop

namespace Markup

open Text (utf8 Slice)

/-! ## Bytes that are written over -/

/-- A byte, or a space over it. Line feeds stay. -/
def hideByte (b : UInt8) (hidden : Bool) : UInt8 := if hidden && b != 10 then 32 else b

/-- Writes spaces over the bytes of a span. -/
def overwrite (bs : List UInt8) (span : Span) : List UInt8 :=
  bs.mapIdx fun i b => hideByte b (span.has i)

/-- One of the spans covers a byte. -/
def covers (spans : List Span) (i : Nat) : Bool := spans.any fun span => span.has i

theorem hideByte_eq_newline {b : UInt8} {hidden : Bool} : hideByte b hidden = 10 ↔ b = 10 := by
  unfold hideByte
  split
  · rename_i h
    rw [Bool.and_eq_true, bne_iff_ne] at h
    exact iff_of_false (by decide) h.2
  · rfl

theorem hideByte_hideByte (b : UInt8) (x y : Bool) :
    hideByte (hideByte b x) y = hideByte b (x || y) := by
  cases x <;> cases y <;> by_cases hb : b = 10 <;> simp [hideByte, hb]

/-- **Spans are written over one after the other.** -/
theorem foldl_overwrite (spans : List Span) (bs : List UInt8) :
    spans.foldl overwrite bs = bs.mapIdx fun i b => hideByte b (covers spans i) := by
  induction spans generalizing bs with
  | nil => exact (List.mapIdx_eq_iff.mpr fun i => by simp [covers, hideByte]).symm
  | cons span spans ih =>
    rw [List.foldl_cons, ih, overwrite, List.mapIdx_mapIdx]
    congr 1
    funext i b
    exact hideByte_hideByte ..

/-- The flags of the characters, for each of their bytes. -/
def spread : Text → List Bool → List Bool
  | c :: t, flag :: flags => List.replicate c.utf8Size flag ++ spread t flags
  | _, _ => []

theorem spread_append (v : Text) (gs : List Bool) : ∀ {u : Text} {fs : List Bool},
    u.length = fs.length → spread (u ++ v) (fs ++ gs) = spread u fs ++ spread v gs
  | [], [], _ => rfl
  | c :: u, flag :: fs, h => by
    rw [List.cons_append, List.cons_append, spread, spread, spread_append v gs (Nat.succ.inj h),
      List.append_assoc]

theorem spread_replicate (u : Text) (flag : Bool) :
    spread u (List.replicate u.length flag) = List.replicate (Text.bytes u) flag := by
  induction u with
  | nil => rfl
  | cons c u ih =>
    rw [List.length_cons, List.replicate_succ, spread, ih, Text.bytes_cons,
      List.replicate_append_replicate]

theorem spread_or : ∀ {t : Text} {fs gs : List Bool}, t.length = fs.length → t.length = gs.length →
    spread t (List.zipWith or fs gs) = List.zipWith or (spread t fs) (spread t gs)
  | [], [], [], _, _ => rfl
  | c :: t, f :: fs, g :: gs, hf, hg => by
    rw [List.zipWith_cons_cons, spread, spread, spread,
      spread_or (Nat.succ.inj hf) (Nat.succ.inj hg), List.zipWith_append (by simp),
      List.zipWith_replicate, Nat.min_self]

theorem zipWith_hideByte (bs : List UInt8) (hidden : Bool) :
    List.zipWith hideByte bs (List.replicate bs.length hidden) =
      bs.map fun b => hideByte b hidden := by
  induction bs with
  | nil => rfl
  | cons b bs ih =>
    rw [List.length_cons, List.replicate_succ, List.zipWith_cons_cons, ih, List.map_cons]

theorem utf8_spaces (n : Nat) : utf8 (List.replicate n ' ') = List.replicate n 32 := by
  induction n with
  | zero => rfl
  | succ n ih =>
    rw [List.replicate_succ, Text.utf8_cons, ih]
    rfl

/-- The bytes of a character that is written over. -/
theorem utf8_maskChar (c : Char) (hidden : Bool) : utf8 (maskChar c hidden) =
    List.zipWith hideByte (String.utf8EncodeChar c) (List.replicate c.utf8Size hidden) := by
  have hsize := String.length_utf8EncodeChar c
  have hsingle : utf8 [c] = String.utf8EncodeChar c := List.flatMap_singleton ..
  rw [← hsize, zipWith_hideByte]
  cases hidden with
  | false => simp [maskChar, hideByte, hsingle]
  | true =>
    by_cases hc : c = '\n'
    · rw [hc]
      rfl
    · have hbytes : ∀ b ∈ String.utf8EncodeChar c, hideByte b true = 32 := by
        intro b hb
        have hne : b ≠ 10 := fun h => Text.newline_notMem_utf8EncodeChar hc (h ▸ hb)
        simp [hideByte, hne]
      rw [maskChar, if_pos (by simp [hc]), utf8_spaces, List.map_congr_left hbytes,
        List.map_const', hsize]

/-- **The bytes of a text that is written over** are the bytes of the text, written over. -/
theorem utf8_zipWith_maskChar : ∀ {t : Text} {flags : List Bool}, t.length = flags.length →
    utf8 (List.zipWith maskChar t flags).flatten = List.zipWith hideByte (utf8 t) (spread t flags)
  | [], [], _ => rfl
  | c :: t, flag :: flags, h => by
    rw [List.zipWith_cons_cons, List.flatten_cons, Text.utf8_append, Text.utf8_cons, spread,
      utf8_maskChar, utf8_zipWith_maskChar (Nat.succ.inj h), List.zipWith_append (by simp)]

/-! ## Where markup is written over -/

/-- The comments of `t`, which starts at byte `offset`. -/
def commentSpans (offset : Nat) (t : Text) : List Span :=
  match _h : Text.cut? commentOpening t with
  | none => []
  | some (before, inside) =>
    match _h' : Text.cut? commentClosing inside with
    | none => []
    | some (body, rest) =>
      let comment : Span :=
        ⟨offset + Text.bytes before, Text.bytes (commentOpening ++ body ++ commentClosing)⟩
      comment :: commentSpans comment.stop rest
termination_by t.length
decreasing_by
  have h1 := Text.length_lt_of_cut? _h (by decide)
  have h2 := Text.length_lt_of_cut? _h' (by decide)
  omega

/-- The bodies of the script and style elements of `t`, which starts at byte `offset`. -/
def bodySpans (offset : Nat) (t : Text) : List Span :=
  match t with
  | [] => []
  | c :: s =>
    match _h : RawElement.at? (c :: s) with
    | none => bodySpans (offset + c.utf8Size) s
    | some e =>
      let opening := (c :: s).take e.opening
      let body := ((c :: s).drop e.opening).take e.body
      let element := (c :: s).take ((c :: s).length - e.rest.length)
      ⟨offset + Text.bytes opening, Text.bytes body⟩ ::
        bodySpans (offset + Text.bytes element) e.rest
termination_by t.length
decreasing_by
  · exact Nat.lt_succ_self _
  · exact RawElement.length_lt_of_at? _h

/-- The bytes of the markup, with spaces over the comments and then over the bodies. -/
def maskBytes (t : Text) : List UInt8 :=
  (commentSpans 0 t ++ bodySpans 0 t).foldl overwrite (utf8 t)

/-- The flagged parts of a text that starts at byte `offset` are those of the spans. -/
inductive Marks : Nat → Text → List Bool → List Span → Prop
  | nil (offset : Nat) : Marks offset [] [] []
  | plain {offset : Nat} (u : Text) {t : Text} {flags : List Bool} {spans : List Span}
      (h : Marks (offset + Text.bytes u) t flags spans) :
      Marks offset (u ++ t) (List.replicate u.length false ++ flags) spans
  | span {offset : Nat} (u : Text) {t : Text} {flags : List Bool} {spans : List Span}
      (h : Marks (offset + Text.bytes u) t flags spans) :
      Marks offset (u ++ t) (List.replicate u.length true ++ flags)
        (⟨offset, Text.bytes u⟩ :: spans)

theorem Marks.none (offset : Nat) (t : Text) :
    Marks offset t (List.replicate t.length false) [] := by
  have := Marks.plain t (Marks.nil (offset + Text.bytes t))
  rwa [List.append_nil, List.append_nil] at this

theorem marks_commentSpans (offset : Nat) (t : Text) :
    Marks offset t (commentFlags t) (commentSpans offset t) := by
  fun_induction commentSpans offset t with
  | case1 offset t h =>
    rw [commentFlags_of_none h]
    exact .none offset t
  | case2 offset t before inside h h' =>
    rw [commentFlags_of_unclosed h h']
    exact .none offset t
  | case3 offset t before inside h body rest h' comment ih =>
    rw [commentFlags_of_cut h h']
    have ht : t = before ++ ((commentOpening ++ body ++ commentClosing) ++ rest) := by
      rw [Text.cut?_eq_some h, Text.cut?_eq_some h']
      simp
    have hlength : commentOpening.length + body.length + commentClosing.length =
        (commentOpening ++ body ++ commentClosing).length := by
      rw [List.length_append, List.length_append]
    rw [hlength, List.append_assoc (List.replicate _ _), ht]
    exact .plain before (.span _ ih)

theorem marks_bodySpans (offset : Nat) (t : Text) :
    Marks offset t (bodyFlags t) (bodySpans offset t) := by
  fun_induction bodySpans offset t with
  | case1 offset =>
    rw [bodyFlags]
    exact .nil offset
  | case2 offset c s h ih =>
    rw [bodyFlags_cons_of_none h]
    exact .plain [c] ih
  | case3 offset c s e h opening body element ih =>
    obtain ⟨o, b, closing, hparts⟩ := RawElement.exists_parts h
    have hopening : opening = o := by
      show (c :: s).take e.opening = o
      rw [hparts.eq, ← hparts.opening_length, List.take_left]
    have hbody : body = b := by
      show ((c :: s).drop e.opening).take e.body = b
      rw [hparts.eq, ← hparts.opening_length, ← hparts.body_length, List.drop_left, List.take_left]
    have helement : element = o ++ (b ++ closing) := by
      have hsplit : c :: s = (o ++ (b ++ closing)) ++ e.rest := by
        rw [hparts.eq]
        simp only [List.append_assoc]
      show (c :: s).take ((c :: s).length - e.rest.length) = _
      rw [hsplit, List.length_append, Nat.add_sub_cancel, List.take_left]
    rw [helement, Text.bytes_append, Text.bytes_append, ← Nat.add_assoc, ← Nat.add_assoc] at ih
    rw [hparts.bodyFlags_eq h, hopening, hbody, helement, Text.bytes_append, Text.bytes_append,
      ← Nat.add_assoc, ← Nat.add_assoc, hparts.eq]
    exact .plain o (.span b (.plain closing ih))

section Marks

variable {offset : Nat} {t : Text} {flags : List Bool} {spans : List Span}

theorem Marks.length_eq (h : Marks offset t flags spans) : t.length = flags.length := by
  induction h with
  | nil => rfl
  | plain u h ih => simp [ih]
  | span u h ih => simp [ih]

/-- **A span lies in the text**, and begins and ends between two characters. -/
theorem Marks.slice (h : Marks offset t flags spans) (pre : Text) (hpre : Text.bytes pre = offset) :
    ∀ span ∈ spans, ∃ part, Slice (pre ++ t) span.index span.stop part := by
  induction h generalizing pre with
  | nil => exact fun span hspan => absurd hspan List.not_mem_nil
  | plain u h ih =>
    rw [← List.append_assoc]
    exact ih (pre ++ u) (by rw [Text.bytes_append, hpre])
  | @span offset u t flags spans h ih =>
    refine List.forall_mem_cons.mpr ⟨⟨u, pre, t, rfl, hpre.symm, ?_⟩, ?_⟩
    · rw [Text.bytes_append, hpre]
      rfl
    · rw [← List.append_assoc]
      exact ih (pre ++ u) (by rw [Text.bytes_append, hpre])

theorem Marks.le_index (h : Marks offset t flags spans) : ∀ span ∈ spans, offset ≤ span.index := by
  induction h with
  | nil => exact fun span hspan => absurd hspan List.not_mem_nil
  | plain u h ih => exact fun span hspan => Nat.le_trans (Nat.le_add_right ..) (ih span hspan)
  | span u h ih =>
    refine List.forall_mem_cons.mpr ⟨Nat.le_refl _, fun span hspan => ?_⟩
    exact Nat.le_trans (Nat.le_add_right ..) (ih span hspan)

theorem map_range'_eq_replicate {p : Nat → Bool} {flag : Bool} {first n : Nat}
    (h : ∀ i, first ≤ i → i < first + n → p i = flag) :
    (List.range' first n).map p = List.replicate n flag := by
  refine List.eq_replicate_iff.mpr ⟨by simp, fun b hb => ?_⟩
  obtain ⟨i, hi, rfl⟩ := List.mem_map.mp hb
  rw [List.mem_range'_1] at hi
  exact h i hi.1 hi.2

theorem covers_eq_false {i : Nat} (h : ∀ span ∈ spans, i < span.index) :
    covers spans i = false := by
  rw [covers, List.any_eq_false]
  intro span hspan
  have := h span hspan
  simp only [Span.has, Bool.and_eq_true, decide_eq_true_eq, not_and]
  omega

/-- **The flags of the bytes** say which bytes the spans cover. -/
theorem Marks.spread_eq (h : Marks offset t flags spans) : spread t flags =
    (List.range' offset (Text.bytes t)).map (covers spans) := by
  induction h with
  | nil => rfl
  | @plain offset u t flags spans h ih =>
    rw [spread_append _ _ (by simp), spread_replicate, ih, Text.bytes_append,
      ← List.range'_append_1, List.map_append]
    congr 1
    refine (map_range'_eq_replicate fun i _ hi => covers_eq_false fun span hspan => ?_).symm
    exact Nat.lt_of_lt_of_le hi (h.le_index span hspan)
  | @span offset u t flags spans h ih =>
    rw [spread_append _ _ (by simp), spread_replicate, ih, Text.bytes_append,
      ← List.range'_append_1, List.map_append]
    congr 1
    · refine (map_range'_eq_replicate fun i hle hlt => ?_).symm
      simp [covers, Span.has, Span.stop, hle, hlt]
    · refine List.map_congr_left fun i hi => ?_
      rw [List.mem_range'_1] at hi
      have hnot : (Span.mk offset (Text.bytes u)).has i = false := by
        rw [Span.has, Span.stop, decide_eq_false (Nat.not_lt.mpr hi.1), Bool.and_false]
      rw [covers, covers, List.any_cons, hnot, Bool.false_or]

end Marks

/-! ## The masked markup -/

theorem zipWith_hideByte_range (bs : List UInt8) (p : Nat → Bool) :
    List.zipWith hideByte bs ((List.range' 0 bs.length).map p) =
      bs.mapIdx fun i b => hideByte b (p i) :=
  List.ext_getElem (by simp) fun i _ _ => by simp

/-- **The bytes that are left are the bytes of the masked markup.** -/
theorem utf8_mask (t : Text) : utf8 (mask t) = maskBytes t := by
  have hcomments := marks_commentSpans 0 t
  have hbodies := marks_bodySpans 0 t
  have hlength : t.length = (List.zipWith or (commentFlags t) (bodyFlags t)).length := by
    rw [List.length_zipWith, ← hcomments.length_eq, ← hbodies.length_eq, Nat.min_self]
  have hcovers : List.zipWith or ((List.range' 0 (Text.bytes t)).map (covers (commentSpans 0 t)))
      ((List.range' 0 (Text.bytes t)).map (covers (bodySpans 0 t))) =
      (List.range' 0 (Text.bytes t)).map (covers (commentSpans 0 t ++ bodySpans 0 t)) := by
    rw [List.zipWith_map, List.zipWith_self]
    exact List.map_congr_left fun i _ => (List.any_append ..).symm
  rw [mask, utf8_zipWith_maskChar hlength, spread_or hcomments.length_eq hbodies.length_eq,
    hcomments.spread_eq, hbodies.spread_eq, hcovers, ← Text.length_utf8, zipWith_hideByte_range,
    maskBytes, foldl_overwrite]

end Markup

end TemplateFormat
