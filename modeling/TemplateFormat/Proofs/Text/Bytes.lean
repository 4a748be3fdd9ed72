import TemplateFormat.Text.Basic
import Mathlib.Tactic.ByContra
import Mathlib.Tactic.SplitIfs

/-!
# The bytes of a text

Offsets count the bytes of the UTF-8 encoding. Two beginnings of a text are compared by their bytes
(`exists_split_of_bytes_le`), so an offset is the end of at most one beginning. Such an offset is
the boundary of a character.

* `isBoundary_iff`: the test for a boundary finds the offsets at which a beginning ends.
* `IsBoundary.exists_slice`: two boundaries cut a part out of the text.
* `Slice.utf8_eq`: the bytes between the two are the bytes of the part.
-/

namespace TemplateFormat

namespace Text

/-! ## Comparing by bytes -/

theorem bytes_pos {t : Text} (h : t ≠ []) : 0 < bytes t := by
  cases t with
  | nil => exact absurd rfl h
  | cons c t => exact Nat.add_pos_left c.utf8Size_pos _

theorem bytes_le_of_isPrefix {s t : Text} (h : s <+: t) : bytes s ≤ bytes t := by
  obtain ⟨u, rfl⟩ := h
  rw [bytes_append]
  exact Nat.le_add_right _ _

/-- Of two beginnings of a text, the one with fewer bytes is a beginning of the other. -/
theorem exists_split_of_bytes_le {a b s t : Text} (h : a ++ s = b ++ t) (hle : bytes a ≤ bytes b) :
    ∃ m, b = a ++ m ∧ s = m ++ t := by
  rcases List.append_eq_append_iff.mp h with ⟨m, rfl, rfl⟩ | ⟨m, rfl, rfl⟩
  · exact ⟨m, rfl, rfl⟩
  · -- the bytes leave no room for a character between the two
    have hm : m = [] := by
      by_contra hne
      have := bytes_pos hne
      rw [bytes_append] at hle
      omega
    subst hm
    exact ⟨[], by simp, rfl⟩

/-! ## The encoding -/

/-- The bytes of a text. -/
def utf8 (t : Text) : List UInt8 := t.flatMap String.utf8EncodeChar

/-- The part of a text between two byte offsets. The offsets are in order, do not go past the end
of the text, and lie between two characters. -/
def Slice (t : Text) (start stop : Nat) (part : Text) : Prop :=
  ∃ before after, t = before ++ (part ++ after) ∧ start = bytes before ∧
    stop = bytes (before ++ part)

theorem utf8_cons (c : Char) (t : Text) : utf8 (c :: t) = String.utf8EncodeChar c ++ utf8 t :=
  List.flatMap_cons

theorem utf8_append (s t : Text) : utf8 (s ++ t) = utf8 s ++ utf8 t := List.flatMap_append

theorem length_utf8 (t : Text) : (utf8 t).length = bytes t := by
  induction t with
  | nil => rfl
  | cons c t ih => rw [utf8_cons, List.length_append, String.length_utf8EncodeChar, ih, bytes_cons]

/-- Only a line feed has the byte of a line feed. -/
theorem newline_notMem_utf8EncodeChar {c : Char} (hc : c ≠ '\n') :
    10 ∉ String.utf8EncodeChar c := by
  have hval : c.val.toNat ≠ 10 := fun h => hc (Char.ext (UInt32.toNat_inj.mp h))
  have hbyte {n : Nat} (hn : n % 256 ≠ 10) : 10 ≠ UInt8.ofNat n := by
    intro h
    have := congrArg UInt8.toNat h
    rw [UInt8.toNat_ofNat'] at this
    exact hn this.symm
  unfold String.utf8EncodeChar
  dsimp only
  split_ifs <;> simp only [List.mem_cons, List.not_mem_nil, or_false, not_or]
  all_goals and_intros <;> exact hbyte (by omega)

/-! ## Boundaries -/

/-- The offset is where a beginning of the text ends. -/
def IsBoundary (n : Nat) (t : Text) : Prop := ∃ pre post, t = pre ++ post ∧ bytes pre = n

theorem isBoundary_bytes (pre post : Text) : IsBoundary (bytes pre) (pre ++ post) :=
  ⟨pre, post, rfl, rfl⟩

theorem isBoundary_zero (t : Text) : IsBoundary 0 t := isBoundary_bytes [] t

theorem IsBoundary.le_bytes {n : Nat} {t : Text} (h : IsBoundary n t) : n ≤ bytes t := by
  obtain ⟨pre, post, rfl, rfl⟩ := h
  exact bytes_le_of_isPrefix (List.prefix_append pre post)

/-- **The test for a boundary**, by induction on the text. -/
theorem isBoundary_iff {n : Nat} {t : Text} : isBoundary n t = true ↔ IsBoundary n t := by
  induction t generalizing n with
  | nil =>
    rw [isBoundary, beq_iff_eq]
    constructor
    · rintro rfl
      exact isBoundary_zero []
    · rintro ⟨pre, post, he, rfl⟩
      rw [(List.nil_eq_append_iff.mp he).1, bytes_nil]
  | cons c t ih =>
    rw [isBoundary, Bool.or_eq_true, Bool.and_eq_true, beq_iff_eq, decide_eq_true_eq, ih]
    constructor
    · rintro (rfl | ⟨hsize, pre, post, rfl, hpre⟩)
      · exact isBoundary_zero _
      · refine ⟨c :: pre, post, rfl, ?_⟩
        rw [bytes_cons, hpre]
        omega
    · rintro ⟨pre, post, he, rfl⟩
      cases pre with
      | nil => exact .inl rfl
      | cons d pre =>
        obtain ⟨rfl, rfl⟩ := List.cons.inj he
        rw [bytes_cons, Nat.add_sub_cancel_left]
        exact .inr ⟨Nat.le_add_right .., isBoundary_bytes pre post⟩

/-- Two boundaries in order cut a part out of the text. -/
theorem IsBoundary.exists_slice {t : Text} {start stop : Nat} (hstart : IsBoundary start t)
    (hstop : IsBoundary stop t) (hle : start ≤ stop) : ∃ part, Slice t start stop part := by
  obtain ⟨before, rest, rfl, rfl⟩ := hstart
  obtain ⟨pre, after, he, rfl⟩ := hstop
  obtain ⟨part, rfl, rfl⟩ := exists_split_of_bytes_le he hle
  exact ⟨part, before, after, rfl, rfl, rfl⟩

namespace Slice

variable {t part : Text} {start stop : Nat}

theorem isBoundary_start (h : Slice t start stop part) : IsBoundary start t := by
  obtain ⟨before, after, rfl, rfl, -⟩ := h
  exact isBoundary_bytes before _

theorem isBoundary_stop (h : Slice t start stop part) : IsBoundary stop t := by
  obtain ⟨before, after, rfl, -, rfl⟩ := h
  rw [← List.append_assoc]
  exact isBoundary_bytes (before ++ part) after

/-- The bytes of a part that is cut out. -/
theorem utf8_eq (h : Slice t start stop part) :
    utf8 part = ((utf8 t).take stop).drop start := by
  obtain ⟨before, after, rfl, rfl, rfl⟩ := h
  have hupto : (utf8 (before ++ (part ++ after))).take (bytes (before ++ part)) =
      utf8 (before ++ part) := by
    rw [← List.append_assoc, utf8_append, ← length_utf8, List.take_left]
  rw [hupto, utf8_append, ← length_utf8, List.drop_left]

end Slice

end Text

end TemplateFormat
