import TemplateFormat.Span

/-!
# Slices at byte offsets

Where a text is cut between two characters, cutting it at that offset gives the two parts back.

* `slice_append`: the slice at the offset and length of a middle part is that part.
-/

namespace TemplateFormat

namespace Text

theorem takeBytes_append (s t : Text) : takeBytes (bytes s) (s ++ t) = s := by
  induction s with
  | nil =>
    cases t with
    | nil => rfl
    | cons c t =>
      rw [List.nil_append, bytes_nil, takeBytes, if_neg]
      exact Nat.not_le_of_gt c.utf8Size_pos
  | cons c s ih =>
    rw [List.cons_append, bytes_cons, takeBytes, if_pos (Nat.le_add_right ..),
      Nat.add_sub_cancel_left, ih]

theorem dropBytes_append (s t : Text) : dropBytes (bytes s) (s ++ t) = t := by
  have h := takeBytes_append_dropBytes (bytes s) (s ++ t)
  rw [takeBytes_append] at h
  exact List.append_cancel_left h

end Text

namespace Span

/-- **The slice of a middle part.** -/
theorem slice_append (pre t post : Text) :
    slice ⟨Text.bytes pre, Text.bytes t⟩ (pre ++ (t ++ post)) = t := by
  rw [slice, Text.dropBytes_append, Text.takeBytes_append]

end Span

end TemplateFormat
