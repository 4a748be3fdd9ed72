import TemplateFormat.Action

/-!
# Raw regions

The body of a script or style element is no markup. Where such a body holds an action, the whole
element is one raw region of the template: it is kept as written, and the actions in it are not read.

`Region.find?` gives the first raw region of a text. A tag that opens a script or style element
without an action in its body is passed over, and the search goes on after it.
-/

namespace TemplateFormat

/-- What follows the closing angle bracket of a tag, read from inside the tag. The bracket counts only
outside quoted attribute values; `quote` is the quotation mark of the value being read. -/
def afterTag? (quote : Option Char) : Text → Option Text
  | [] => none
  | c :: t =>
    match quote with
    | some q => if c = q then afterTag? none t else afterTag? (some q) t
    | none =>
      if c = '>' then some t
      else if c = '"' || c = '\x27' then afterTag? (some c) t
      else afterTag? none t

theorem length_lt_of_afterTag? {quote : Option Char} {t rest : Text}
    (h : afterTag? quote t = some rest) : rest.length < t.length := by
  induction t generalizing quote with
  | nil => simp [afterTag?] at h
  | cons c t ih =>
    have step {q : Option Char} (hq : afterTag? q t = some rest) :
        rest.length < (c :: t).length :=
      Nat.lt_succ_of_lt (ih hq)
    unfold afterTag? at h
    split at h
    · split at h <;> exact step h
    · split at h
      · simp only [Option.some.injEq] at h
        simp [h]
      · split at h <;> exact step h

/-- Where a raw region stands in a text, in characters. -/
structure Region where
  /-- The number of characters before it. -/
  distance : Nat
  /-- The number of its characters. -/
  size : Nat
  /-- It is not empty. -/
  size_pos : 0 < size
deriving DecidableEq, Repr

namespace Region

/-- The region as seen `n` characters earlier. -/
def farther (n : Nat) (r : Region) : Region := { r with distance := r.distance + n }

/-- The region as seen `n` characters later. -/
def nearer (n : Nat) (r : Region) : Region := { r with distance := r.distance - n }

/-- The elements whose body is no markup. -/
def names : List Text := ["script".toList, "style".toList]

/-- An opening tag at the start of a text. -/
structure Opening where
  /-- The element's name. -/
  name : Text
  /-- What follows the tag. -/
  body : Text

/-- The opening tag of a raw element at the start of `t`. -/
def Opening.at? (t : Text) : Option Opening :=
  names.findSome? fun name =>
    match Text.dropStart? ('<' :: name) t with
    | some rest => if atWordEnd rest then (afterTag? none rest).map (Opening.mk name) else none
    | none => none

theorem Opening.length_lt_of_at? {t : Text} {o : Opening} (h : Opening.at? t = some o) :
    o.body.length < t.length := by
  obtain ⟨name, _, hn⟩ := List.exists_of_findSome?_eq_some h
  split at hn
  · rename_i rest hp
    split at hn
    · obtain ⟨body, hb, rfl⟩ := Option.map_eq_some_iff.1 hn
      have hlt := length_lt_of_afterTag? hb
      have hlen := congrArg List.length (Text.dropStart?_eq_some.1 hp)
      rw [List.length_append] at hlen
      exact Nat.lt_of_lt_of_le hlt (hlen ▸ Nat.le_add_left _ _)
    · simp at hn
  · simp at hn

/-- What follows the element that `o` opens, if its body holds an action and the element is closed. -/
def Opening.rest? (o : Opening) : Option Text :=
  match Text.cut? ('<' :: '/' :: o.name) o.body with
  | none => none
  | some (body, closing) =>
    if Text.contains openBraces body then (Text.cut? ['>'] closing).map Prod.snd else none

theorem Opening.length_lt_of_rest? {o : Opening} {rest : Text} (h : o.rest? = some rest) :
    rest.length < o.body.length := by
  unfold Opening.rest? at h
  split at h
  · simp at h
  · rename_i body closing hc
    split at h
    · obtain ⟨⟨before, after⟩, ha, rfl⟩ := Option.map_eq_some_iff.1 h
      exact Nat.lt_trans (Text.length_lt_of_cut? ha (by simp)) (Text.length_lt_of_cut? hc (by simp))
    · simp at h

/-- The first raw region of a text. -/
def find? (t : Text) : Option Region :=
  match t with
  | [] => none
  | c :: s =>
    match ho : Opening.at? (c :: s) with
    | none => (find? s).map (farther 1)
    | some o =>
      match hr : o.rest? with
      | some rest =>
        some ⟨0, (c :: s).length - rest.length, Nat.sub_pos_of_lt
          (Nat.lt_trans (Opening.length_lt_of_rest? hr) (Opening.length_lt_of_at? ho))⟩
      | none => (find? o.body).map (farther ((c :: s).length - o.body.length))
termination_by t.length
decreasing_by
  · exact Nat.lt_succ_self _
  · exact Opening.length_lt_of_at? ho

end Region

end TemplateFormat
