import TemplateFormat.Text.Blank
import TemplateFormat.Text.Word

/-!
# Masking what is no markup

Comments and the bodies of script and style elements hold no tags. `mask` writes spaces over them, as
many as they have bytes, and keeps line feeds: offsets in the masked text are offsets in the markup.
-/

namespace TemplateFormat

namespace Markup

/-- The opening of a comment. -/
def commentOpening : Text := "<!--".toList

/-- The end of a comment. -/
def commentClosing : Text := "-->".toList

/-- For each character, whether it is part of a comment. A comment that is not closed is none. -/
def commentFlags (t : Text) : List Bool :=
  match _h : Text.cut? commentOpening t with
  | none => List.replicate t.length false
  | some (before, inside) =>
    match _h' : Text.cut? commentClosing inside with
    | none => List.replicate t.length false
    | some (body, rest) =>
      List.replicate before.length false ++
        List.replicate (commentOpening.length + body.length + commentClosing.length) true ++
        commentFlags rest
termination_by t.length
decreasing_by
  have h1 := Text.length_lt_of_cut? _h (by decide)
  have h2 := Text.length_lt_of_cut? _h' (by decide)
  omega

/-- `c` is the letter `lower` in either case; the long s is a form of s. -/
def isLetter (lower c : Char) : Bool := c.toLower == lower || (lower == 's' && c.toNat == 0x17f)

/-- What follows `name`, in either case, at the start of a text. -/
def afterName? : Text → Text → Option Text
  | [], t => some t
  | _ :: _, [] => none
  | l :: name, c :: t => if isLetter l c then afterName? name t else none

theorem length_le_of_afterName? {name t rest : Text} (h : afterName? name t = some rest) :
    rest.length ≤ t.length := by
  induction name generalizing t with
  | nil => simp_all [afterName?]
  | cons l name ih =>
    cases t with
    | nil => simp [afterName?] at h
    | cons c t =>
      unfold afterName? at h
      split at h
      · exact Nat.le_succ_of_le (ih h)
      · simp at h

/-- The elements whose body is no markup. -/
def rawNames : List Text := ["script".toList, "style".toList]

/-- What follows the name of an element whose body is no markup. -/
def afterRawName? (t : Text) : Option Text := rawNames.findSome? fun name => afterName? name t

theorem length_le_of_afterRawName? {t rest : Text} (h : afterRawName? t = some rest) :
    rest.length ≤ t.length := by
  obtain ⟨name, _, hn⟩ := List.exists_of_findSome?_eq_some h
  exact length_le_of_afterName? hn

/-- What follows the opening tag of such an element at the start of a text. -/
def afterRawOpening? : Text → Option Text
  | '<' :: t =>
    match rawNames.findSome? fun name => (afterName? name t).filter atWordEnd with
    | some inTag => (Text.cut? ['>'] inTag).map Prod.snd
    | none => none
  | _ => none

theorem length_lt_of_afterRawOpening? {t rest : Text} (h : afterRawOpening? t = some rest) :
    rest.length < t.length := by
  unfold afterRawOpening? at h
  split at h
  · rename_i t
    split at h
    · rename_i inTag hi
      obtain ⟨name, _, hn⟩ := List.exists_of_findSome?_eq_some hi
      obtain ⟨⟨before, after⟩, hc, rfl⟩ := Option.map_eq_some_iff.1 h
      have hlt := Text.length_lt_of_cut? hc (by simp)
      have hle := length_le_of_afterName? (Option.filter_eq_some_iff.1 hn).1
      exact Nat.lt_succ_of_lt (Nat.lt_of_lt_of_le hlt hle)
    · simp at h
  · simp at h

/-- What follows the closing tag of such an element at the start of a text. -/
def afterRawClosing? : Text → Option Text
  | '<' :: '/' :: t =>
    match (afterRawName? t).map Text.trimStart with
    | some ('>' :: rest) => some rest
    | _ => none
  | _ => none

theorem length_lt_of_afterRawClosing? {t rest : Text} (h : afterRawClosing? t = some rest) :
    rest.length < t.length := by
  unfold afterRawClosing? at h
  split at h
  · rename_i t
    split at h
    · rename_i r hr
      cases h
      obtain ⟨after, ha, he⟩ := Option.map_eq_some_iff.1 hr
      have hle := length_le_of_afterRawName? ha
      have hs : (Text.trimStart after).length ≤ after.length :=
        (List.dropWhile_suffix _).length_le
      rw [he, List.length_cons] at hs
      simp only [List.length_cons]
      omega
    · simp at h
  · simp at h

/-- The number of characters before the first closing tag of such an element, and what follows it. -/
def cutRawClosing? : Text → Option (Nat × Text)
  | [] => none
  | c :: t =>
    match afterRawClosing? (c :: t) with
    | some rest => some (0, rest)
    | none => (cutRawClosing? t).map fun p => (p.1 + 1, p.2)

theorem length_lt_of_cutRawClosing? {t rest : Text} {n : Nat}
    (h : cutRawClosing? t = some (n, rest)) : rest.length < t.length := by
  induction t generalizing n with
  | nil => simp [cutRawClosing?] at h
  | cons c t ih =>
    unfold cutRawClosing? at h
    split at h
    · rename_i r hr
      cases h
      exact length_lt_of_afterRawClosing? hr
    · obtain ⟨⟨k, r⟩, hk, he⟩ := Option.map_eq_some_iff.1 h
      cases he
      exact Nat.lt_succ_of_lt (ih hk)

/-- An element at the start of a text whose body is no markup. -/
structure RawElement where
  /-- The number of characters of the opening tag. -/
  opening : Nat
  /-- The number of characters of the body. -/
  body : Nat
  /-- What follows the element. -/
  rest : Text

/-- The element at the start of `t` whose body is no markup. -/
def RawElement.at? (t : Text) : Option RawElement :=
  match afterRawOpening? t with
  | none => none
  | some inside =>
    (cutRawClosing? inside).map fun p => ⟨t.length - inside.length, p.1, p.2⟩

theorem RawElement.length_lt_of_at? {t : Text} {e : RawElement} (h : RawElement.at? t = some e) :
    e.rest.length < t.length := by
  unfold RawElement.at? at h
  split at h
  · simp at h
  · rename_i inside hi
    obtain ⟨⟨n, rest⟩, hc, rfl⟩ := Option.map_eq_some_iff.1 h
    exact Nat.lt_trans (length_lt_of_cutRawClosing? hc) (length_lt_of_afterRawOpening? hi)

/-- For each character, whether it is part of the body of a script or style element. -/
def bodyFlags (t : Text) : List Bool :=
  match t with
  | [] => []
  | c :: s =>
    match _h : RawElement.at? (c :: s) with
    | none => false :: bodyFlags s
    | some e =>
      List.replicate e.opening false ++ List.replicate e.body true ++
        List.replicate ((c :: s).length - e.opening - e.body - e.rest.length) false ++
        bodyFlags e.rest
termination_by t.length
decreasing_by
  · exact Nat.lt_succ_self _
  · exact RawElement.length_lt_of_at? _h

/-- A character, or spaces over each of its bytes. -/
def maskChar (c : Char) (masked : Bool) : Text :=
  if masked && c != '\n' then List.replicate c.utf8Size ' ' else [c]

/-- The markup with comments and the bodies of script and style elements written over. -/
def mask (t : Text) : Text :=
  (List.zipWith maskChar t (List.zipWith or (commentFlags t) (bodyFlags t))).flatten

end Markup

end TemplateFormat
