import TemplateFormat.Token.Region

/-!
# Tags

`tags` lists the opening and closing tags of a markup text with their places in bytes. A tag may go over
several lines, and a quoted attribute value may hold an angle bracket.
-/

namespace TemplateFormat

namespace Markup

/-- The elements that have no closing tag. -/
def voidElements : List Text :=
  ["area", "base", "br", "col", "embed", "hr", "img", "input", "link", "meta", "param", "source",
    "track", "wbr"].map String.toList

/-- The elements whose body is kept as written. -/
def preformattedElements : List Text := ["pre".toList, "textarea".toList]

/-- A tag of a markup text. -/
structure Tag where
  /-- Offset of the first byte. -/
  start : Nat
  /-- Offset just after the last byte. -/
  stop : Nat
  /-- The element's name, in lower case. -/
  name : Text
  /-- It is a closing tag. -/
  closing : Bool
  /-- It opens an element that has to be closed. -/
  opens : Bool
deriving DecidableEq, Repr, Inhabited

/-- A character of an element's name after the first. -/
def isNameChar (c : Char) : Bool := isWord c || c == ':' || c == '-'

/-- What follows a tag, read after the element's name: white space begins the attributes. -/
def afterName : Text → Option Text
  | '>' :: rest => some rest
  | '/' :: '>' :: rest => some rest
  | c :: rest => if isBlank c then afterTag? none rest else none
  | [] => none

/-- The name of a tag, whether it is a closing tag, and what follows it. -/
structure TagHead where
  closing : Bool
  name : Text
  rest : Text

/-- The tag at the start of a text. -/
def TagHead.at? : Text → Option TagHead
  | '<' :: '/' :: c :: t => named true (c :: t)
  | '<' :: t => named false t
  | _ => none
where
  /-- The tag whose name starts the text. -/
  named (closing : Bool) : Text → Option TagHead
    | c :: t =>
      if c.isAlpha then
        (afterName (t.dropWhile isNameChar)).map
          (TagHead.mk closing (Text.lowerAscii (c :: t.takeWhile isNameChar)))
      else none
    | [] => none

theorem length_lt_of_afterName {t rest : Text} (h : afterName t = some rest) :
    rest.length < t.length := by
  unfold afterName at h
  split at h
  · cases h
    exact Nat.lt_succ_self _
  · cases h
    exact Nat.lt_succ_of_lt (Nat.lt_succ_self _)
  · split at h
    · exact Nat.lt_succ_of_lt (length_lt_of_afterTag? h)
    · simp at h
  · simp at h

theorem TagHead.length_lt_of_named {closing : Bool} {t : Text} {head : TagHead}
    (h : TagHead.at?.named closing t = some head) : head.rest.length < t.length := by
  unfold TagHead.at?.named at h
  split at h
  · split at h
    · obtain ⟨rest, hr, rfl⟩ := Option.map_eq_some_iff.1 h
      exact Nat.lt_succ_of_lt (Nat.lt_of_lt_of_le (length_lt_of_afterName hr)
        (List.dropWhile_suffix _).length_le)
    · simp at h
  · simp at h

theorem TagHead.length_lt_of_at? {t : Text} {head : TagHead} (h : TagHead.at? t = some head) :
    head.rest.length < t.length := by
  unfold TagHead.at? at h
  split at h
  · exact Nat.lt_succ_of_lt (Nat.lt_succ_of_lt (length_lt_of_named h))
  · exact Nat.lt_succ_of_lt (length_lt_of_named h)
  · simp at h

/-- The tags of `t`, which starts at byte `offset`. -/
def tagsFrom (offset : Nat) (t : Text) : List Tag :=
  match t with
  | [] => []
  | c :: s =>
    match _h : TagHead.at? (c :: s) with
    | none => tagsFrom (offset + c.utf8Size) s
    | some head =>
      let whole := (c :: s).take ((c :: s).length - head.rest.length)
      let stop := offset + Text.bytes whole
      let opens :=
        !head.closing && !Text.endsWith ['/', '>'] whole && !voidElements.contains head.name
      ⟨offset, stop, head.name, head.closing, opens⟩ :: tagsFrom stop head.rest
termination_by t.length
decreasing_by
  · exact Nat.lt_succ_self _
  · exact TagHead.length_lt_of_at? _h

/-- The tags of a text. -/
def tags (t : Text) : List Tag := tagsFrom 0 t

end Markup

end TemplateFormat
