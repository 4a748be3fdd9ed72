import TemplateFormat.Text.Basic

/-!
# White space

`isBlank` is the property White_Space: 25 characters. `trim`, `trimStart` and `trimEnd` drop them at
the ends of a text, and `Text.isBlank` holds of a text made of nothing else. Line ends inside a
formatted document are trimmed of spaces and tabs only (`isSpace`).
-/

namespace TemplateFormat

/-- A white space character. -/
def isBlank (c : Char) : Bool :=
  let n := c.toNat
  (9 ≤ n && n ≤ 13) || n == 0x20 || n == 0x85 || n == 0xa0 || n == 0x1680 ||
    (0x2000 ≤ n && n ≤ 0x200a) || n == 0x2028 || n == 0x2029 || n == 0x202f || n == 0x205f ||
    n == 0x3000

/-- A space or a tab. -/
def isSpace (c : Char) : Bool := c == ' ' || c == '\t'

namespace Text

/-- Without the white space at the start. -/
def trimStart (t : Text) : Text := t.dropWhile TemplateFormat.isBlank

/-- Without the white space at the end. -/
def trimEnd (t : Text) : Text := trimEndBy TemplateFormat.isBlank t

/-- Without the white space at both ends. -/
def trim (t : Text) : Text := trimBy TemplateFormat.isBlank t

/-- Nothing but white space. -/
def isBlank (t : Text) : Bool := t.all TemplateFormat.isBlank

/-- Without any white space. -/
def solid (t : Text) : Text := t.filter fun c => !TemplateFormat.isBlank c

end Text

end TemplateFormat
