import TemplateFormat.Markup.Html
import TemplateFormat.Proofs.Text.Spacing

/-!
# Element trees on lines

A `Forest` is a sequence of text lines, void tags and elements with their children. `Forest.rows`
lists its lines with the number of elements around each: text lines, and the tags, each on a line of
its own.

The formatter builds no tree. It goes through the lines and counts: an opening tag makes the lines
after it deeper by one level, a closing tag itself and the lines after it less deep (`walk`). Over
the lines of a forest the count comes back to where it started, so the depths that are counted are
those of the tree.

Results:
* `trim_tagText`, `Row.body_ne_nil`: what a line holds between its white space.
* `walk_rows_append`, `walk_rows`: counting tags gives the depth of every line of a forest.
-/

namespace TemplateFormat

namespace Markup

/-! ## Lines -/

/-- A line of text without tags. -/
structure TextLine where
  text : Text
  solid : Text.isBlank text = false
  oneLine : '\n' ∉ text
  tagless : '<' ∉ text

/-- A name of letters of the basic alphabet. -/
structure Name where
  text : Text
  ne_nil : text ≠ []
  letters : ∀ c ∈ text, c.isAlpha = true

/-- The name of an element with a closing tag and a body that is markup. -/
structure ElementName extends Name where
  not_void : Text.lowerAscii text ∉ voidElements
  not_preformatted : Text.lowerAscii text ∉ preformattedElements
  not_raw : Text.lowerAscii text ∉ rawNames

/-- The attributes of a tag. Angle brackets that close a tag stand in quoted values only. -/
inductive Attributes : Text → Prop
  | nil : Attributes []
  | char {c : Char} {t : Text} (hc : c ≠ '>' ∧ c ≠ '"' ∧ c ≠ '\x27') (h : Attributes t) :
      Attributes (c :: t)
  | quoted {q : Char} {v t : Text} (hq : q = '"' ∨ q = '\x27') (hv : q ∉ v) (h : Attributes t) :
      Attributes (q :: (v ++ q :: t))

/-- What stands between the name of a tag and its last angle bracket: nothing, a slash, or white
space and attributes. -/
inductive AfterName : Text → Prop
  | nil : AfterName []
  | slash : AfterName ['/']
  | attributes {c : Char} {t : Text} (hc : isBlank c = true) (h : Attributes t) : AfterName (c :: t)

/-- The tag of an element without a closing tag. -/
structure VoidTag where
  name : Name
  void : Text.lowerAscii name.text ∈ voidElements
  inside : Text
  attributes : AfterName inside
  oneLine : '\n' ∉ inside
  tagless : '<' ∉ inside

/-- The text of a tag. -/
def tagText (closing : Bool) (name inside : Text) : Text :=
  '<' :: ((if closing then ['/'] else []) ++ (name ++ (inside ++ ['>'])))

/-- What stands on a line of its own. -/
inductive Row where
  | text (line : TextLine)
  | void (tag : VoidTag)
  | opening (name : ElementName)
  | closing (name : ElementName)

namespace Row

/-- What is written on the line. -/
def written : Row → Text
  | text line => line.text
  | void tag => tagText false tag.name.text tag.inside
  | opening name => tagText false name.text []
  | closing name => tagText true name.text []

/-- What is written on the line, without white space around it. -/
def body (r : Row) : Text := Text.trim r.written

end Row

theorem tagText_ne_nil (closing : Bool) (name inside : Text) : tagText closing name inside ≠ [] :=
  List.cons_ne_nil _ _

theorem trim_tagText (closing : Bool) (name inside : Text) :
    Text.trim (tagText closing name inside) = tagText closing name inside := by
  refine Text.trim_of_trimmed ⟨fun c hc => ?_, fun c hc => ?_⟩
  · obtain rfl := Option.some.inj hc
    decide
  · have hlast : tagText closing name inside =
        ('<' :: ((if closing then ['/'] else []) ++ (name ++ inside))) ++ ['>'] := by
      simp [tagText]
    rw [hlast, List.getLast?_concat] at hc
    obtain rfl := Option.some.inj hc
    decide

namespace Row

theorem body_ne_nil (r : Row) : r.body ≠ [] := by
  cases r with
  | text line =>
    exact Text.trim_ne_nil line.solid
  | void tag =>
    rw [body, written, trim_tagText]
    exact tagText_ne_nil _ _ _
  | opening name =>
    rw [body, written, trim_tagText]
    exact tagText_ne_nil _ _ _
  | closing name =>
    rw [body, written, trim_tagText]
    exact tagText_ne_nil _ _ _

end Row

/-! ## Forests -/

/-- Text lines, void tags and elements, one after the other. -/
inductive Forest where
  | nil
  | text (line : TextLine) (rest : Forest)
  | void (tag : VoidTag) (rest : Forest)
  | element (name : ElementName) (children rest : Forest)

namespace Forest

/-- The lines of a forest with `depth` elements around it, each with the number of elements around
it. -/
def rows (depth : Nat) : Forest → List (Nat × Row)
  | nil => []
  | text line rest => (depth, .text line) :: rows depth rest
  | void tag rest => (depth, .void tag) :: rows depth rest
  | element name children rest =>
    (depth, .opening name) :: (rows (depth + 1) children ++ (depth, .closing name) :: rows depth rest)

theorem rows_ne_nil (f : Forest) (depth : Nat) (hf : f ≠ .nil) : f.rows depth ≠ [] := by
  cases f with
  | nil => exact absurd rfl hf
  | text line rest => exact List.cons_ne_nil _ _
  | void tag rest => exact List.cons_ne_nil _ _
  | element name children rest => exact List.cons_ne_nil _ _

end Forest

/-! ## Counting tags -/

namespace Row

/-- The depth of a line, if `depth` elements are open before it. -/
def level (depth : Nat) : Row → Nat
  | text _ | void _ | opening _ => depth
  | closing _ => depth - 1

/-- The number of open elements after a line. -/
def next (depth : Nat) : Row → Nat
  | text _ | void _ => depth
  | opening _ => depth + 1
  | closing _ => depth - 1

end Row

/-- The lines with the depths that are counted. -/
def walk : Nat → List Row → List (Nat × Row)
  | _, [] => []
  | depth, r :: rs => (r.level depth, r) :: walk (r.next depth) rs

/-- **Counting tags gives the depth of every line of a forest**, and comes back to the depth before
it; by induction on the forest, for any lines after it. -/
theorem walk_rows_append (f : Forest) (depth : Nat) (rs : List Row) :
    walk depth ((f.rows depth).map Prod.snd ++ rs) = f.rows depth ++ walk depth rs := by
  induction f generalizing depth rs with
  | nil => rfl
  | text line rest ih => exact congrArg ((depth, Row.text line) :: ·) (ih depth rs)
  | void tag rest ih => exact congrArg ((depth, Row.void tag) :: ·) (ih depth rs)
  | element name children rest ihChildren ihRest =>
    -- the closing tag takes back what the opening tag added
    have hclosing : walk (depth + 1) (.closing name :: ((rest.rows depth).map Prod.snd ++ rs)) =
        (depth, .closing name) :: (rest.rows depth ++ walk depth rs) :=
      congrArg ((depth, Row.closing name) :: ·) (ihRest depth rs)
    have hinside := ihChildren (depth + 1) (.closing name :: ((rest.rows depth).map Prod.snd ++ rs))
    rw [hclosing] at hinside
    simp only [Forest.rows, List.map_cons, List.map_append, List.cons_append, List.append_assoc]
    exact congrArg ((depth, Row.opening name) :: ·) hinside

theorem walk_rows (f : Forest) (depth : Nat) :
    walk depth ((f.rows depth).map Prod.snd) = f.rows depth := by
  have h := walk_rows_append f depth []
  rwa [List.append_nil, walk, List.append_nil] at h

end Markup

end TemplateFormat
