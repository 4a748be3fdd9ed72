import TemplateFormat.Markup.Mask
import TemplateFormat.Markup.Tag
import TemplateFormat.Doc.Basic

/-!
# Indenting markup

`Html.format` lays out markup line by line. Each line is trimmed and indented by the number of elements
that are open before it, less the closing tags it starts with. The lines on which a tag goes on are
indented one level below the line it started on. A run of blank lines becomes one, and blank lines at
both ends are dropped. The bodies of preformatted elements are kept as written.

A block body without a line feed is one line: white space at its ends becomes a line break, so that it
is not lost where the block stays on the line.
-/

namespace TemplateFormat

namespace Markup

/-- A tag that goes on past the line it starts on. -/
structure Spanning where
  /-- Where the tag ends. -/
  stop : Nat
  /-- The indentation of the lines on which it goes on. -/
  depth : Nat
deriving DecidableEq, Repr, Inhabited

/-- What the tags that start on a line do. -/
structure LineTags where
  /-- How many more elements are open after the line. -/
  delta : Int := 0
  /-- The number of closing tags at the start of the line. -/
  leadingCloses : Nat := 0
  /-- The preformatted element that is open after the line. -/
  preformatted : Option Text := none
  /-- Only closing tags and white space were met on the line. -/
  leading : Bool
  /-- Where in the line the last tag ends, in bytes. -/
  stop : Nat := 0
deriving DecidableEq, Repr

namespace LineTags

/-- Takes one tag of a line that starts at byte `offset`. -/
def add (line : Text) (offset : Nat) (s : LineTags) (tag : Tag) : LineTags :=
  let start := tag.start - offset
  let between := Text.takeBytes (start - s.stop) (Text.dropBytes s.stop line)
  let leading := s.leading && Text.isBlank between
  let stop := min (tag.stop - offset) (Text.bytes line)
  if tag.closing then
    { delta := s.delta - 1
      leadingCloses := if leading then s.leadingCloses + 1 else s.leadingCloses
      preformatted := if s.preformatted = some tag.name then none else s.preformatted
      leading, stop }
  else if tag.opens then
    { delta := s.delta + 1
      leadingCloses := s.leadingCloses
      preformatted :=
        if preformattedElements.contains tag.name then some tag.name else s.preformatted
      leading := false, stop }
  else { s with leading := false, stop }

/-- The tags that start on a line; `continued` if a tag of an earlier line goes on in it. -/
def ofLine (line : Text) (offset : Nat) (tags : List Tag) (continued : Bool) : LineTags :=
  tags.foldl (add line offset) { leading := !continued }

end LineTags

/-- The layout of the lines read so far. -/
structure Layout where
  /-- The lines as documents, the latest first. -/
  parts : List Doc := []
  /-- The number of open elements. -/
  depth : Nat := 0
  /-- Blank lines were met since the last line. -/
  pendingBlank : Bool := false
  /-- The open preformatted element. -/
  preformatted : Option Text := none
  /-- The tag that goes on. -/
  spanning : Option Spanning := none
  /-- The tags that start on later lines. -/
  tags : List Tag
  /-- Where the next line starts. -/
  offset : Nat := 0
deriving Repr

namespace Layout

/-- A line inside a preformatted element. -/
def preformattedLine (s : Layout) (name raw : Text) (here : List Tag) : Layout :=
  let s := { s with parts := .ofText (Text.trimEnd raw) :: .line .literal :: s.parts }
  if here.any fun tag => tag.closing && tag.name == name then
    { s with preformatted := none, depth := s.depth - 1 }
  else s

/-- The document of a line after the first, at a depth. -/
def lineDoc (depth : Nat) (line : Text) : Doc :=
  .nestBy depth (.join [.hardline, .ofText line])

/-- A line of markup with the text `line`. -/
def markupLine (s : Layout) (line masked : Text) (start stop : Nat) (here : List Tag) : Layout :=
  let continuation := s.spanning.filter fun tag => start < tag.stop
  let summary := LineTags.ofLine masked start here continuation.isSome
  let lineDepth :=
    match continuation with
    | some tag => tag.depth
    | none => s.depth - summary.leadingCloses
  let parts :=
    if s.parts.isEmpty then [.ofText line]
    else if s.pendingBlank then lineDoc lineDepth line :: .hardline :: s.parts
    else lineDoc lineDepth line :: s.parts
  let goesOn := continuation.filter fun tag => stop < tag.stop
  let spanning :=
    match here.getLast? with
    | some tag => if stop < tag.stop then some ⟨tag.stop, lineDepth + 1⟩ else goesOn
    | none => goesOn
  { s with
    parts, spanning
    depth := (s.depth + summary.delta).toNat
    pendingBlank := false
    preformatted := summary.preformatted }

/-- Takes one line of the markup, with the same line of the masked markup. -/
def addLine (s : Layout) (raw masked : Text) : Layout :=
  let start := s.offset
  let stop := start + Text.bytes raw
  let here := s.tags.takeWhile fun tag => tag.start < stop
  let s := { s with tags := s.tags.dropWhile fun tag => tag.start < stop, offset := stop + 1 }
  match s.preformatted with
  | some name => s.preformattedLine name raw here
  | none =>
    let line := Text.trim raw
    if line.isEmpty then { s with pendingBlank := !s.parts.isEmpty }
    else s.markupLine line masked start stop here

end Layout

namespace Html

/-- A block body on one line. -/
def formatLine (markup : Text) : Doc :=
  let line := Text.trim markup
  if line.isEmpty then .hardline
  else
    let edge (c : Option Char) : Doc := if c.any isBlank then .line .normal else .empty
    .join [edge markup.head?, .ofText line, edge markup.getLast?, .hardline]

/-- Markup line by line. -/
def formatLines (markup : Text) : Doc :=
  let masked := mask markup
  let lines := (Text.lines markup).zip (Text.lines masked)
  let start : Layout := { tags := tags masked }
  let layout := lines.foldl (fun s l => Layout.addLine s l.1 l.2) start
  .join (.hardline :: layout.parts).reverse

/-- Lays out markup; `embedded` if it is the body of a block and not a whole document. -/
def format (embedded : Bool) (markup : Text) : Doc :=
  let markup := Text.replace ['\r', '\n'] ['\n'] markup
  if embedded && !markup.any (· == '\n') then formatLine markup else formatLines markup

end Html

end Markup

end TemplateFormat
