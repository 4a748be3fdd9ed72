import TemplateFormat.Text.Blank

/-!
# Print documents

A document describes output before its lines are laid out: text, sequences, indentation, groups that
are kept on one line if they fit, and five kinds of line break.

`Doc.join`, `Doc.ofText` and `Doc.nest` build documents and leave out parts that print nothing;
`Doc.isEmpty` says which those are, and `Doc.leaves` lists the texts of a document in order.
-/

namespace TemplateFormat

/-- A kind of line break. -/
inductive Line where
  /-- Nothing in a flat group, else a new line. -/
  | soft
  /-- A space in a flat group, else a new line. -/
  | normal
  /-- A new line; a run of them leaves one blank line at most. -/
  | hard
  /-- A new line that is never dropped. -/
  | verbatim
  /-- A new line that is never dropped, without indentation. -/
  | literal
deriving DecidableEq, Repr, Inhabited

/-- The break is a new line in every group. -/
def Line.isForced : Line → Bool
  | .soft | .normal => false
  | .hard | .verbatim | .literal => true

/-- A print document. -/
inductive Doc where
  /-- Nothing. -/
  | empty
  /-- Text on one line. -/
  | text (t : Text)
  /-- Documents one after the other. -/
  | concat (docs : List Doc)
  /-- Line breaks inside are indented by one more level. -/
  | indent (doc : Doc)
  /-- Flat if it fits on the line and is not broken. -/
  | group (doc : Doc) (broken : Bool)
  /-- A line break. -/
  | line (kind : Line)
deriving Repr, Inhabited

namespace Doc

mutual

/-- The document prints nothing. -/
def isEmpty : Doc → Bool
  | empty => true
  | text t => t.isEmpty
  | concat docs => allEmpty docs
  | indent doc => isEmpty doc
  | group doc _ => isEmpty doc
  | line _ => false

/-- All the documents print nothing. -/
def allEmpty : List Doc → Bool
  | [] => true
  | d :: ds => isEmpty d && allEmpty ds

end

mutual

/-- The texts of a document, in order. -/
def leaves : Doc → List Text
  | empty => []
  | text t => [t]
  | concat docs => leavesAll docs
  | indent doc => leaves doc
  | group doc _ => leaves doc
  | line _ => []

/-- The texts of documents, in order. -/
def leavesAll : List Doc → List Text
  | [] => []
  | d :: ds => leaves d ++ leavesAll ds

end

/-- The text as a document. -/
def ofText (t : Text) : Doc := if t.isEmpty then empty else text t

/-- The documents that print something, one after the other. -/
def join (docs : List Doc) : Doc :=
  match docs.filter fun d => !d.isEmpty with
  | [] => empty
  | [d] => d
  | ds => concat ds

/-- The document with its line breaks indented by one more level. -/
def nest (doc : Doc) : Doc := if doc.isEmpty then empty else indent doc

/-- The document with its line breaks indented by `levels` more levels. -/
def nestBy : Nat → Doc → Doc
  | 0, doc => doc
  | levels + 1, doc => nest (nestBy levels doc)

/-- The documents that print something, with `sep` between each two. -/
def intersperse (docs : List Doc) (sep : Doc) : Doc :=
  join ((docs.filter fun d => !d.isEmpty).intersperse sep)

/-- A break that is nothing in a flat group. -/
def softline : Doc := line .soft

/-- A break that always is a new line. -/
def hardline : Doc := line .hard

/-- The documents that a sequence consists of. -/
def parts : Doc → List Doc
  | concat docs => docs
  | doc => [doc]

/-- The document is the given line break. -/
def isLine (kind : Line) : Doc → Bool
  | line l => l == kind
  | _ => false

end Doc

end TemplateFormat
