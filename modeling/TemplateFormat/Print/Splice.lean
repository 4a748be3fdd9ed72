import TemplateFormat.Print.Session
import TemplateFormat.Doc.Transform

/-!
# Splicing

A formatted document holds the placeholders of nodes. `splice` replaces each one by the node it stands
for. `pieces` cuts a text at placeholders: the leftmost comes first, and of two at the same place the
one listed first. Every placeholder must be found exactly once.
-/

namespace TemplateFormat

/-- A placeholder and how the node it stands for is printed. -/
structure Slot (m : Type → Type) where
  key : Text
  print : m Doc

namespace Splice

/-- A piece of a text with placeholders. -/
inductive Piece where
  | literal (t : Text)
  | slot (index : Nat)
deriving DecidableEq, Repr

/-- The first key, counted from `index`, that a text starts with. -/
def keyAt? (index : Nat) : List Text → Text → Option (Nat × Text)
  | [], _ => none
  | key :: keys, t =>
    if !key.isEmpty && Text.startsWith key t then some (index, key) else keyAt? (index + 1) keys t

/-- A character before pieces. -/
def consChar (c : Char) : List Piece → List Piece
  | .literal t :: ps => .literal (c :: t) :: ps
  | ps => .literal [c] :: ps

/-- The pieces of a text between and at its placeholders. -/
def pieces (keys : List Text) (t : Text) : List Piece :=
  match t with
  | [] => []
  | c :: rest =>
    match keyAt? 0 keys (c :: rest) with
    | some (index, key) => .slot index :: pieces keys (rest.drop (key.length - 1))
    | none => consChar c (pieces keys rest)
termination_by t.length
decreasing_by
  all_goals simp only [List.length_cons, List.length_drop]
  all_goals omega

/-- The placeholder of a piece. -/
def Piece.index? : Piece → Option Nat
  | literal _ => none
  | slot index => some index

/-- The placeholders found in a document, in order. -/
def found (keys : List Text) (doc : Doc) : List Nat :=
  (doc.leaves.flatMap (pieces keys)).filterMap Piece.index?

/-- The first key that is not found exactly once, and how often it is. -/
def misused? (keys : List Text) (doc : Doc) : Option (Text × Nat) :=
  let uses := found keys doc
  keys.zipIdx.findSome? fun (key, index) =>
    let n := uses.count index
    if n = 1 then none else some (key, n)

section Effects

variable {m : Type → Type} [Monad m]

/-- Prints a piece. -/
def printPiece (slots : List (Slot m)) : Piece → m Doc
  | .literal t => pure (.ofText t)
  | .slot index =>
    match slots[index]? with
    | some s => s.print
    | none => pure .empty

/-- Prints pieces from left to right. -/
def printPieces (slots : List (Slot m)) : List Piece → m (List Doc)
  | [] => pure []
  | p :: ps => do
    let d ← printPiece slots p
    return d :: (← printPieces slots ps)

/-- A text with its placeholders replaced. -/
def spliceText (slots : List (Slot m)) (t : Text) : m Doc := do
  return .join (← printPieces slots (pieces (slots.map Slot.key) t))

/-- A document with its placeholders replaced; `span` is the place of its container. -/
def splice [MonadExceptOf FormatError m] (doc : Doc) (slots : List (Slot m)) (span : Span) :
    m Doc := do
  let out ← doc.mapTextM (spliceText slots)
  match misused? (slots.map Slot.key) doc with
  | none => return out
  | some (key, n) =>
    throw (.embedFailure ("placeholder " ++ String.ofList key ++ " resolved " ++
      String.ofList (Nat.toDigits 10 n) ++ " times") (some span))

end Effects

/-- Adds a slot; a key that is there keeps its place and takes the new printer. -/
def insertSlot {m : Type → Type} (slots : List (Slot m)) (slot : Slot m) : List (Slot m) :=
  match slots with
  | [] => [slot]
  | s :: rest => if s.key = slot.key then slot :: rest else s :: insertSlot rest slot

end Splice

end TemplateFormat
