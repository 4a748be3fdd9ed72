import TemplateFormat.Tree.Basic

/-!
# Listing a tree

`Tree.listing` lists everything of a tree that has a number, by number: the root, the nodes, and the
opening and closing actions of blocks, each with the number of what encloses it.
-/

namespace TemplateFormat

/-- Which end of a block an action stands at. -/
inductive Role where
  | opens
  | closes
deriving DecidableEq, Repr, Inhabited

/-- One line of a listing. -/
inductive Entry where
  | root (tree : Tree)
  | node (node : Node)
  | edge (role : Role) (leaf : Leaf)
deriving Inhabited

/-- An entry with the number of what encloses it; nothing encloses the root. -/
structure Listed where
  parent : Option Nat
  entry : Entry
deriving Inhabited

namespace Entry

/-- The number of what is listed. -/
def id : Entry → Nat
  | root _ => 0
  | node n => n.info.id
  | edge _ leaf => leaf.id

/-- Where it stands in the source. -/
def span : Entry → Span
  | root t => t.span
  | node n => n.info.span
  | edge _ leaf => leaf.span

/-- Its source text. -/
def text : Entry → Text
  | root t => t.source
  | node n => n.text
  | edge _ leaf => leaf.text

/-- Its literal content, if it is a container. -/
def content? : Entry → Option Text
  | root t => some t.source
  | node (.block _ frame children) => some (frame.content children)
  | _ => none

end Entry

namespace Node

mutual

/-- A node and everything in it. -/
def listed (parent : Nat) : Node → List Listed
  | n@(.action _ _ _) => [⟨some parent, .node n⟩]
  | n@(.raw _ _) => [⟨some parent, .node n⟩]
  | n@(.block info frame children) =>
    ⟨some parent, .node n⟩ :: ⟨some info.id, .edge .opens frame.start⟩ ::
      (listedAll info.id children ++
        (frame.stop.map fun leaf => ⟨some info.id, .edge .closes leaf⟩).toList)
  | n@(.chain info branches) => ⟨some parent, .node n⟩ :: listedAll info.id branches

/-- Siblings and everything in them. -/
def listedAll (parent : Nat) : List Node → List Listed
  | [] => []
  | n :: ns => listed parent n ++ listedAll parent ns

end

end Node

/-- Everything of the tree, by number. -/
def Tree.listing (t : Tree) : List Listed :=
  (⟨none, .root t⟩ :: Node.listedAll 0 t.children).mergeSort fun a b => a.entry.id ≤ b.entry.id

end TemplateFormat
