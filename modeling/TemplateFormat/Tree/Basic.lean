import TemplateFormat.Token.Basic
import TemplateFormat.Placeholder

/-!
# Template trees

A node is a lone action, a raw region, a block between an opening and a closing action, or a chain of
branches that `else` actions divide. Each node carries the literal text before it (`Info.lead`), and a
container ends with a literal tail. So a tree determines its source, and these views read it off:

* `Node.text`: the source text of a node;
* `Node.spellAll`: the source text of a list of siblings with the literals before them;
* `Node.aliasAll`: the same with each sibling replaced by its placeholder;
* `Node.marks`: the tokens of a node, in order.

Nodes are numbered in the order in which they are met, from 1; the root has number 0. The opening and
closing actions of a block have numbers of their own.
-/

namespace TemplateFormat

/-- What all nodes have. -/
structure Info where
  /-- The node's number. -/
  id : Nat
  /-- The literal text between the previous sibling, or the start of the container, and the node. -/
  lead : Text
  /-- Where the node stands in the source. -/
  span : Span
  /-- An ignore pragma precedes the node. -/
  ignored : Bool
deriving DecidableEq, Repr, Inhabited

/-- An action that opens, divides or closes a block. -/
structure Leaf where
  id : Nat
  text : Text
  span : Span
  action : Action
deriving DecidableEq, Repr, Inhabited

/-- What a token of the template is, and where it stands. -/
inductive Mark where
  | action (span : Span) (action : Action)
  | raw (span : Span)
deriving DecidableEq, Repr

/-- The mark of an opening or closing action. -/
def Leaf.mark (l : Leaf) : Mark := .action l.span l.action

/-- What surrounds the children of a block. -/
structure Frame where
  /-- The keyword of the opening action. -/
  keyword : Keyword
  /-- The opening action. -/
  start : Leaf
  /-- The literal text after the last child. -/
  tail : Text
  /-- The closing action; there is none where the `else` of the next branch closes the block. -/
  stop : Option Leaf
  /-- The block is a branch of a chain. -/
  branch : Bool
deriving DecidableEq, Repr, Inhabited

/-- A node of a template tree. -/
inductive Node where
  /-- An action that stands alone. -/
  | action (info : Info) (text : Text) (action : Action)
  /-- A raw region. -/
  | raw (info : Info) (text : Text)
  /-- A block and its children. -/
  | block (info : Info) (frame : Frame) (children : List Node)
  /-- A chain of branches, each of them a block. -/
  | chain (info : Info) (branches : List Node)
deriving Repr, Inhabited

namespace Node

/-- What the node has in common with all nodes. -/
def info : Node → Info
  | action info _ _ | raw info _ | block info _ _ | chain info _ => info

/-- The node with another pragma flag. -/
def setIgnored (ignored : Bool) : Node → Node
  | action info text act => action { info with ignored } text act
  | raw info text => raw { info with ignored } text
  | block info frame children => block { info with ignored } frame children
  | chain info branches => chain { info with ignored } branches

/-- The placeholder of the node. -/
def placeholder (stem : Text) (n : Node) : Text := Placeholder.token stem (n.info.id - 1)

mutual

/-- The source text of a node. -/
def text : Node → Text
  | action _ t _ => t
  | raw _ t => t
  | block _ frame children =>
    frame.start.text ++ spellAll children ++ frame.tail ++ (frame.stop.map Leaf.text).getD []
  | chain _ branches => spellAll branches

/-- The source text of siblings, with the literals before them. -/
def spellAll : List Node → Text
  | [] => []
  | n :: ns => n.info.lead ++ text n ++ spellAll ns

end

/-- The literals before the siblings, with a placeholder in place of each sibling. -/
def aliasAll (stem : Text) : List Node → Text
  | [] => []
  | n :: ns => n.info.lead ++ n.placeholder stem ++ aliasAll stem ns

mutual

/-- The actions and raw regions of a node, in source order. -/
def marks : Node → List Mark
  | action info _ act => [.action info.span act]
  | raw info _ => [.raw info.span]
  | block _ frame children =>
    Leaf.mark frame.start :: marksAll children ++ (frame.stop.map Leaf.mark).toList
  | chain _ branches => marksAll branches

/-- The actions and raw regions of siblings, in source order. -/
def marksAll : List Node → List Mark
  | [] => []
  | n :: ns => marks n ++ marksAll ns

end

end Node

/-- The literal content of a block. -/
def Frame.content (frame : Frame) (children : List Node) : Text :=
  Node.spellAll children ++ frame.tail

/-- The content of a block with its children replaced by placeholders. -/
def Frame.aliased (stem : Text) (frame : Frame) (children : List Node) : Text :=
  Node.aliasAll stem children ++ frame.tail

/-- Where the content of a block starts and ends. -/
def Frame.bounds (frame : Frame) (info : Info) : Nat × Nat :=
  (frame.start.span.stop, (frame.stop.map fun l => l.span.index).getD info.span.stop)

/-- A template, read into a tree. -/
structure Tree where
  /-- The template as it was given. -/
  source : Text
  /-- The stem of the nodes' placeholders. -/
  stem : Text
  /-- The nodes that no block encloses. -/
  children : List Node
  /-- The literal text after the last of them. -/
  tail : Text
deriving Repr, Inhabited

namespace Tree

/-- The whole template with its top nodes replaced by placeholders. -/
def aliased (t : Tree) : Text := Node.aliasAll t.stem t.children ++ t.tail

/-- The whole template as one span. -/
def span (t : Tree) : Span := ⟨0, Text.bytes t.source⟩

end Tree

end TemplateFormat
