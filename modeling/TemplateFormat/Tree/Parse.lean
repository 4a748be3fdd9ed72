import TemplateFormat.Tree.Pragma
import TemplateFormat.Error

/-!
# Reading a template into a tree

`Builder.step` takes one token. An opening action starts a level; an `else` action closes the current
branch of the level and starts the next one; a closing action ends the level, and its block, or its
chain of branches, becomes a child of the level around it.

`parse` fails at the first token that does not fit: a closing or an `else` action with no level open,
or an opening action with `maxDepth` levels open. A level left open at the end fails last.
-/

namespace TemplateFormat

/-- The number of blocks that may be open at a time. -/
def maxDepth : Nat := 256

/-- A block that is open. -/
structure Level where
  /-- The literal before the block, or before the first branch of its chain. -/
  lead : Text
  /-- Where the block, or its chain, starts. -/
  index : Nat
  /-- The finished branches of the chain, the latest first. -/
  branches : List Node
  /-- The number of the block, or of its current branch. -/
  id : Nat
  /-- The keyword of its opening action. -/
  keyword : Keyword
  /-- Its opening action. -/
  start : Leaf
  /-- The finished siblings of the block, the latest first. -/
  outer : List Node
deriving Repr, Inhabited

/-- A tree being read. -/
structure Builder where
  /-- The number of the next node. -/
  next : Nat
  /-- The finished children of the innermost open container, the latest first. -/
  children : List Node
  /-- The open blocks, the innermost first. -/
  levels : List Level
deriving Repr, Inhabited

namespace Builder

/-- Nothing read. -/
def empty : Builder := ⟨1, [], []⟩

/-- Adds a finished node to the siblings before it, the latest first. -/
def attach (siblings : List Node) (n : Node) : List Node :=
  n.setIgnored (Pragma.precedes siblings.head? n) :: siblings

/-- The block of a level, closed by `stop`, or else by the next branch. -/
def closeBlock (level : Level) (lead : Text) (children : List Node) (tail : Text) (spanStop : Nat)
    (stop : Option Leaf) (branch : Bool) : Node :=
  .block ⟨level.id, lead, Span.ofBounds level.start.span.index spanStop, false⟩
    ⟨level.keyword, level.start, tail, stop, branch⟩ children.reverse

/-- Starts a block with the opening action `t`. -/
def openLevel (b : Builder) (t : Token) (keyword : Keyword) (act : Action) : Builder :=
  { next := b.next + 2
    children := []
    levels := ⟨t.lead, t.span.index, [], b.next, keyword, ⟨b.next + 1, t.text, t.span, act⟩,
      b.children⟩ :: b.levels }

/-- Ends the current branch of `level` and starts the next one. -/
def divideLevel (b : Builder) (level : Level) (levels : List Level) (t : Token) (act : Action) :
    Builder :=
  let branch := closeBlock level [] b.children t.lead t.span.index none true
  { next := b.next + 2
    children := []
    levels := { level with
      branches := branch :: level.branches
      id := b.next
      keyword := .elseKw
      start := ⟨b.next + 1, t.text, t.span, act⟩ } :: levels }

/-- Ends `level` with the closing action `t`. -/
def closeLevel (b : Builder) (level : Level) (levels : List Level) (t : Token) (act : Action) :
    Builder :=
  let stop : Leaf := ⟨b.next, t.text, t.span, act⟩
  match level.branches with
  | [] =>
    let n := closeBlock level level.lead b.children t.lead t.span.stop (some stop) false
    { next := b.next + 1, children := attach level.outer n, levels := levels }
  | branches =>
    let last := closeBlock level [] b.children t.lead t.span.stop (some stop) true
    let n := Node.chain ⟨b.next + 1, level.lead, Span.ofBounds level.index t.span.stop, false⟩
      (last :: branches).reverse
    { next := b.next + 2, children := attach level.outer n, levels := levels }

/-- Adds a node that is one token. -/
def addChild (b : Builder) (n : Node) : Builder :=
  { b with next := b.next + 1, children := attach b.children n }

/-- Takes one token. -/
def step (b : Builder) (t : Token) : Except FormatError Builder :=
  let info : Info := ⟨b.next, t.lead, t.span, false⟩
  match t.kind with
  | .raw => .ok (b.addChild (.raw info t.text))
  | .action act =>
    match act.keyword, b.levels with
    | none, _ => .ok (b.addChild (.action info t.text act))
    | some .elseKw, [] => .error (.unexpectedElse t.span)
    | some .elseKw, level :: levels => .ok (b.divideLevel level levels t act)
    | some keyword, levels =>
      if keyword.isCloser then
        match levels with
        | [] => .error (.unexpectedEnd keyword t.span)
        | level :: outer => .ok (b.closeLevel level outer t act)
      else if maxDepth ≤ levels.length then .error (.nestingTooDeep maxDepth t.span)
      else .ok (b.openLevel t keyword act)

/-- Takes tokens one after the other, up to the first that does not fit. -/
def steps : Builder → List Token → Except FormatError Builder
  | b, [] => .ok b
  | b, t :: ts =>
    match b.step t with
    | .ok b' => steps b' ts
    | .error e => .error e

end Builder

/-- Reads a template into a tree. -/
def parse (source : Text) : Except FormatError Tree :=
  let s := scan source
  match Builder.empty.steps s.tokens with
  | .error e => .error e
  | .ok b =>
    match b.levels with
    | [] => .ok ⟨source, Placeholder.stem source, b.children.reverse, s.tail⟩
    | level :: _ => .error (.unterminatedBlock level.keyword level.start.span)

end TemplateFormat
