import TemplateFormat.Proofs.Tree.Formed
import TemplateFormat.Proofs.Tree.Numbers

/-!
# The structure of a template

The `Shape` of a node is what is nested in what: blocks by keyword, chains with their branches,
actions that stand alone and raw regions, in order, without texts and places. A `Move` is what a
token does to the structure: it adds a leaf, or opens, divides or closes a block.

`Sketch` is the builder with shapes in place of nodes and moves in place of tokens. The builder
follows it (`sketch_step`), so the moves of a template decide whether it can be read and which
shape it has. Conversely a shape spells its moves (`Shape.moves`): a block of its own has an
opening and a closing move, a branch only the move it begins with, and a chain one closing move.

Results:
* `Builder.sketch_step`, `Builder.sketch_steps`: the builder follows the sketch.
* `outline_parse`: the shape of a template is the outline of its moves.
* `moves_parse`: the moves of a template are those that its shape spells.
-/

namespace TemplateFormat

/-! ## Shapes and moves -/

/-- What is nested in what. -/
inductive Shape where
  /-- An action that stands alone. -/
  | action
  /-- A raw region. -/
  | raw
  /-- A block with its keyword. -/
  | block (keyword : Keyword) (children : List Shape)
  /-- A chain of branches, each of them a block. -/
  | chain (branches : List Shape)
deriving Repr, Inhabited

namespace Node

mutual

/-- The shape of a node. -/
def shape : Node → Shape
  | .action _ _ _ => .action
  | .raw _ _ => .raw
  | .block _ frame children => .block frame.keyword (shapeAll children)
  | .chain _ branches => .chain (shapeAll branches)

/-- The shapes of siblings. -/
def shapeAll : List Node → List Shape
  | [] => []
  | n :: ns => shape n :: shapeAll ns

end

theorem shapeAll_eq_map (ns : List Node) : shapeAll ns = ns.map shape := by
  induction ns with
  | nil => rfl
  | cons n ns ih => rw [shapeAll, ih, List.map_cons]

theorem shape_setIgnored (ignored : Bool) (n : Node) : (n.setIgnored ignored).shape = n.shape := by
  cases n <;> simp only [setIgnored, shape]

end Node

/-- The shapes of the top nodes of a tree. -/
def Tree.shape (t : Tree) : List Shape := t.children.map Node.shape

/-- What a token does to the structure. -/
inductive Move where
  | raw
  | action
  | opens (keyword : Keyword)
  | divides
  | closes
deriving DecidableEq, Repr, Inhabited

/-- What an action with this keyword does. -/
def Keyword.move (k : Keyword) : Move :=
  if k.isCloser then .closes else if k = .elseKw then .divides else .opens k

/-- What an action does. -/
def Action.move (act : Action) : Move := (act.keyword.map Keyword.move).getD .action

/-- What the token does. -/
def Mark.move : Mark → Move
  | .action _ act => act.move
  | .raw _ => .raw

/-- What the token does. -/
def Token.move (t : Token) : Move := t.mark.move

theorem Keyword.move_of_isOpener {k : Keyword} (h : k.isOpener = true) : k.move = .opens k := by
  revert h
  cases k <;> decide

theorem Keyword.move_of_isCloser {k : Keyword} (h : k.isCloser = true) : k.move = .closes :=
  if_pos h

theorem Action.move_of_keyword {act : Action} {k : Keyword} (h : act.keyword = some k) :
    act.move = k.move := by
  rw [move, h]
  rfl

theorem Token.move_of_raw {t : Token} (h : t.kind = .raw) : t.move = .raw := by
  rw [move, mark, h]
  rfl

theorem Token.move_of_action {t : Token} {act : Action} (h : t.kind = .action act) :
    t.move = act.move := by
  rw [move, mark, h]
  rfl

/-! ## Reading moves -/

/-- An open block. -/
structure SketchLevel where
  /-- The finished branches, the latest first. -/
  branches : List Shape
  keyword : Keyword
  /-- The finished siblings of the block, the latest first. -/
  outer : List Shape

/-- A structure being read. -/
structure Sketch where
  /-- The finished children of the innermost open block, the latest first. -/
  children : List Shape
  /-- The open blocks, the innermost first. -/
  levels : List SketchLevel

namespace Sketch

/-- Nothing read. -/
def empty : Sketch := ⟨[], []⟩

/-- A block that is its level's last, or the chain that it ends. -/
def finish (branches : List Shape) (last : Shape) : Shape :=
  match branches with
  | [] => last
  | branches => .chain (last :: branches).reverse

/-- Takes one move. -/
def step (s : Sketch) : Move → Option Sketch
  | .raw => some ⟨.raw :: s.children, s.levels⟩
  | .action => some ⟨.action :: s.children, s.levels⟩
  | .opens k =>
    if maxDepth ≤ s.levels.length then none else some ⟨[], ⟨[], k, s.children⟩ :: s.levels⟩
  | .divides =>
    match s.levels with
    | [] => none
    | l :: ls =>
      some ⟨[], ⟨.block l.keyword s.children.reverse :: l.branches, .elseKw, l.outer⟩ :: ls⟩
  | .closes =>
    match s.levels with
    | [] => none
    | l :: ls => some ⟨finish l.branches (.block l.keyword s.children.reverse) :: l.outer, ls⟩

/-- Takes moves one after the other. -/
def steps : Sketch → List Move → Option Sketch
  | s, [] => some s
  | s, m :: ms => (s.step m).bind fun s' => steps s' ms

/-- What was read, if no block is open. -/
def shapes? (s : Sketch) : Option (List Shape) :=
  if s.levels.isEmpty then some s.children.reverse else none

end Sketch

/-- The shapes that moves describe. -/
def outline (ms : List Move) : Option (List Shape) := (Sketch.empty.steps ms).bind Sketch.shapes?

namespace Builder

/-- The level without texts and places. -/
def sketchLevel (level : Level) : SketchLevel :=
  ⟨level.branches.map Node.shape, level.keyword, level.outer.map Node.shape⟩

/-- The builder without texts and places. -/
def sketch (b : Builder) : Sketch := ⟨b.children.map Node.shape, b.levels.map sketchLevel⟩

theorem map_shape_attach (ns : List Node) (n : Node) :
    (attach ns n).map Node.shape = n.shape :: ns.map Node.shape := by
  rw [attach, List.map_cons, Node.shape_setIgnored]

theorem shape_closeBlock (level : Level) (lead : Text) (children : List Node) (tail : Text)
    (spanStop : Nat) (stop : Option Leaf) (branch : Bool) :
    (closeBlock level lead children tail spanStop stop branch).shape =
      .block level.keyword (children.map Node.shape).reverse := by
  rw [closeBlock, Node.shape, Node.shapeAll_eq_map, List.map_reverse]

theorem sketch_closeLevel (b : Builder) (level : Level) (outer : List Level) (t : Token)
    (act : Action) : (b.closeLevel level outer t act).sketch =
      ⟨Sketch.finish (level.branches.map Node.shape)
        (.block level.keyword (b.children.map Node.shape).reverse) :: level.outer.map Node.shape,
        outer.map sketchLevel⟩ := by
  unfold closeLevel
  split
  · rename_i hbranches
    rw [hbranches, sketch, map_shape_attach, shape_closeBlock]
    rfl
  · rename_i branches hne
    obtain ⟨first, rest, hcons⟩ := List.exists_cons_of_ne_nil hne
    rw [sketch, map_shape_attach, Node.shape, Node.shapeAll_eq_map, List.map_reverse, List.map_cons,
      shape_closeBlock, hcons]
    rfl

/-- **The builder follows the sketch**: a token fits where its move does. -/
theorem sketch_step (b : Builder) (t : Token) :
    (b.step t).toOption.map sketch = b.sketch.step t.move := by
  have hadv := step_advance b t
  generalize b.step t = r at hadv
  cases hadv with
  | raw hkind =>
    rw [Token.move_of_raw hkind]
    show some (sketch (b.addChild _)) = _
    rw [sketch, addChild, map_shape_attach, Node.shape]
    rfl
  | plain act hkind hk =>
    have hmove : act.move = .action := by
      rw [Action.move, hk]
      rfl
    rw [Token.move_of_action hkind, hmove]
    show some (sketch (b.addChild _)) = _
    rw [sketch, addChild, map_shape_attach, Node.shape]
    rfl
  | divide act level outer hkind hk hl =>
    rw [Token.move_of_action hkind, Action.move_of_keyword hk]
    show some (sketch (b.divideLevel level outer t act)) = b.sketch.step .divides
    rw [sketch, sketch, hl, Sketch.step]
    simp only [divideLevel, List.map_cons, List.map_nil, sketchLevel, shape_closeBlock]
  | close act k level outer hkind hk hc hl =>
    rw [Token.move_of_action hkind, Action.move_of_keyword hk, Keyword.move_of_isCloser hc]
    show some (sketch (b.closeLevel level outer t act)) = _
    rw [sketch_closeLevel, sketch, hl]
    rfl
  | start act k hkind hk ho hd =>
    rw [Token.move_of_action hkind, Action.move_of_keyword hk, Keyword.move_of_isOpener ho]
    show some (sketch (b.openLevel t k act)) = _
    have hroom : ¬ maxDepth ≤ b.sketch.levels.length := by
      rw [sketch, List.length_map]
      omega
    rw [Sketch.step, if_neg hroom]
    rfl
  | strayElse act hkind hk hl =>
    rw [Token.move_of_action hkind, Action.move_of_keyword hk, sketch, hl]
    rfl
  | strayEnd act k hkind hk hc hl =>
    rw [Token.move_of_action hkind, Action.move_of_keyword hk, Keyword.move_of_isCloser hc, sketch,
      hl]
    rfl
  | tooDeep act k hkind hk ho hd =>
    have hfull : maxDepth ≤ b.sketch.levels.length := by
      rw [sketch, List.length_map]
      exact hd
    rw [Token.move_of_action hkind, Action.move_of_keyword hk, Keyword.move_of_isOpener ho,
      Sketch.step, if_pos hfull]
    rfl

/-- **A run of the builder follows the run of the sketch.** -/
theorem sketch_steps (ts : List Token) (b : Builder) :
    (b.steps ts).toOption.map sketch = b.sketch.steps (ts.map Token.move) := by
  induction ts generalizing b with
  | nil => rfl
  | cons t ts ih =>
    have hstep := sketch_step b t
    rw [steps, List.map_cons, Sketch.steps, ← hstep]
    cases b.step t with
    | error e => rfl
    | ok b' => exact ih b'

end Builder

/-- **The shape of a template is the outline of its moves**; without one it cannot be read. -/
theorem outline_parse (source : Text) :
    (parse source).toOption.map Tree.shape = outline ((scan source).tokens.map Token.move) := by
  have hsteps := Builder.sketch_steps (scan source).tokens Builder.empty
  rw [outline, show Sketch.empty = Builder.empty.sketch from rfl, ← hsteps]
  unfold parse
  cases hs : Builder.empty.steps (scan source).tokens with
  | error e => simp only [hs]; rfl
  | ok b =>
    simp only [hs]
    show _ = Sketch.shapes? b.sketch
    cases hl : b.levels with
    | cons level outer =>
      simp [hl, Sketch.shapes?, Builder.sketch, Except.toOption]
    | nil =>
      simp [hl, Sketch.shapes?, Builder.sketch, Except.toOption, Tree.shape]

/-! ## The moves of a shape -/

namespace Shape

mutual

/-- The moves that a shape stands for. -/
def moves : Shape → List Move
  | .action => [.action]
  | .raw => [.raw]
  | .block k children => k.move :: (movesAll children ++ [.closes])
  | .chain branches => branchMoves branches ++ [.closes]

/-- The moves of siblings. -/
def movesAll : List Shape → List Move
  | [] => []
  | s :: ss => moves s ++ movesAll ss

/-- The moves of branches, up to the one that closes the last. -/
def branchMoves : List Shape → List Move
  | [] => []
  | .block k children :: ss => k.move :: (movesAll children ++ branchMoves ss)
  | _ :: ss => branchMoves ss

end

theorem branchMoves_append (ss ts : List Shape) :
    branchMoves (ss ++ ts) = branchMoves ss ++ branchMoves ts := by
  induction ss with
  | nil => simp [branchMoves]
  | cons s ss ih =>
    rw [List.cons_append]
    cases s <;> simp [branchMoves, ih]

end Shape

namespace Node

open Shape

/-- What stands in a block has the moves of its shapes, and so has a node that is no block. -/
def Spelled : Node → Prop
  | .block _ _ children => (marksAll children).map Mark.move = movesAll (shapeAll children)
  | n => n.marks.map Mark.move = n.shape.moves

/-- **The moves of a block** from those of its children. -/
theorem moves_block {info : Info} {frame : Frame} {children : List Node} (hf : frame.Formed)
    (hs : (block info frame children).Spelled) :
    (block info frame children).marks.map Mark.move = frame.keyword.move ::
      (movesAll (shapeAll children) ++ if frame.stop.isSome then [.closes] else []) := by
  have hstart : frame.start.mark.move = frame.keyword.move := Action.move_of_keyword hf.start
  have hchildren : (marksAll children).map Mark.move = movesAll (shapeAll children) := hs
  rw [marks, List.cons_append, List.map_cons, List.map_append, hstart, hchildren]
  cases hstop : frame.stop with
  | none => rfl
  | some l =>
    obtain ⟨k, hk, hcloser⟩ := hf.stop l hstop
    have hl : l.mark.move = .closes :=
      (Action.move_of_keyword hk).trans (Keyword.move_of_isCloser hcloser)
    simp [hl]

theorem moves_of_whole {n : Node} (hf : n.Formed) (hw : n.Whole) (hs : n.Spelled) :
    n.marks.map Mark.move = n.shape.moves := by
  cases n with
  | action info t act => exact hs
  | raw info t => exact hs
  | chain info branches => exact hs
  | block info frame children =>
    rw [moves_block hf.1 hs, if_pos hw.2.1, shape, moves]

theorem moves_of_wholeAll {ns : List Node} (h : ∀ n ∈ ns, n.marks.map Mark.move = n.shape.moves) :
    (marksAll ns).map Mark.move = movesAll (shapeAll ns) := by
  induction ns with
  | nil => rfl
  | cons n ns ih =>
    rw [List.forall_mem_cons] at h
    rw [marksAll, List.map_append, h.1, ih h.2, shapeAll, movesAll]

/-- **The moves of a branch**: only the last has one that closes. -/
theorem moves_branch {first last : Bool} {n : Node} (hb : n.IsBranch first last) (hf : n.Formed)
    (hs : n.Spelled) :
    n.marks.map Mark.move = branchMoves [n.shape] ++ if last then [.closes] else [] := by
  cases n with
  | action info t act => exact hb.elim
  | raw info t => exact hb.elim
  | chain info branches => exact hb.elim
  | block info frame children =>
    obtain ⟨-, -, rfl⟩ := hb
    rw [moves_block hf.1 hs, shape, branchMoves, branchMoves, List.append_nil, List.cons_append]

theorem moves_branches {ns : List Node}
    (h : ∀ n ∈ ns, n.marks.map Mark.move = branchMoves [n.shape]) :
    (marksAll ns).map Mark.move = branchMoves (shapeAll ns) := by
  induction ns with
  | nil => rfl
  | cons n ns ih =>
    rw [List.forall_mem_cons] at h
    rw [marksAll, List.map_append, h.1, ih h.2, shapeAll, ← branchMoves_append, List.singleton_append]

/-- **The moves of a chain.** -/
theorem moves_chain {branches : List Node} (h : IsChain branches) (hf : ∀ n ∈ branches, n.Formed)
    (hs : ∀ n ∈ branches, n.Spelled) :
    (marksAll branches).map Mark.move = branchMoves (shapeAll branches) ++ [.closes] := by
  obtain ⟨first, mid, last, rfl, hfirst, hmid, hlast⟩ := h
  rw [← List.cons_append] at hf hs ⊢
  rw [List.forall_mem_append, List.forall_mem_singleton] at hf hs
  have hopen : ∀ n ∈ first :: mid, n.marks.map Mark.move = branchMoves [n.shape] := by
    intro n hn
    have hbranch : ∃ isFirst, n.IsBranch isFirst false := by
      rcases List.mem_cons.mp hn with rfl | hn
      · exact ⟨true, hfirst⟩
      · exact ⟨false, hmid n hn⟩
    obtain ⟨isFirst, hbranch⟩ := hbranch
    simpa using moves_branch hbranch (hf.1 n hn) (hs.1 n hn)
  have hclose := moves_branch hlast hf.2 hs.2
  rw [if_pos rfl] at hclose
  rw [marksAll_append, marksAll_singleton, List.map_append, moves_branches hopen, hclose,
    shapeAll_eq_map, shapeAll_eq_map, List.map_append, branchMoves_append, List.append_assoc]
  rfl

mutual

/-- **The moves of a formed node are those that its shape spells.** -/
theorem spelled_of_formed : ∀ {n : Node}, n.Formed → n.Spelled
  | .action info t act, h => by
    have hmove : act.move = .action := by
      rw [Action.move, show act.keyword = none from h]
      rfl
    show (action info t act).marks.map Mark.move = (action info t act).shape.moves
    rw [marks, shape, moves, List.map_singleton, Mark.move, hmove]
  | .raw info t, _ => by
    show (raw info t).marks.map Mark.move = (raw info t).shape.moves
    rw [marks, shape, moves, List.map_singleton, Mark.move]
  | .block info frame children, ⟨_, hwhole, hchildren⟩ => by
    have hspelled := spelled_of_formedAll hchildren
    rw [formedAll_iff] at hchildren
    exact moves_of_wholeAll fun n hn =>
      moves_of_whole (hchildren n hn) (hwhole n hn) (hspelled n hn)
  | .chain info branches, ⟨hchain, hbranches⟩ => by
    have hspelled := spelled_of_formedAll hbranches
    rw [formedAll_iff] at hbranches
    show (chain info branches).marks.map Mark.move = (chain info branches).shape.moves
    rw [marks, shape, moves, moves_chain hchain hbranches hspelled]

/-- The same for siblings. -/
theorem spelled_of_formedAll : ∀ {ns : List Node}, FormedAll ns → ∀ n ∈ ns, n.Spelled
  | [], _ => by simp
  | n :: ns, ⟨hn, hns⟩ =>
    List.forall_mem_cons.mpr ⟨spelled_of_formed hn, spelled_of_formedAll hns⟩

end

end Node

/-- **The moves of a template are those that its shape spells.** -/
theorem moves_parse {source : Text} {tree : Tree} (h : parse source = .ok tree) :
    (scan source).tokens.map Token.move = Shape.movesAll tree.shape := by
  obtain ⟨hformed, hwhole⟩ := parse_formed h
  have hmoves := congrArg (List.map Mark.move) (parse_marks h)
  rw [List.map_map] at hmoves
  rw [show Token.move = Mark.move ∘ Token.mark from rfl, ← hmoves, Tree.shape,
    ← Node.shapeAll_eq_map]
  exact Node.moves_of_wholeAll fun n hn =>
    Node.moves_of_whole (hformed n hn) (hwhole n hn) (Node.spelled_of_formed (hformed n hn))

/-- **Two templates have the same structure exactly if they have the same moves.** The first can be
read; the second then can be read with the same shape, or its moves are others. -/
theorem shape_eq_iff {source other : Text} {tree : Tree} (h : parse source = .ok tree) :
    (∃ tree', parse other = .ok tree' ∧ tree'.shape = tree.shape) ↔
      (scan other).tokens.map Token.move = (scan source).tokens.map Token.move := by
  constructor
  · rintro ⟨tree', hother, hshape⟩
    rw [moves_parse hother, moves_parse h, hshape]
  · intro hmoves
    have hother := outline_parse other
    rw [hmoves, ← outline_parse source, h] at hother
    cases hp : parse other with
    | error e =>
      rw [hp] at hother
      exact absurd hother (by simp [Except.toOption])
    | ok tree' =>
      rw [hp] at hother
      exact ⟨tree', rfl, Option.some.inj hother⟩

end TemplateFormat
