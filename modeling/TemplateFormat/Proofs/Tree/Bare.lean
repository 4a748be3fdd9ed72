import TemplateFormat.Proofs.Tree.Step

/-!
# Trees without texts and places

How an action is spelled and where it stands does not matter for the structure of a tree. A node is
`bare` without the texts and the spans in it: what is left are its number, the literals, the actions
as they are read, and the pragma flags. The builder reads bare tokens as it reads tokens, and builds
the bare tree. So two templates whose tokens differ in texts and spans only are read alike: either
both have a tree, and the bare trees are the same, or both fail with errors that differ in their
place only.

Results:
* `Builder.step_bare`, `Builder.steps_bare`: a step, and a run, over bare tokens.
* `parse_bare`: templates with the same bare tokens are read alike.
-/

namespace TemplateFormat

/-- No place at all. -/
def Span.zero : Span := ⟨0, 0⟩

/-- Without its place. -/
def Info.bare (i : Info) : Info := { i with span := .zero }

/-- Without its text and place. -/
def Leaf.bare (l : Leaf) : Leaf := { l with text := [], span := .zero }

/-- Without the texts and places of its actions. -/
def Frame.bare (f : Frame) : Frame := { f with start := f.start.bare, stop := f.stop.map Leaf.bare }

/-- Without its text and place. -/
def Token.bare (t : Token) : Token := { t with text := [], span := .zero }

/-- Without its place. -/
def FormatError.bare : FormatError → FormatError
  | .unterminatedBlock keyword _ => .unterminatedBlock keyword .zero
  | .unexpectedEnd keyword _ => .unexpectedEnd keyword .zero
  | .unexpectedElse _ => .unexpectedElse .zero
  | .missingStatement _ => .missingStatement .zero
  | .nestingTooDeep limit _ => .nestingTooDeep limit .zero
  | .embedFailure message _ => .embedFailure message none
  | .config reason => .config reason
  | .io reason => .io reason

theorem Info.eq_of_bare {i j : Info} (h : i.bare = j.bare) :
    i.id = j.id ∧ i.lead = j.lead ∧ i.ignored = j.ignored := by
  obtain ⟨hid, hlead, -, hignored⟩ := Info.mk.inj h
  exact ⟨hid, hlead, hignored⟩

theorem Leaf.action_eq_of_bare {l m : Leaf} (h : l.bare = m.bare) : l.action = m.action := by
  obtain ⟨-, -, -, haction⟩ := Leaf.mk.inj h
  exact haction

/-- What frames that are bare alike have in common. -/
structure Frame.Same (f g : Frame) : Prop where
  keyword : f.keyword = g.keyword
  start : f.start.action = g.start.action
  tail : f.tail = g.tail
  stop : f.stop.map Leaf.bare = g.stop.map Leaf.bare
  branch : f.branch = g.branch

theorem Frame.same_of_bare {f g : Frame} (h : f.bare = g.bare) : f.Same g := by
  obtain ⟨hkeyword, hstart, htail, hstop, hbranch⟩ := Frame.mk.inj h
  exact ⟨hkeyword, Leaf.action_eq_of_bare hstart, htail, hstop, hbranch⟩

namespace Node

mutual

/-- Without the texts and places in it. -/
def bare : Node → Node
  | .action info _ act => .action info.bare [] act
  | .raw info _ => .raw info.bare []
  | .block info frame children => .block info.bare frame.bare (bareAll children)
  | .chain info branches => .chain info.bare (bareAll branches)

/-- Siblings without the texts and places in them. -/
def bareAll : List Node → List Node
  | [] => []
  | n :: ns => bare n :: bareAll ns

end

theorem bareAll_eq_map (ns : List Node) : bareAll ns = ns.map bare := by
  induction ns with
  | nil => rw [bareAll, List.map_nil]
  | cons n ns ih => rw [bareAll, ih, List.map_cons]

@[simp] theorem info_bare (n : Node) : n.bare.info = n.info.bare := by
  cases n <;> simp only [bare, info]

/-- What is bare like an action is that action, in another spelling. -/
theorem eq_action_of_bare {info : Info} {t : Text} {act : Action} {n : Node}
    (h : (action info t act).bare = n.bare) :
    ∃ info' t', n = action info' t' act ∧ info.bare = info'.bare := by
  cases n with
  | action info' t' act' =>
    rw [bare, bare] at h
    obtain ⟨hinfo, -, rfl⟩ := action.inj h
    exact ⟨info', t', rfl, hinfo⟩
  | raw info' t' => exact absurd h (by simp [bare])
  | block info' frame' children' => exact absurd h (by simp [bare])
  | chain info' branches' => exact absurd h (by simp [bare])

/-- What is bare like a block is a block with alike parts. -/
theorem eq_block_of_bare {info : Info} {frame : Frame} {children : List Node} {n : Node}
    (h : (block info frame children).bare = n.bare) :
    ∃ info' frame' children', n = block info' frame' children' ∧ info.bare = info'.bare ∧
      frame.Same frame' ∧ bareAll children = bareAll children' := by
  cases n with
  | block info' frame' children' =>
    rw [bare, bare] at h
    obtain ⟨hinfo, hframe, hchildren⟩ := block.inj h
    exact ⟨info', frame', children', rfl, hinfo, Frame.same_of_bare hframe, hchildren⟩
  | action info' t' act' => exact absurd h (by simp [bare])
  | raw info' t' => exact absurd h (by simp [bare])
  | chain info' branches' => exact absurd h (by simp [bare])

/-- What is bare like a chain is a chain with alike branches. -/
theorem eq_chain_of_bare {info : Info} {branches : List Node} {n : Node}
    (h : (chain info branches).bare = n.bare) :
    ∃ info' branches', n = chain info' branches' ∧ info.bare = info'.bare ∧
      bareAll branches = bareAll branches' := by
  cases n with
  | chain info' branches' =>
    rw [bare, bare] at h
    obtain ⟨hinfo, hbranches⟩ := chain.inj h
    exact ⟨info', branches', rfl, hinfo, hbranches⟩
  | action info' t' act' => exact absurd h (by simp [bare])
  | raw info' t' => exact absurd h (by simp [bare])
  | block info' frame' children' => exact absurd h (by simp [bare])

/-- Siblings that are bare like others have one for each of them. -/
theorem eq_cons_of_bareAll {n : Node} {ns ms : List Node} (h : bareAll (n :: ns) = bareAll ms) :
    ∃ m ms', ms = m :: ms' ∧ n.bare = m.bare ∧ bareAll ns = bareAll ms' := by
  cases ms with
  | nil => exact absurd h (by simp [bareAll])
  | cons m ms' =>
    rw [bareAll, bareAll] at h
    obtain ⟨hn, hns⟩ := List.cons.inj h
    exact ⟨m, ms', rfl, hn, hns⟩

theorem info_eq_of_bare {n m : Node} (h : n.bare = m.bare) :
    n.info.id = m.info.id ∧ n.info.lead = m.info.lead := by
  have hinfo := congrArg Node.info h
  rw [info_bare, info_bare] at hinfo
  obtain ⟨hid, hlead, -⟩ := Info.eq_of_bare hinfo
  exact ⟨hid, hlead⟩

theorem eq_nil_of_bareAll {ms : List Node} (h : bareAll [] = bareAll ms) : ms = [] := by
  cases ms with
  | nil => rfl
  | cons m ms => exact absurd h (by simp [bareAll])

theorem setIgnored_bare (ignored : Bool) (n : Node) :
    n.bare.setIgnored ignored = (n.setIgnored ignored).bare := by
  cases n <;> simp only [bare, setIgnored, Info.bare]

end Node

theorem Pragma.precedes_bare (previous : Option Node) (n : Node) :
    precedes (previous.map Node.bare) n.bare = precedes previous n := by
  have hpragma (m : Node) : isPragma m.bare = isPragma m := by
    cases m <;> simp only [Node.bare, isPragma]
  have hany : (previous.map Node.bare).any isPragma = previous.any isPragma := by
    cases previous with
    | none => rfl
    | some m => exact hpragma m
  cases n <;> simp only [Node.bare, precedes, Node.info, Info.bare, hany]

/-- Without the texts and places of its nodes. -/
def Level.bare (l : Level) : Level :=
  { l with
    index := 0
    branches := l.branches.map Node.bare
    start := l.start.bare
    outer := l.outer.map Node.bare }

namespace Builder

/-- Without the texts and places of what was read. -/
def bare (b : Builder) : Builder := ⟨b.next, b.children.map Node.bare, b.levels.map Level.bare⟩

/-- The result of a step without texts and places. -/
def bareResult : Except FormatError Builder → Except FormatError Builder
  | .ok b => .ok b.bare
  | .error e => .error e.bare

theorem attach_bare (siblings : List Node) (n : Node) :
    attach (siblings.map Node.bare) n.bare = (attach siblings n).map Node.bare := by
  rw [attach, attach, List.head?_map, Pragma.precedes_bare, Node.setIgnored_bare, List.map_cons]

theorem addChild_bare (b : Builder) (n : Node) : b.bare.addChild n.bare = (b.addChild n).bare := by
  simp only [addChild, bare, attach_bare]

theorem closeBlock_bare (level : Level) (lead : Text) (children : List Node) (tail : Text)
    (spanStop : Nat) (stop : Option Leaf) (branch : Bool) :
    closeBlock level.bare lead (children.map Node.bare) tail 0 (stop.map Leaf.bare) branch =
      (closeBlock level lead children tail spanStop stop branch).bare := by
  simp only [closeBlock, Node.bare, Node.bareAll_eq_map, List.map_reverse]
  rfl

theorem divideLevel_bare (b : Builder) (level : Level) (levels : List Level) (t : Token)
    (act : Action) : b.bare.divideLevel level.bare (levels.map Level.bare) t.bare act =
      (b.divideLevel level levels t act).bare := by
  have hblock := closeBlock_bare level [] b.children t.lead t.span.index none true
  simp only [divideLevel, bare, List.map_cons, List.map_nil]
  congr 2
  simp only [Level.bare, List.map_cons, ← hblock]
  rfl

theorem closeLevel_bare (b : Builder) (level : Level) (levels : List Level) (t : Token)
    (act : Action) : b.bare.closeLevel level.bare (levels.map Level.bare) t.bare act =
      (b.closeLevel level levels t act).bare := by
  have hblock (lead : Text) (branch : Bool) := closeBlock_bare level lead b.children t.lead
    t.span.stop (some ⟨b.next, t.text, t.span, act⟩) branch
  unfold closeLevel
  have hbranches : level.bare.branches = level.branches.map Node.bare := rfl
  cases h : level.branches with
  | nil =>
    simp only [hbranches, h, List.map_nil, bare, ← attach_bare, ← hblock]
    rfl
  | cons branch branches =>
    simp only [hbranches, h, List.map_cons, bare, ← attach_bare, Node.bare, Node.bareAll_eq_map,
      List.map_reverse, List.map_cons, ← hblock]
    rfl

/-- **A step over a bare token.** -/
theorem step_bare (b : Builder) (t : Token) : b.bare.step t.bare = bareResult (b.step t) := by
  have hkind : t.bare.kind = t.kind := rfl
  have hlevels : b.bare.levels = b.levels.map Level.bare := rfl
  unfold step
  simp only [hkind]
  split
  · exact congrArg Except.ok (addChild_bare b (.raw ⟨b.next, t.lead, t.span, false⟩ t.text))
  · rename_i act _
    have hopen (k : Keyword) :
        (if maxDepth ≤ b.bare.levels.length then .error (.nestingTooDeep maxDepth t.bare.span)
          else .ok (b.bare.openLevel t.bare k act)) =
        bareResult (if maxDepth ≤ b.levels.length then .error (.nestingTooDeep maxDepth t.span)
          else .ok (b.openLevel t k act)) := by
      rw [hlevels, List.length_map]
      split <;> rfl
    cases hk : act.keyword with
    | none =>
      exact congrArg Except.ok
        (addChild_bare b (.action ⟨b.next, t.lead, t.span, false⟩ t.text act))
    | some k =>
      rw [hlevels] at hopen ⊢
      cases hl : b.levels with
      | nil =>
        rw [hl] at hopen
        cases k with
        | elseKw => rfl
        | endKw => rfl
        | ignoreEndKw => rfl
        | _ => exact hopen _
      | cons level outer =>
        rw [hl] at hopen
        -- all other keywords open a level, whatever is open
        cases k with
        | elseKw => exact congrArg Except.ok (divideLevel_bare b level outer t act)
        | endKw => exact congrArg Except.ok (closeLevel_bare b level outer t act)
        | ignoreEndKw => exact congrArg Except.ok (closeLevel_bare b level outer t act)
        | _ => exact hopen _

/-- **A run over bare tokens.** -/
theorem steps_bare (b : Builder) (ts : List Token) :
    b.bare.steps (ts.map Token.bare) = bareResult (b.steps ts) := by
  induction ts generalizing b with
  | nil => rfl
  | cons t ts ih =>
    rw [List.map_cons, steps, steps, step_bare]
    cases b.step t with
    | error e => rfl
    | ok b' => exact ih b'

end Builder

/-- **Templates with the same bare tokens are read alike.** -/
theorem parse_bare {source source' : Text}
    (h : (scan source).tokens.map Token.bare = (scan source').tokens.map Token.bare) :
    (∃ tree tree', parse source = .ok tree ∧ parse source' = .ok tree' ∧
        Node.bareAll tree.children = Node.bareAll tree'.children) ∨
      ∃ e e', parse source = .error e ∧ parse source' = .error e' ∧ e.bare = e'.bare := by
  have hsteps := Builder.steps_bare .empty (scan source).tokens
  rw [h, Builder.steps_bare] at hsteps
  cases hr : Builder.empty.steps (scan source).tokens with
  | error e =>
    cases hr' : Builder.empty.steps (scan source').tokens with
    | error e' =>
      rw [hr, hr'] at hsteps
      exact .inr ⟨e, e', by simp only [parse, hr], by simp only [parse, hr'],
        (Except.error.inj hsteps).symm⟩
    | ok b' =>
      rw [hr, hr'] at hsteps
      exact absurd hsteps (by simp [Builder.bareResult])
  | ok b =>
    cases hr' : Builder.empty.steps (scan source').tokens with
    | error e' =>
      rw [hr, hr'] at hsteps
      exact absurd hsteps (by simp [Builder.bareResult])
    | ok b' =>
      rw [hr, hr'] at hsteps
      obtain ⟨-, hchildren, hlevels⟩ := Builder.mk.inj (Except.ok.inj hsteps)
      cases hl : b.levels with
      | nil =>
        rw [hl] at hlevels
        have hl' : b'.levels = [] := List.map_eq_nil_iff.mp hlevels
        refine .inl ⟨_, _, by simp only [parse, hr, hl]; rfl,
          by simp only [parse, hr', hl']; rfl, ?_⟩
        simp only [Node.bareAll_eq_map, List.map_reverse, hchildren]
      | cons level outer =>
        rw [hl, List.map_cons] at hlevels
        obtain ⟨level', outer', hl', hlevel, -⟩ := List.map_eq_cons_iff.mp hlevels
        refine .inr ⟨_, _, by simp only [parse, hr, hl]; rfl,
          by simp only [parse, hr', hl']; rfl, ?_⟩
        exact congrArg (FormatError.unterminatedBlock · .zero) (congrArg Level.keyword hlevel).symm

end TemplateFormat
