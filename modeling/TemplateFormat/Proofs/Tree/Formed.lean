import TemplateFormat.Proofs.Tree.Container
import TemplateFormat.Proofs.Tree.Step

/-!
# How the blocks of a tree are opened, divided and closed

A block outside a chain is opened by a keyword that opens blocks and has a closing action. A chain
has two branches or more: the first is opened, all others begin with `else`, and only the last has
a closing action. `Node.Formed` says this of a node and everything in it. A level of the builder is
a block or chain that is not finished: what it has so far is the beginning of one that is
(`Builder.LevelFormed`).

Results:
* `formed_step`, `formed_steps`: a step keeps this of the builder, and so does a run.
* `parse_formed`: it holds of the tree of a template.
-/

namespace TemplateFormat

/-- The opening action of a block has its keyword, and the closing action a keyword that closes
blocks. -/
structure Frame.Formed (frame : Frame) : Prop where
  start : frame.start.action.keyword = some frame.keyword
  stop : ∀ l ∈ frame.stop, ∃ k, l.action.keyword = some k ∧ k.isCloser = true

namespace Node

/-- If the node is a block, it is one outside a chain: opened and closed by actions of its own. -/
def Whole : Node → Prop
  | .block _ frame _ =>
    frame.keyword.isOpener = true ∧ frame.stop.isSome = true ∧ frame.branch = false
  | _ => True

/-- The node is a branch of a chain. The first branch has the keyword of the chain and the others
have `else`; the last one is closed by an action and the others by the next branch. -/
def IsBranch (first last : Bool) : Node → Prop
  | .block _ frame _ => frame.branch = true ∧
    (if first then frame.keyword.isOpener = true else frame.keyword = .elseKw) ∧
      frame.stop.isSome = last
  | _ => False

/-- The branches of a chain: the first, those between, and the last. -/
def IsChain (branches : List Node) : Prop :=
  ∃ first mid last, branches = first :: (mid ++ [last]) ∧ first.IsBranch true false ∧
    (∀ n ∈ mid, n.IsBranch false false) ∧ last.IsBranch false true

mutual

/-- The blocks and chains in the node are opened, divided and closed as they should. -/
def Formed : Node → Prop
  | .action _ _ act => act.keyword = none
  | .raw _ _ => True
  | .block _ frame children => frame.Formed ∧ (∀ n ∈ children, n.Whole) ∧ FormedAll children
  | .chain _ branches => IsChain branches ∧ FormedAll branches

/-- All the nodes are formed. -/
def FormedAll : List Node → Prop
  | [] => True
  | n :: ns => Formed n ∧ FormedAll ns

end

theorem formedAll_iff {ns : List Node} : FormedAll ns ↔ ∀ n ∈ ns, n.Formed := by
  induction ns with
  | nil => simp [FormedAll]
  | cons n ns ih => rw [FormedAll, ih, List.forall_mem_cons]

theorem formed_setIgnored (ignored : Bool) (n : Node) : (n.setIgnored ignored).Formed ↔ n.Formed := by
  cases n <;> simp only [setIgnored, Formed]

theorem whole_setIgnored (ignored : Bool) (n : Node) : (n.setIgnored ignored).Whole ↔ n.Whole := by
  cases n <;> exact Iff.rfl

end Node

namespace Builder

open Node

/-! ## The invariant -/

/-- Finished children of a container, in any order. -/
structure FormedChildren (ns : List Node) : Prop where
  formed : ∀ n ∈ ns, n.Formed
  whole : ∀ n ∈ ns, n.Whole

theorem formedChildren_nil : FormedChildren [] := ⟨by simp, by simp⟩

theorem FormedChildren.attach {ns : List Node} {n : Node} (h : FormedChildren ns) (hf : n.Formed)
    (hw : n.Whole) : FormedChildren (attach ns n) := by
  unfold Builder.attach
  constructor
  · intro m hm
    rcases List.mem_cons.mp hm with rfl | hm
    · exact (formed_setIgnored _ n).mpr hf
    · exact h.formed m hm
  · intro m hm
    rcases List.mem_cons.mp hm with rfl | hm
    · exact (whole_setIgnored _ n).mpr hw
    · exact h.whole m hm

/-- The finished branches of a level, in order, and the keyword of the current one. -/
def Begun (branches : List Node) (keyword : Keyword) : Prop :=
  match branches with
  | [] => keyword.isOpener = true
  | first :: mid => first.IsBranch true false ∧ (∀ n ∈ mid, n.IsBranch false false) ∧
      keyword = .elseKw

/-- What is known of an open level. -/
structure LevelFormed (level : Level) : Prop where
  outer : FormedChildren level.outer
  start : level.start.action.keyword = some level.keyword
  branches : ∀ n ∈ level.branches, n.Formed
  begun : Begun level.branches.reverse level.keyword

/-- What is known of the builder. -/
structure Formed (b : Builder) : Prop where
  children : FormedChildren b.children
  levels : ∀ level ∈ b.levels, LevelFormed level

theorem formed_empty : Formed empty := ⟨formedChildren_nil, by simp [empty]⟩

variable {b b' : Builder} {t : Token}

/-- **Closing a block** whose children are finished. -/
theorem formed_closeBlock {level : Level} {children : List Node} (lead tail : Text) (spanStop : Nat)
    {stop : Option Leaf} (branch : Bool) (hl : LevelFormed level) (hc : FormedChildren children)
    (hstop : ∀ l ∈ stop, ∃ k, l.action.keyword = some k ∧ k.isCloser = true) :
    (closeBlock level lead children tail spanStop stop branch).Formed := by
  refine ⟨⟨hl.start, hstop⟩, fun n hn => hc.whole n (List.mem_reverse.mp hn), ?_⟩
  rw [formedAll_iff]
  exact fun n hn => hc.formed n (List.mem_reverse.mp hn)

theorem formed_openLevel {k : Keyword} {act : Action} (hb : b.Formed)
    (hk : act.keyword = some k) (ho : k.isOpener = true) : (b.openLevel t k act).Formed := by
  refine ⟨formedChildren_nil, fun level hl => ?_⟩
  rcases List.mem_cons.mp hl with rfl | hl
  · exact ⟨hb.children, hk, by simp, ho⟩
  · exact hb.levels level hl

/-- The next branch of a level that has begun. -/
theorem Begun.divide {branches : List Node} {keyword : Keyword} (h : Begun branches keyword)
    {info : Info} {frame : Frame} {children : List Node} (hk : frame.keyword = keyword)
    (hbranch : frame.branch = true) (hstop : frame.stop = none) :
    Begun (branches ++ [.block info frame children]) .elseKw := by
  cases branches with
  | nil =>
    refine ⟨⟨hbranch, ?_, by rw [hstop]; rfl⟩, by simp, rfl⟩
    rw [if_pos rfl, hk]
    exact h
  | cons first mid =>
    obtain ⟨hfirst, hmid, rfl⟩ := h
    refine ⟨hfirst, fun n hn => ?_, rfl⟩
    rcases List.mem_append.mp hn with hn | hn
    · exact hmid n hn
    · rw [List.mem_singleton.mp hn]
      exact ⟨hbranch, hk, by rw [hstop]; rfl⟩

/-- The last branch of a level that has been divided. -/
theorem Begun.finish {branches : List Node} {keyword : Keyword} (h : Begun branches keyword)
    (hne : branches ≠ []) {info : Info} {frame : Frame} {children : List Node}
    (hk : frame.keyword = keyword) (hbranch : frame.branch = true)
    (hstop : frame.stop.isSome = true) : IsChain (branches ++ [.block info frame children]) := by
  cases branches with
  | nil => exact absurd rfl hne
  | cons first mid =>
    obtain ⟨hfirst, hmid, rfl⟩ := h
    exact ⟨first, mid, _, rfl, hfirst, hmid, hbranch, hk, hstop⟩

theorem formed_divideLevel {act : Action} {level : Level} {outer : List Level} (hb : b.Formed)
    (hl : b.levels = level :: outer) (hk : act.keyword = some .elseKw) :
    (b.divideLevel level outer t act).Formed := by
  have hlevels := hb.levels
  rw [hl, List.forall_mem_cons] at hlevels
  obtain ⟨hlevel, houter⟩ := hlevels
  refine ⟨formedChildren_nil, fun m hm => ?_⟩
  rcases List.mem_cons.mp hm with rfl | hm
  · refine ⟨hlevel.outer, hk, fun n hn => ?_, ?_⟩
    · rcases List.mem_cons.mp hn with rfl | hn
      · exact formed_closeBlock _ _ _ true hlevel hb.children (by simp)
      · exact hlevel.branches n hn
    · show Begun (_ :: level.branches).reverse .elseKw
      rw [List.reverse_cons]
      exact hlevel.begun.divide rfl rfl rfl
  · exact houter m hm

theorem formed_closeLevel {act : Action} {k : Keyword} {level : Level} {outer : List Level}
    (hb : b.Formed) (hl : b.levels = level :: outer) (hk : act.keyword = some k)
    (hc : k.isCloser = true) : (b.closeLevel level outer t act).Formed := by
  have hlevels := hb.levels
  rw [hl, List.forall_mem_cons] at hlevels
  obtain ⟨hlevel, houter⟩ := hlevels
  have hstop : ∀ l ∈ some (⟨b.next, t.text, t.span, act⟩ : Leaf),
      ∃ k, l.action.keyword = some k ∧ k.isCloser = true := by
    intro l hm
    obtain rfl := Option.mem_some_iff.mp hm
    exact ⟨k, hk, hc⟩
  have hblock := fun lead branch =>
    formed_closeBlock lead t.lead t.span.stop branch hlevel hb.children hstop
  have hbegun := hlevel.begun
  unfold closeLevel
  split
  · rename_i hbranches
    rw [hbranches] at hbegun
    exact ⟨hlevel.outer.attach (hblock _ _) ⟨hbegun, rfl, rfl⟩, houter⟩
  · rename_i branches hne
    refine ⟨hlevel.outer.attach ⟨?_, ?_⟩ trivial, houter⟩
    · rw [List.reverse_cons]
      exact hbegun.finish (by simpa using hne) rfl rfl rfl
    · rw [formedAll_iff]
      intro n hn
      rcases List.mem_cons.mp (List.mem_reverse.mp hn) with rfl | hn
      · exact hblock _ _
      · exact hlevel.branches n hn

/-- **A step keeps the builder formed.** -/
theorem formed_step (hb : b.Formed) (h : b.step t = .ok b') : b'.Formed := by
  have hadv := step_advance b t
  rw [h] at hadv
  cases hadv with
  | raw hkind => exact ⟨hb.children.attach trivial trivial, hb.levels⟩
  | plain act hkind hk => exact ⟨hb.children.attach hk trivial, hb.levels⟩
  | divide act level outer hkind hk hl => exact formed_divideLevel hb hl hk
  | close act k level outer hkind hk hc hl => exact formed_closeLevel hb hl hk hc
  | start act k hkind hk ho hd => exact formed_openLevel hb hk ho

/-- **A run keeps the builder formed.** -/
theorem formed_steps {ts : List Token} (h : empty.steps ts = .ok b) : b.Formed :=
  steps_invariant (P := fun _ b => b.Formed) formed_empty (fun _ _ _ _ => formed_step) h

end Builder

/-- **The top nodes of a template are formed**, and none of them is a branch. -/
theorem parse_formed {source : Text} {tree : Tree} (h : parse source = .ok tree) :
    Builder.FormedChildren tree.children := by
  obtain ⟨b, hsteps, -, rfl⟩ := parse_eq_ok h
  have hchildren := (Builder.formed_steps hsteps).children
  exact ⟨fun n hn => hchildren.formed n (List.mem_reverse.mp hn),
    fun n hn => hchildren.whole n (List.mem_reverse.mp hn)⟩

end TemplateFormat
