import TemplateFormat.Proofs.Tree.Step
import TemplateFormat.Proofs.Token.Cover

/-!
# Where the nodes of a tree stand

A node determines its source text. `Node.Placed offset` says that the node, and everything in it,
stands where its spans say if its text starts at byte `offset`: the opening action of a block
first, its children one after the other, its closing action at the end. It also holds what the
order of reading gives: every action fits its text, siblings are numbered in increasing order,
and only a branch that another branch follows has no closing action.

The builder's invariant is about half-built levels. `openText` is the source text up to the
content of the innermost open block: for each level, from the outermost on, the finished siblings
of the block, its finished branches and its opening action. `Builder.Placed T` says that this
text and the finished children spell `T`, and that everything finished is placed.

Results:
* `placed_step`: a step keeps the invariant and adds the token to the text.
* `placed_steps`: so does a run over tokens that are placed one after the other.
* `parse_placed`: the tree of a template spells it, and its nodes are placed.
-/

namespace TemplateFormat

/-- The action fits its text and stands at byte `offset`. -/
def Leaf.Placed (offset : Nat) (l : Leaf) : Prop :=
  l.span = ⟨offset, Text.bytes l.text⟩ ∧ IsAction l.text l.action

namespace Node

/-- A block that has a closing action, or no block. -/
def Closed : Node → Prop
  | .block _ frame _ => frame.stop.isSome = true
  | _ => True

/-- A block without a literal before it. -/
def Joined : Node → Prop
  | .block info _ _ => info.lead = []
  | _ => False

/-- The children of a container: closed, and numbered in increasing order from 1 on. -/
structure Siblings (ns : List Node) : Prop where
  closed : ∀ n ∈ ns, n.Closed
  pos : ∀ n ∈ ns, 0 < n.info.id
  ascending : ns.Pairwise fun a b => a.info.id < b.info.id

/-- The branches of a chain: blocks that follow each other directly, the last of them closed. -/
structure Branches (ns : List Node) : Prop where
  joined : ∀ n ∈ ns, n.Joined
  closed : ∃ init last, ns = init ++ [last] ∧ last.Closed

mutual

/-- The node and everything in it stands where its spans say, if its text starts at byte
`offset`. -/
def Placed (offset : Nat) : Node → Prop
  | .action info text act => info.span = ⟨offset, Text.bytes text⟩ ∧ IsAction text act
  | .raw info text => info.span = ⟨offset, Text.bytes text⟩ ∧ IsRaw text
  | .block info frame children =>
    info.span = ⟨offset, Text.bytes (text (.block info frame children))⟩ ∧
      frame.start.Placed offset ∧
      PlacedAll (offset + Text.bytes frame.start.text) children ∧ Siblings children ∧
      ∀ l ∈ frame.stop,
        l.Placed (offset + Text.bytes frame.start.text + Text.bytes (frame.content children))
  | .chain info branches =>
    info.span = ⟨offset, Text.bytes (spellAll branches)⟩ ∧ PlacedAll offset branches ∧
      Branches branches

/-- Siblings that follow each other from byte `offset` on. -/
def PlacedAll (offset : Nat) : List Node → Prop
  | [] => True
  | n :: ns =>
    Placed (offset + Text.bytes n.info.lead) n ∧
      PlacedAll (offset + Text.bytes n.info.lead + Text.bytes n.text) ns

end

/-! ## Lists of siblings -/

theorem spellAll_append (ms ns : List Node) : spellAll (ms ++ ns) = spellAll ms ++ spellAll ns := by
  induction ms with
  | nil => simp [spellAll]
  | cons m ms ih =>
    rw [List.cons_append, spellAll, spellAll, ih]
    simp only [List.append_assoc]

theorem spellAll_singleton (n : Node) : spellAll [n] = n.info.lead ++ n.text := by
  rw [spellAll, spellAll, List.append_nil]

theorem placedAll_concat {offset : Nat} {ns : List Node} {n : Node} (hs : PlacedAll offset ns)
    (hn : n.Placed (offset + Text.bytes (spellAll ns ++ n.info.lead))) :
    PlacedAll offset (ns ++ [n]) := by
  induction ns generalizing offset with
  | nil =>
    simp only [spellAll, List.nil_append] at hn
    exact ⟨hn, trivial⟩
  | cons m ns ih =>
    refine ⟨hs.1, ih hs.2 ?_⟩
    simp only [spellAll, Text.bytes_append] at hn ⊢
    rw [show offset + Text.bytes m.info.lead + Text.bytes m.text +
      (Text.bytes (spellAll ns) + Text.bytes n.info.lead) = offset + (Text.bytes m.info.lead +
      Text.bytes m.text + Text.bytes (spellAll ns) + Text.bytes n.info.lead) by omega]
    exact hn

/-! ## The pragma flag -/

variable (ignored : Bool) (n : Node)

@[simp] theorem id_setIgnored : (n.setIgnored ignored).info.id = n.info.id := by cases n <;> rfl

@[simp] theorem lead_setIgnored : (n.setIgnored ignored).info.lead = n.info.lead := by
  cases n <;> rfl

@[simp] theorem text_setIgnored : (n.setIgnored ignored).text = n.text := by
  cases n <;> simp only [setIgnored, text]

theorem placed_setIgnored (offset : Nat) :
    (n.setIgnored ignored).Placed offset ↔ n.Placed offset := by
  cases n <;> simp only [setIgnored, Placed, text]

theorem closed_setIgnored : (n.setIgnored ignored).Closed ↔ n.Closed := by cases n <;> exact Iff.rfl

end Node

namespace Builder

open Node

/-! ## Finished siblings, the latest first -/

/-- Finished nodes of a container whose content starts at byte `base`, the latest first, with
numbers below `next`. -/
structure Finished (base next : Nat) (ns : List Node) : Prop where
  placed : PlacedAll base ns.reverse
  siblings : Siblings ns.reverse
  below : ∀ n ∈ ns, n.info.id < next

theorem finished_nil (base next : Nat) : Finished base next [] :=
  ⟨trivial, ⟨by simp, by simp, .nil⟩, by simp⟩

theorem Finished.mono {base next next' : Nat} {ns : List Node} (h : Finished base next ns)
    (hle : next ≤ next') : Finished base next' ns :=
  ⟨h.placed, h.siblings, fun n hn => (h.below n hn).trans_le hle⟩

theorem spellAll_attach (ns : List Node) (n : Node) :
    spellAll (attach ns n).reverse = spellAll ns.reverse ++ (n.info.lead ++ n.text) := by
  rw [attach, List.reverse_cons, spellAll_append, spellAll_singleton, lead_setIgnored,
    text_setIgnored]

/-- A node is added to the finished ones: it stands behind them, is closed, and has a new number. -/
theorem Finished.attach {base next next' : Nat} {ns : List Node} {n : Node}
    (h : Finished base next ns)
    (hp : n.Placed (base + Text.bytes (spellAll ns.reverse ++ n.info.lead)))
    (hc : n.Closed) (hpos : 0 < n.info.id) (hnew : next ≤ n.info.id) (hlt : n.info.id < next') :
    Finished base next' (attach ns n) := by
  have hbelow : ∀ m ∈ ns, m.info.id < n.info.id := fun m hm => (h.below m hm).trans_le hnew
  unfold Builder.attach
  generalize Pragma.precedes ns.head? n = ignored
  refine ⟨?_, ⟨?_, ?_, ?_⟩, ?_⟩
  · rw [List.reverse_cons]
    refine placedAll_concat h.placed ?_
    rw [lead_setIgnored, placed_setIgnored]
    exact hp
  · intro m hm
    rw [List.mem_reverse] at hm
    rcases List.mem_cons.mp hm with rfl | hm
    · exact (closed_setIgnored ignored n).mpr hc
    · exact h.siblings.closed m (List.mem_reverse.mpr hm)
  · intro m hm
    rw [List.mem_reverse] at hm
    rcases List.mem_cons.mp hm with rfl | hm
    · rw [id_setIgnored]
      exact hpos
    · exact h.siblings.pos m (List.mem_reverse.mpr hm)
  · rw [List.reverse_cons, List.pairwise_append]
    refine ⟨h.siblings.ascending, List.pairwise_singleton .., fun m hm m' hm' => ?_⟩
    rw [List.mem_singleton.mp hm', id_setIgnored]
    exact hbelow m (List.mem_reverse.mp hm)
  · intro m hm
    rcases List.mem_cons.mp hm with rfl | hm
    · rw [id_setIgnored]
      exact hlt
    · exact (hbelow m hm).trans hlt

/-! ## Open levels -/

/-- The source text from the content of the enclosing container up to the content of the block. -/
def levelText (level : Level) : Text :=
  spellAll level.outer.reverse ++ level.lead ++ spellAll level.branches.reverse ++ level.start.text

/-- The source text up to the content of the innermost open block. -/
def openText : List Level → Text
  | [] => []
  | level :: outer => openText outer ++ levelText level

/-- An open level in a container whose content starts at byte `base`. -/
structure LevelPlaced (base next : Nat) (level : Level) : Prop where
  outer : Finished base level.id level.outer
  pos : 0 < level.id
  below : level.id < next
  index : level.index = base + Text.bytes (spellAll level.outer.reverse ++ level.lead)
  branches : PlacedAll level.index level.branches.reverse
  joined : ∀ n ∈ level.branches, n.Joined
  start : level.start.Placed (level.index + Text.bytes (spellAll level.branches.reverse))

/-- The open levels, the innermost first. -/
def LevelsPlaced (next : Nat) : List Level → Prop
  | [] => True
  | level :: outer =>
    LevelPlaced (Text.bytes (openText outer)) next level ∧ LevelsPlaced next outer

theorem LevelsPlaced.mono {next next' : Nat} (hle : next ≤ next') :
    ∀ {levels : List Level}, LevelsPlaced next levels → LevelsPlaced next' levels
  | [], _ => trivial
  | _ :: _, h => ⟨{ h.1 with below := h.1.below.trans_le hle }, h.2.mono hle⟩

/-- Where the content of a block starts. -/
theorem LevelPlaced.bytes_openText {next : Nat} {level : Level} {outer : List Level}
    (h : LevelPlaced (Text.bytes (openText outer)) next level) :
    Text.bytes (openText (level :: outer)) =
      level.index + Text.bytes (spellAll level.branches.reverse) + Text.bytes level.start.text := by
  rw [h.index]
  simp only [openText, levelText, Text.bytes_append]
  omega

theorem text_closeBlock (level : Level) (lead : Text) (children : List Node) (tail : Text)
    (spanStop : Nat) (stop : Option Leaf) (branch : Bool) :
    (closeBlock level lead children tail spanStop stop branch).text =
      level.start.text ++ spellAll children.reverse ++ tail ++ (stop.map Leaf.text).getD [] := by
  simp only [closeBlock, text]

/-- **Closing a block**: it stands where its level says, and the closing action behind its
content. -/
theorem placed_closeBlock {base next next' : Nat} {level : Level} {children : List Node}
    (tail : Text) (stop : Option Leaf) (lead : Text) (branch : Bool) {spanStop : Nat}
    (hl : LevelPlaced base next level)
    (hc : Finished (level.index + Text.bytes (spellAll level.branches.reverse) +
      Text.bytes level.start.text) next' children)
    (hstop : ∀ l ∈ stop, l.Placed (level.index + Text.bytes (spellAll level.branches.reverse) +
      Text.bytes level.start.text + Text.bytes (spellAll children.reverse ++ tail)))
    (hspan : spanStop = level.index + Text.bytes (spellAll level.branches.reverse) +
      Text.bytes (level.start.text ++ spellAll children.reverse ++ tail ++
        (stop.map Leaf.text).getD [])) :
    (closeBlock level lead children tail spanStop stop branch).Placed
      (level.index + Text.bytes (spellAll level.branches.reverse)) := by
  refine ⟨?_, hl.start, hc.placed, hc.siblings, hstop⟩
  have htext := text_closeBlock level lead children tail spanStop stop branch
  unfold closeBlock at htext
  rw [htext, hl.start.1, hspan, Span.ofBounds, Nat.add_sub_cancel_left]

/-! ## The invariant -/

/-- What is known of the builder after it has read the text `T`. -/
structure Placed (T : Text) (b : Builder) : Prop where
  spelled : openText b.levels ++ spellAll b.children.reverse = T
  levels : LevelsPlaced b.next b.levels
  children : Finished (Text.bytes (openText b.levels)) b.next b.children
  pos : 0 < b.next

theorem placed_empty : Placed [] empty :=
  ⟨by simp [empty, openText, spellAll], trivial, finished_nil 0 1, Nat.zero_lt_one⟩

variable {T : Text} {b : Builder} {t : Token}

theorem Placed.bytes_eq (hb : Placed T b) :
    Text.bytes T = Text.bytes (openText b.levels) + Text.bytes (spellAll b.children.reverse) := by
  rw [← hb.spelled, Text.bytes_append]

/-- The innermost open level, the levels around it, and where its content starts. -/
theorem Placed.innermost {level : Level} {outer : List Level} (hb : Placed T b)
    (hl : b.levels = level :: outer) :
    LevelPlaced (Text.bytes (openText outer)) b.next level ∧ LevelsPlaced b.next outer ∧
      Text.bytes T = level.index + Text.bytes (spellAll level.branches.reverse) +
        Text.bytes level.start.text + Text.bytes (spellAll b.children.reverse) ∧
      Finished (level.index + Text.bytes (spellAll level.branches.reverse) +
        Text.bytes level.start.text) b.next b.children := by
  have hlevels := hb.levels
  have hT := hb.bytes_eq
  have hchildren := hb.children
  rw [hl] at hlevels hT hchildren
  rw [hlevels.1.bytes_openText] at hT hchildren
  exact ⟨hlevels.1, hlevels.2, hT, hchildren⟩

/-- A node that is one token. -/
theorem placed_addChild {n : Node} (hb : Placed T b)
    (hp : n.Placed (Text.bytes T + Text.bytes n.info.lead)) (hc : n.Closed)
    (hid : n.info.id = b.next) :
    Placed (T ++ (n.info.lead ++ n.text)) (b.addChild n) := by
  refine ⟨?_, hb.levels.mono (Nat.le_succ _), ?_, Nat.succ_pos _⟩
  · show openText b.levels ++ spellAll (attach b.children n).reverse = _
    rw [spellAll_attach, ← List.append_assoc, hb.spelled]
  · refine hb.children.attach ?_ hc (hid ▸ hb.pos) hid.ge (hid ▸ Nat.lt_succ_self _)
    rw [Text.bytes_append, ← Nat.add_assoc, ← hb.bytes_eq]
    exact hp

theorem placed_openLevel {k : Keyword} {act : Action} (hb : Placed T b)
    (hspan : t.span = ⟨Text.bytes T + Text.bytes t.lead, Text.bytes t.text⟩)
    (hact : IsAction t.text act) : Placed (T ++ (t.lead ++ t.text)) (b.openLevel t k act) := by
  have hindex : t.span.index =
      Text.bytes (openText b.levels) + Text.bytes (spellAll b.children.reverse ++ t.lead) := by
    rw [hspan, hb.bytes_eq, Text.bytes_append, Nat.add_assoc]
  refine ⟨?_, ⟨⟨hb.children, hb.pos, ?_, hindex, trivial, by simp, ?_, hact⟩, ?_⟩,
    finished_nil _ _, Nat.succ_pos _⟩
  · rw [← hb.spelled]
    simp [openLevel, openText, levelText, spellAll]
  · exact Nat.lt_add_of_pos_right (by decide)
  · show t.span = ⟨t.span.index + Text.bytes (spellAll []), _⟩
    rw [hspan]
    simp [spellAll]
  · exact hb.levels.mono (Nat.le_add_right _ 2)

theorem placed_divideLevel {act : Action} {level : Level} {outer : List Level} (hb : Placed T b)
    (hl : b.levels = level :: outer)
    (hspan : t.span = ⟨Text.bytes T + Text.bytes t.lead, Text.bytes t.text⟩)
    (hact : IsAction t.text act) :
    Placed (T ++ (t.lead ++ t.text)) (b.divideLevel level outer t act) := by
  obtain ⟨hlevel, houter, hT, hchildren⟩ := hb.innermost hl
  have hindex : t.span.index = level.index + Text.bytes (spellAll level.branches.reverse) +
      Text.bytes (level.start.text ++ spellAll b.children.reverse ++ t.lead ++
        ((none : Option Leaf).map Leaf.text).getD []) := by
    rw [hspan]
    simp only [Text.bytes_append, Option.map_none, Option.getD_none, Text.bytes_nil]
    omega
  have hbranch := placed_closeBlock t.lead none [] true hlevel hchildren (by simp) hindex
  -- the branch is spelled where the opening action, the children and the literal stood
  have hspell : spellAll (closeBlock level [] b.children t.lead t.span.index none true ::
      level.branches).reverse = spellAll level.branches.reverse ++
        (level.start.text ++ spellAll b.children.reverse ++ t.lead) := by
    rw [List.reverse_cons, spellAll_append, spellAll_singleton, text_closeBlock]
    simp [closeBlock, info]
  refine ⟨?_, ⟨⟨?_, hb.pos, ?_, hlevel.index, ?_, ?_, ?_, hact⟩, ?_⟩, finished_nil _ _,
    Nat.succ_pos _⟩
  · rw [← hb.spelled, hl]
    show openText outer ++ (spellAll level.outer.reverse ++ level.lead ++ spellAll _ ++ t.text) ++
      spellAll [] = _
    rw [hspell]
    simp [openText, levelText, spellAll]
  · exact hlevel.outer.mono hlevel.below.le
  · exact Nat.lt_add_of_pos_right (by decide)
  · show PlacedAll level.index (_ :: level.branches).reverse
    rw [List.reverse_cons]
    refine placedAll_concat hlevel.branches ?_
    rw [show (closeBlock level [] b.children t.lead t.span.index none true).info.lead = [] from rfl,
      List.append_nil]
    exact hbranch
  · intro n hn
    rcases List.mem_cons.mp hn with rfl | hn
    · exact rfl
    · exact hlevel.joined n hn
  · show t.span = ⟨level.index + Text.bytes (spellAll (_ :: level.branches).reverse), _⟩
    rw [hspell, hspan]
    congr 1
    simp only [Text.bytes_append]
    omega
  · exact houter.mono (Nat.le_add_right _ 2)

theorem placed_closeLevel {act : Action} {level : Level} {outer : List Level} (hb : Placed T b)
    (hl : b.levels = level :: outer)
    (hspan : t.span = ⟨Text.bytes T + Text.bytes t.lead, Text.bytes t.text⟩)
    (hact : IsAction t.text act) :
    Placed (T ++ (t.lead ++ t.text)) (b.closeLevel level outer t act) := by
  obtain ⟨hlevel, houter, hT, hchildren⟩ := hb.innermost hl
  have hleaf : ∀ l ∈ some (⟨b.next, t.text, t.span, act⟩ : Leaf),
      l.Placed (level.index + Text.bytes (spellAll level.branches.reverse) +
        Text.bytes level.start.text + Text.bytes (spellAll b.children.reverse ++ t.lead)) := by
    intro l hmem
    obtain rfl := Option.mem_some_iff.mp hmem
    refine ⟨?_, hact⟩
    show t.span = _
    rw [hspan]
    congr 1
    rw [Text.bytes_append]
    omega
  have hstop : t.span.stop = level.index + Text.bytes (spellAll level.branches.reverse) +
      Text.bytes (level.start.text ++ spellAll b.children.reverse ++ t.lead ++
        ((some (⟨b.next, t.text, t.span, act⟩ : Leaf)).map Leaf.text).getD []) := by
    rw [hspan, Span.stop]
    simp only [Text.bytes_append, Option.map_some, Option.getD_some]
    omega
  have hblock := fun lead branch => placed_closeBlock _ _ lead branch hlevel hchildren hleaf hstop
  unfold closeLevel
  split
  · rename_i hbr
    simp only [hbr, List.reverse_nil, spellAll, Text.bytes_nil, Nat.add_zero] at hblock
    refine ⟨?_, houter.mono (Nat.le_succ _), ?_, Nat.succ_pos _⟩
    · show openText outer ++ spellAll (attach level.outer _).reverse = _
      rw [spellAll_attach, text_closeBlock, ← hb.spelled, hl]
      simp [openText, levelText, closeBlock, info, hbr, spellAll]
    · refine hlevel.outer.attach ?_ rfl hlevel.pos le_rfl (hlevel.below.trans (Nat.lt_succ_self _))
      rw [show (closeBlock level level.lead b.children t.lead t.span.stop
        (some ⟨b.next, t.text, t.span, act⟩) false).info.lead = level.lead from rfl, ← hlevel.index]
      exact hblock level.lead false
  · -- the last branch ends the chain, which is spelled as its branches
    have hspell : spellAll (closeBlock level [] b.children t.lead t.span.stop
        (some ⟨b.next, t.text, t.span, act⟩) true :: level.branches).reverse =
          spellAll level.branches.reverse ++ (level.start.text ++ spellAll b.children.reverse ++
            t.lead ++ t.text) := by
      rw [List.reverse_cons, spellAll_append, spellAll_singleton, text_closeBlock]
      simp [closeBlock, info]
    refine ⟨?_, houter.mono (Nat.le_add_right _ 2), ?_, Nat.succ_pos _⟩
    · show openText outer ++ spellAll (attach level.outer (.chain _ _)).reverse = _
      rw [spellAll_attach, text, hspell, ← hb.spelled, hl]
      simp [openText, levelText, info]
    · refine hlevel.outer.attach ⟨?_, ?_, ?_, ?_⟩ trivial (Nat.succ_pos _)
        (hlevel.below.le.trans (Nat.le_succ _)) (Nat.lt_succ_self _)
      · show Span.ofBounds level.index t.span.stop = ⟨_, _⟩
        rw [show (Node.chain ⟨b.next + 1, level.lead, Span.ofBounds level.index t.span.stop, false⟩
          _).info.lead = level.lead from rfl, ← hlevel.index, hspell, hstop, Span.ofBounds]
        congr 1
        simp only [Text.bytes_append, Option.map_some, Option.getD_some]
        omega
      · show PlacedAll (_ + Text.bytes (_ ++ level.lead)) (_ :: level.branches).reverse
        rw [← hlevel.index, List.reverse_cons]
        refine placedAll_concat hlevel.branches ?_
        rw [show (closeBlock level [] b.children t.lead t.span.stop
          (some ⟨b.next, t.text, t.span, act⟩) true).info.lead = [] from rfl, List.append_nil]
        exact hblock [] true
      · intro n hn
        rcases List.mem_cons.mp (List.mem_reverse.mp hn) with rfl | hn
        · exact rfl
        · exact hlevel.joined n hn
      · exact ⟨level.branches.reverse, _, List.reverse_cons, rfl⟩

/-- **A step keeps the invariant** and adds the token to the text that was read. -/
theorem placed_step {b' : Builder} (hb : Placed T b)
    (hspan : t.span = ⟨Text.bytes T + Text.bytes t.lead, Text.bytes t.text⟩)
    (hfits : t.kind.Fits t.text) (h : b.step t = .ok b') : Placed (T ++ (t.lead ++ t.text)) b' := by
  have hadv := step_advance b t
  rw [h] at hadv
  cases hadv with
  | raw hkind =>
    rw [hkind] at hfits
    have := placed_addChild (n := .raw ⟨b.next, t.lead, t.span, false⟩ t.text) hb ⟨hspan, hfits⟩
      trivial rfl
    rwa [text] at this
  | plain act hkind hk =>
    rw [hkind] at hfits
    have := placed_addChild (n := .action ⟨b.next, t.lead, t.span, false⟩ t.text act) hb
      ⟨hspan, hfits⟩ trivial rfl
    rwa [text] at this
  | divide act level outer hkind hk hl =>
    rw [hkind] at hfits
    exact placed_divideLevel hb hl hspan hfits
  | close act k level outer hkind hk hc hl =>
    rw [hkind] at hfits
    exact placed_closeLevel hb hl hspan hfits
  | start act k hkind hk ho hd =>
    rw [hkind] at hfits
    exact placed_openLevel hb hspan hfits

/-- **A run keeps the invariant**, by induction on the tokens. -/
theorem placed_steps {ts : List Token} {b' : Builder} (hb : Placed T b)
    (hts : Token.PlacedAll (Text.bytes T) ts) (h : b.steps ts = .ok b') :
    Placed (T ++ Token.spellAll ts) b' := by
  induction ts generalizing T b with
  | nil =>
    obtain rfl := Except.ok.inj h
    rw [Token.spellAll, List.append_nil]
    exact hb
  | cons t ts ih =>
    obtain ⟨hspan, hfits, hrest⟩ := hts
    rw [steps] at h
    cases hs : b.step t with
    | error e =>
      rw [hs] at h
      exact absurd h (by simp)
    | ok b₁ =>
      rw [hs] at h
      have := ih (placed_step hb hspan hfits hs)
        (by rw [Text.bytes_append, Text.bytes_append, ← Nat.add_assoc]; exact hrest) h
      rwa [Token.spellAll, ← List.append_assoc T]

end Builder

/-! ## The tree of a template -/

/-- What is known of the tree of a template. -/
structure Tree.Placed (source : Text) (tree : Tree) : Prop where
  source_eq : tree.source = source
  stem_eq : tree.stem = Placeholder.stem source
  spelled : Node.spellAll tree.children ++ tree.tail = source
  children : Node.PlacedAll 0 tree.children
  siblings : Node.Siblings tree.children

/-- **The tree of a template spells it, and its nodes are placed.** -/
theorem parse_placed {source : Text} {tree : Tree} (h : parse source = .ok tree) :
    tree.Placed source := by
  obtain ⟨b, hsteps, hlevels, rfl⟩ := parse_eq_ok h
  have hb := Builder.placed_steps Builder.placed_empty (placed_scan source) hsteps
  have hspelled := hb.spelled
  have hchildren := hb.children
  rw [hlevels] at hspelled hchildren
  refine ⟨rfl, rfl, ?_, hchildren.placed, hchildren.siblings⟩
  rw [Builder.openText, List.nil_append, List.nil_append] at hspelled
  show Node.spellAll b.children.reverse ++ _ = source
  rw [hspelled]
  exact spell_scan source

end TemplateFormat
