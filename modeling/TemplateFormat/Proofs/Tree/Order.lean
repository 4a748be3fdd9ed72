import TemplateFormat.Proofs.Tree.Glyphs

/-!
# The order in which numbers are given

A block gets its number with its opening action, a chain gets its number when it is closed. So if
the numbers of a tree are read in this order, they are 1, 2, 3 and so on.

Results:
* `Builder.order_step`: a step gives out the next numbers.
* `parse_order`: the numbers of a template, in order.
-/

namespace TemplateFormat

namespace Node

mutual

/-- The numbers of a node and of everything in it, in the order in which they are given. -/
def order : Node → List Nat
  | .action info _ _ => [info.id]
  | .raw info _ => [info.id]
  | .block info frame children =>
    info.id :: frame.start.id :: (orderAll children ++ (frame.stop.map Leaf.id).toList)
  | .chain info branches => orderAll branches ++ [info.id]

/-- The numbers of siblings and of everything in them, in order. -/
def orderAll : List Node → List Nat
  | [] => []
  | n :: ns => order n ++ orderAll ns

end

theorem orderAll_cons (n : Node) (ns : List Node) (is : List Nat) :
    orderAll (n :: ns) ++ is = n.order ++ (orderAll ns ++ is) := by
  rw [orderAll, List.append_assoc]

theorem orderAll_append (ms ns : List Node) :
    orderAll (ms ++ ns) = orderAll ms ++ orderAll ns := by
  induction ms with
  | nil => rw [orderAll, List.nil_append, List.nil_append]
  | cons m ms ih => rw [List.cons_append, orderAll, orderAll, ih, List.append_assoc]

theorem orderAll_singleton (n : Node) : orderAll [n] = n.order := by
  rw [orderAll, orderAll, List.append_nil]

@[simp] theorem order_setIgnored (ignored : Bool) (n : Node) :
    (n.setIgnored ignored).order = n.order := by
  cases n <;> simp only [setIgnored, order]

end Node

namespace Builder

open Node

/-- The numbers from the content of the enclosing container up to the content of the block. -/
def levelOrder (level : Level) : List Nat :=
  orderAll level.outer.reverse ++ (orderAll level.branches.reverse ++ [level.id, level.start.id])

/-- The numbers up to the content of the innermost open block. -/
def openOrder : List Level → List Nat
  | [] => []
  | level :: outer => openOrder outer ++ levelOrder level

/-- The numbers given out so far, in order. -/
def order (b : Builder) : List Nat := openOrder b.levels ++ orderAll b.children.reverse

theorem orderAll_attach (ns : List Node) (n : Node) :
    orderAll (attach ns n).reverse = orderAll ns.reverse ++ n.order := by
  rw [attach, List.reverse_cons, orderAll_append, orderAll_singleton, order_setIgnored]

theorem order_closeBlock (level : Level) (lead : Text) (children : List Node) (tail : Text)
    (spanStop : Nat) (stop : Option Leaf) (branch : Bool) :
    (closeBlock level lead children tail spanStop stop branch).order =
      level.id :: level.start.id :: (orderAll children.reverse ++ (stop.map Leaf.id).toList) := by
  simp only [closeBlock, Node.order]

variable {b b' : Builder} {t : Token}

/-- **A step gives out the next numbers**, in order. -/
theorem order_step (h : b.step t = .ok b') :
    ∃ k, b'.next = b.next + k ∧ b'.order = b.order ++ List.range' b.next k := by
  have hadv := step_advance b t
  rw [h] at hadv
  cases hadv with
  | raw hkind =>
    refine ⟨1, rfl, ?_⟩
    simp only [order, addChild, orderAll_attach, Node.order, List.append_assoc, List.range'_one]
  | plain act hkind hk =>
    refine ⟨1, rfl, ?_⟩
    simp only [order, addChild, orderAll_attach, Node.order, List.append_assoc, List.range'_one]
  | divide act level outer hkind hk hl =>
    refine ⟨2, rfl, ?_⟩
    simp [order, hl, divideLevel, openOrder, levelOrder, orderAll_append, order_closeBlock,
      orderAll, List.range'_succ]
  | close act k level outer hkind hk hc hl =>
    unfold closeLevel
    split
    · rename_i hbranches
      refine ⟨1, rfl, ?_⟩
      simp [order, hl, openOrder, levelOrder, hbranches, orderAll_attach, order_closeBlock,
        orderAll]
    · refine ⟨2, rfl, ?_⟩
      simp [order, hl, openOrder, levelOrder, orderAll_attach, Node.order, orderAll_append,
        orderAll_singleton, order_closeBlock, List.range'_succ]
  | start act k hkind hk ho hd =>
    refine ⟨2, rfl, ?_⟩
    simp [order, openLevel, openOrder, levelOrder, orderAll, List.range'_succ]

/-- **After every run the numbers given out are 1, 2, 3 and so on**, in order. -/
theorem order_steps {ts : List Token} (h : empty.steps ts = .ok b) :
    ∃ k, b.next = 1 + k ∧ b.order = List.range' 1 k := by
  refine steps_invariant (P := fun _ b => ∃ k, b.next = 1 + k ∧ b.order = List.range' 1 k)
    ⟨0, rfl, rfl⟩ ?_ h
  rintro _ c t c' ⟨k, hnext, horder⟩ hs
  obtain ⟨j, hnext', horder'⟩ := order_step hs
  exact ⟨k + j, by rw [hnext', hnext, Nat.add_assoc],
    by rw [horder', horder, hnext, List.range'_append_1]⟩

end Builder

/-- **The numbers of a template**, in order. -/
theorem parse_order {source : Text} {tree : Tree} (h : parse source = .ok tree) :
    ∃ k, Node.orderAll tree.children = List.range' 1 k := by
  obtain ⟨b, hsteps, hlevels, rfl⟩ := parse_eq_ok h
  obtain ⟨k, -, horder⟩ := Builder.order_steps hsteps
  rw [Builder.order, hlevels, Builder.openOrder, List.nil_append] at horder
  exact ⟨k, horder⟩

end TemplateFormat
