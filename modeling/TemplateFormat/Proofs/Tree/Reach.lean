import TemplateFormat.Proofs.Tree.Numbers
import Mathlib.Logic.Relation

/-!
# What printing reaches in a tree

From a root printing goes to its children, from a block to its opening action, its children and its
closing action, and from a chain to its branches (`Entry.next`). It does not go below an ignored
node, and of a block that opens an ignored region it prints the two actions only. `Entry.Reaches` is
any number of such moves.

`Node.reach` and `Tree.reach` list what is reached, in source order.

Results:
* `Tree.mem_reach`: the list holds exactly what is reached.
* `Tree.reached_listed`: all of it is in the listing of the tree.
* `Tree.Numbered.nodup_reach`: no two things that are reached have the same number.
-/

namespace TemplateFormat

namespace Entry

/-- Where printing goes from an entry. -/
def next : Entry → List Entry
  | root t => t.children.map node
  | node (.block info frame children) =>
    if info.ignored then []
    else edge .opens frame.start ::
      ((if frame.keyword = .ignoreStartKw then [] else children.map node) ++
        (frame.stop.map (edge .closes)).toList)
  | node (.chain info branches) => if info.ignored then [] else branches.map node
  | _ => []

/-- Printing goes from the first entry to the second, in any number of moves. -/
def Reaches : Entry → Entry → Prop := Relation.ReflTransGen fun e e' => e' ∈ e.next

theorem reaches_iff {e e' : Entry} : e.Reaches e' ↔ e' = e ∨ ∃ c ∈ e.next, c.Reaches e' := by
  unfold Reaches
  rw [Relation.ReflTransGen.cases_head_iff, eq_comm]

theorem reaches_edge {role : Role} {leaf : Leaf} {e : Entry} :
    (edge role leaf).Reaches e ↔ e = edge role leaf := by
  rw [reaches_iff]
  simp [next]

end Entry

/-- Printing goes to the entry from the root. -/
def Tree.Reached (t : Tree) (e : Entry) : Prop := (Entry.root t).Reaches e

/-! ## Lists of what is reached -/

namespace Node

mutual

/-- What printing reaches from a node, the node included. -/
def reach : Node → List Entry
  | n@(.action _ _ _) => [.node n]
  | n@(.raw _ _) => [.node n]
  | n@(.block info frame children) =>
    .node n :: if info.ignored then []
      else .edge .opens frame.start ::
        ((if frame.keyword = .ignoreStartKw then [] else reachAll children) ++
          (frame.stop.map (Entry.edge .closes)).toList)
  | n@(.chain info branches) => .node n :: if info.ignored then [] else reachAll branches

/-- What printing reaches from siblings. -/
def reachAll : List Node → List Entry
  | [] => []
  | n :: ns => reach n ++ reachAll ns

end

theorem reachAll_eq_flatMap (ns : List Node) : reachAll ns = ns.flatMap reach := by
  induction ns with
  | nil => rw [reachAll, List.flatMap_nil]
  | cons n ns ih => rw [reachAll, ih, List.flatMap_cons]

mutual

/-- **The list of a node holds what is reached from it.** -/
theorem mem_reach {e : Entry} : ∀ {n : Node}, e ∈ n.reach ↔ (Entry.node n).Reaches e
  | .action info text act => by
    rw [reach, Entry.reaches_iff]
    simp [Entry.next]
  | .raw info text => by
    rw [reach, Entry.reaches_iff]
    simp [Entry.next]
  | .block info frame children => by
    have hchildren : e ∈ reachAll children ↔ _ := mem_reachAll
    have hstop : e ∈ (frame.stop.map (Entry.edge .closes)).toList ↔
        ∃ c ∈ (frame.stop.map (Entry.edge .closes)).toList, c.Reaches e := by
      cases frame.stop <;> simp [Entry.reaches_edge]
    rw [reach, Entry.reaches_iff, List.mem_cons, Entry.next]
    refine or_congr Iff.rfl ?_
    split
    · simp
    · rw [List.mem_cons, List.mem_append, hstop]
      simp only [List.mem_cons, List.mem_append, or_and_right, exists_or, exists_eq_left,
        Entry.reaches_edge]
      refine or_congr Iff.rfl (or_congr ?_ Iff.rfl)
      split
      · simp
      · exact hchildren
  | .chain info branches => by
    have hbranches : e ∈ reachAll branches ↔ _ := mem_reachAll
    rw [reach, Entry.reaches_iff, List.mem_cons, Entry.next]
    refine or_congr Iff.rfl ?_
    split
    · simp
    · exact hbranches

theorem mem_reachAll {e : Entry} : ∀ {ns : List Node},
    e ∈ reachAll ns ↔ ∃ c ∈ ns.map Entry.node, c.Reaches e
  | [] => by simp [reachAll]
  | n :: ns => by
    rw [reachAll, List.mem_append, mem_reach, mem_reachAll]
    simp only [List.map_cons, List.mem_cons, or_and_right, exists_or, exists_eq_left]

end

mutual

/-- What is reached from a node is listed in it, in the same order. -/
theorem reach_sublist (parent : Nat) : ∀ n : Node,
    n.reach.Sublist ((listed parent n).map Listed.entry)
  | .action info text act => by
    rw [reach, listed]
    exact List.Sublist.refl _
  | .raw info text => by
    rw [reach, listed]
    exact List.Sublist.refl _
  | .block info frame children => by
    have hchildren := reachAll_sublist info.id children
    have hstop : ((frame.stop.map fun leaf => (⟨some info.id, .edge .closes leaf⟩ :
        Listed)).toList.map Listed.entry) = (frame.stop.map (Entry.edge .closes)).toList := by
      cases frame.stop <;> rfl
    rw [reach, listed, List.map_cons, List.map_cons, List.map_append, hstop]
    refine List.Sublist.cons_cons _ ?_
    split
    · exact List.nil_sublist _
    · refine List.Sublist.cons_cons _ (List.Sublist.append ?_ (List.Sublist.refl _))
      split
      · exact List.nil_sublist _
      · exact hchildren
  | .chain info branches => by
    rw [reach, listed, List.map_cons]
    refine List.Sublist.cons_cons _ ?_
    split
    · exact List.nil_sublist _
    · exact reachAll_sublist info.id branches

theorem reachAll_sublist (parent : Nat) : ∀ ns : List Node,
    (reachAll ns).Sublist ((listedAll parent ns).map Listed.entry)
  | [] => by
    rw [reachAll]
    exact List.nil_sublist _
  | n :: ns => by
    rw [reachAll, listedAll, List.map_append]
    exact (reach_sublist parent n).append (reachAll_sublist parent ns)

end

end Node

namespace Tree

variable {t : Tree} {e : Entry}

/-- What printing reaches in a tree. -/
def reach (t : Tree) : List Entry := .root t :: Node.reachAll t.children

/-- **The list of a tree holds what is reached in it.** -/
theorem mem_reach : e ∈ t.reach ↔ t.Reached e := by
  rw [reach, List.mem_cons, Node.mem_reachAll, Reached, Entry.reaches_iff]
  rfl

theorem reach_sublist (t : Tree) : t.reach.Sublist (t.unsorted.map Listed.entry) := by
  rw [reach, unsorted, List.map_cons]
  exact (Node.reachAll_sublist 0 t.children).cons_cons _

/-- **What is reached is listed.** -/
theorem reached_listed (h : t.Reached e) : ∃ l ∈ t.listing, l.entry = e := by
  obtain ⟨l, hl, he⟩ := List.mem_map.mp ((reach_sublist t).subset (mem_reach.mpr h))
  exact ⟨l, (listing_perm t).mem_iff.mpr hl, he⟩

/-- **Nothing that is reached has the number of something else.** -/
theorem Numbered.nodup_reach (h : t.Numbered) : (t.reach.map Entry.id).Nodup := by
  obtain ⟨n, hn⟩ := h
  have hids : (t.unsorted.map Listed.entry).map Entry.id = 0 :: Node.idsAll t.children := by
    rw [List.map_map, ← ids_unsorted]
    rfl
  have hsub := (reach_sublist t).map Entry.id
  rw [hids] at hsub
  exact (hn.nodup_iff.mpr List.nodup_range).sublist hsub

end Tree

end TemplateFormat
