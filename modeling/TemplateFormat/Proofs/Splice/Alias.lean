import TemplateFormat.Proofs.Splice.Word
import TemplateFormat.Proofs.Tree.Container

/-!
# Placeholders can be taken back

The content of a container with placeholders is spelled from a word that has the literals and,
for the child at each position, a slot (`Container.word`). The literals are parts of the source,
so the stem does not occur in them, and the word is fresh whatever they are: low lines, the
letters of the stem and digits directly before or behind a child do no harm. So cutting the
content at the placeholders gives the word back.

Results:
* `Container.spell_word`, `Container.restore_word`: the word spells the content with
  placeholders, and with the texts of the children in its slots it gives the content as written.
* `pieces_aliased`: the content with placeholders, cut at them, gives the word.
* `aliased_decodes`: the placeholders found are the children, each once and in source order, and
  replacing them by slices of the source gives the slice at the content.
-/

namespace TemplateFormat

namespace Node

/-- The literals before siblings, and a slot for each sibling, counted from `k`. -/
def aliasWord (k : Nat) : List Node → Word
  | [] => []
  | n :: ns => Word.ofText n.info.lead ++ .slot k :: aliasWord (k + 1) ns

/-- Siblings written with the text `g n` for sibling `n`. -/
theorem restore_aliasWord {f : Nat → Text} {g : Node → Text} : ∀ (k : Nat) (ns : List Node),
    (∀ i n, ns[i]? = some n → f (k + i) = g n) →
      (aliasWord k ns).restore f = ns.flatMap fun n => n.info.lead ++ g n
  | _, [], _ => rfl
  | k, n :: ns, h => by
    have ih := restore_aliasWord (k + 1) ns fun i m hm => by
      rw [Nat.add_right_comm]
      exact h (i + 1) m hm
    rw [aliasWord, Word.restore_append, Word.restore_ofText, List.flatMap_cons, ← ih,
      List.append_assoc]
    show n.info.lead ++ (f k ++ _) = _
    rw [show f k = g n from h 0 n rfl]

theorem slots_aliasWord (k : Nat) (ns : List Node) :
    (aliasWord k ns).slots = List.range' k ns.length := by
  induction ns generalizing k with
  | nil => rfl
  | cons n ns ih =>
    rw [aliasWord, Word.slots_append, Word.slots_ofText, List.nil_append, List.length_cons,
      List.range'_succ, ← ih]
    rfl

theorem spellAll_eq_flatMap (ns : List Node) :
    spellAll ns = ns.flatMap fun n => n.info.lead ++ n.text := by
  induction ns with
  | nil => rw [spellAll, List.flatMap_nil]
  | cons n ns ih => rw [spellAll, ih, List.flatMap_cons]

theorem aliasAll_eq_flatMap (stem : Text) (ns : List Node) :
    aliasAll stem ns = ns.flatMap fun n => n.info.lead ++ n.placeholder stem := by
  induction ns with
  | nil => rfl
  | cons n ns ih => rw [aliasAll, ih, List.flatMap_cons]

/-- Slots part the literals from each other, so the word is fresh if the stem is in none of them. -/
theorem fresh_aliasWord {source tail : Text} (ht : Placeholder.Free source tail) :
    ∀ {ns : List Node} (k : Nat), (∀ n ∈ ns, Placeholder.Free source n.info.lead) →
      (aliasWord k ns ++ Word.ofText tail).Fresh source
  | [], _, _ => Word.fresh_ofText.mpr ht
  | n :: ns, k, h => by
    rw [aliasWord, List.append_assoc, List.cons_append]
    exact Word.fresh_append_slot (Word.fresh_ofText.mpr (h n List.mem_cons_self))
      (fresh_aliasWord ht (k + 1) fun m hm => h m (List.mem_cons_of_mem n hm))

/-- Siblings have different placeholders. -/
theorem Siblings.isKeys {ns : List Node} (h : Siblings ns) (source : Text) :
    Splice.IsKeys source (ns.map (placeholder (Placeholder.stem source))) := by
  refine ⟨ns.map fun n => n.info.id - 1, ?_, by rw [List.map_map]; rfl⟩
  rw [List.nodup_iff_pairwise_ne, List.pairwise_map]
  refine h.ascending.imp_of_mem fun {a b} ha _ hab => ?_
  have := h.pos a ha
  omega

end Node

namespace Container

/-- The literals of the content, and a slot for each child. -/
def word (c : Container) : Word := Node.aliasWord 0 c.children ++ Word.ofText c.tail

theorem slots_word (c : Container) : c.word.slots = List.range c.children.length := by
  rw [word, Word.slots_append, Node.slots_aliasWord, Word.slots_ofText, List.append_nil,
    List.range_eq_range']

theorem within_word (c : Container) : c.word.Within c.children.length := by
  intro i hi
  have hmem : i ∈ c.word.slots := List.mem_filterMap.mpr ⟨.slot i, hi, rfl⟩
  rw [slots_word] at hmem
  exact List.mem_range.mp hmem

theorem within_keys (stem : Text) (c : Container) : c.word.Within (c.keys stem).length := by
  rw [keys, List.length_map]
  exact c.within_word

/-- The word with placeholders in its slots. -/
theorem spell_word (stem : Text) (c : Container) : c.word.spell (c.keys stem) = c.aliased stem := by
  rw [Word.spell, word, Word.restore_append, Word.restore_ofText, aliased, Node.aliasAll_eq_flatMap,
    Node.restore_aliasWord 0 c.children]
  intro i n hn
  rw [Nat.zero_add, keys, List.getD_eq_getElem?_getD, List.getElem?_map, hn]
  rfl

/-- The word with the texts of the children in its slots. -/
theorem restore_word {f : Nat → Text} (c : Container)
    (h : ∀ i n, c.children[i]? = some n → f i = n.text) : c.word.restore f = c.text := by
  rw [word, Word.restore_append, Word.restore_ofText, text, Node.spellAll_eq_flatMap,
    Node.restore_aliasWord 0 c.children]
  intro i n hn
  rw [Nat.zero_add]
  exact h i n hn

/-- The text of the child with a number. -/
def childText (c : Container) (index : Nat) : Text := (c.children[index]?.map Node.text).getD []

theorem restore_childText (c : Container) : c.word.restore c.childText = c.text :=
  c.restore_word fun i n hn => by
    rw [childText, hn]
    rfl

variable {source : Text} {c : Container}

theorem Stands.fresh (h : c.Stands source) : c.word.Fresh source :=
  Node.fresh_aliasWord ((Placeholder.free_source source).of_isInfix h.tail) 0 fun n hn =>
    (Placeholder.free_source source).of_isInfix (h.children n hn).2

theorem Stands.isKeys (h : c.Stands source) :
    Splice.IsKeys source (c.keys (Placeholder.stem source)) :=
  h.siblings.isKeys source

end Container

namespace Splice

/-- **The content with placeholders, cut at them, gives the word back.** -/
theorem pieces_aliased {source : Text} {c : Container} (h : c.Stands source) :
    pieces (c.keys (Placeholder.stem source)) (c.aliased (Placeholder.stem source)) =
      c.word.group := by
  rw [← c.spell_word]
  exact pieces_spell h.isKeys h.fresh (c.within_keys _)

/-- The slice of the source at the child of a container with a number. -/
def childSlice (source : Text) (c : Container) (index : Nat) : Text :=
  (c.children[index]?.map fun n => n.info.span.slice source).getD []

/-- **Placeholders can be taken back.** In the content of every container of a template, the
search for the placeholders of its children finds the children, each exactly once and in source
order; and with the slice of the source at each child in place of its placeholder the content is
the slice of the source at the content. -/
theorem aliased_decodes {source : Text} {tree : Tree} (h : parse source = .ok tree) {l : Listed}
    (hl : l ∈ tree.listing) {c : Container} (hc : l.entry.container? = some c) :
    (pieces (c.keys tree.stem) (c.aliased tree.stem)).filterMap Piece.index? =
        List.range c.children.length ∧
      (c.children.Pairwise fun a b => a.info.span.stop ≤ b.info.span.index) ∧
      (pieces (c.keys tree.stem) (c.aliased tree.stem)).flatMap
        (Piece.restore (childSlice source c)) = c.span.slice source := by
  have hstands := parse_stands h hl hc
  rw [(parse_placed h).stem_eq, pieces_aliased hstands, Word.index?_group, Word.restore_group]
  refine ⟨c.slots_word, hstands.inOrder, ?_⟩
  rw [hstands.slice]
  refine c.restore_word fun i n hn => ?_
  rw [childSlice, hn]
  exact (hstands.children n (List.mem_of_getElem? hn)).1.slice

/-- Literals that go on from the placeholders before them: the stem is `_gtx` here, and the text
after the first placeholder makes another one with its last low line. -/
theorem aliased_decodes_overlap : ∃ tree,
    parse "_gt{{a}}gtx1_{{b}}gtx0_{{c}}".toList = .ok tree ∧
      tree.aliased = "_gt_gtx0_gtx1__gtx1_gtx0__gtx2_".toList ∧
      (pieces ((Container.ofTree tree).keys tree.stem) tree.aliased).filterMap Piece.index? =
        List.range tree.children.length ∧
      (pieces ((Container.ofTree tree).keys tree.stem) tree.aliased).flatMap (Piece.restore
        (childSlice "_gt{{a}}gtx1_{{b}}gtx0_{{c}}".toList (.ofTree tree))) =
          tree.span.slice "_gt{{a}}gtx1_{{b}}gtx0_{{c}}".toList := by
  have hok : ((parse "_gt{{a}}gtx1_{{b}}gtx0_{{c}}".toList).map Tree.aliased).toOption =
      some "_gt_gtx0_gtx1__gtx1_gtx0__gtx2_".toList := by decide +kernel
  cases h : parse "_gt{{a}}gtx1_{{b}}gtx0_{{c}}".toList with
  | error e =>
    rw [h] at hok
    exact absurd hok (by simp [Except.map, Except.toOption])
  | ok tree =>
    rw [h] at hok
    have hroot : (⟨none, .root tree⟩ : Listed) ∈ tree.listing := by simp [Tree.listing]
    have hdecodes := aliased_decodes h hroot rfl
    exact ⟨tree, rfl, Option.some.inj hok, hdecodes.1, hdecodes.2.2⟩

end Splice

end TemplateFormat
