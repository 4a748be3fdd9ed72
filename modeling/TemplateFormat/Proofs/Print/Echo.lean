import TemplateFormat.Proofs.Print.Between

/-!
# Nodes that are read back

`Node.Echoes` says which nodes can be read back where a node was printed: its actions read as ones
that are printed the same, its literals have other white space, and the content of a block has the
rows that it had. The literals of siblings are then the same without white space, and no word comes
or goes. Wherever a node is printed, and whatever is read back for it, both fit alike in broken
mode.

Results:
* `Node.Echoes.fits_eq`: what is read back fits alike.
* `Node.solid_of_rows`: the literals of siblings, without white space.
-/

namespace TemplateFormat

open Doc Render

section Forall₂

variable {α β : Type} {r : α → β → Prop}

theorem isSome_of_rel {x : Option α} {y : Option β} (h : Option.Rel r x y) :
    y.isSome = x.isSome := by
  cases h <;> rfl

theorem forall₂_append_split {as bs : List α} {cs : List β} (h : List.Forall₂ r (as ++ bs) cs) :
    ∃ as' bs', cs = as' ++ bs' ∧ List.Forall₂ r as as' ∧ List.Forall₂ r bs bs' := by
  induction as generalizing cs with
  | nil => exact ⟨[], cs, rfl, .nil, h⟩
  | cons a as ih =>
    obtain ⟨c, cs, hc, hcs, rfl⟩ := List.forall₂_cons_left_iff.mp h
    obtain ⟨as', bs', rfl, has, hbs⟩ := ih hcs
    exact ⟨c :: as', bs', rfl, .cons hc has, hbs⟩

theorem exists_left_of_mem {as : List α} {bs : List β} (h : List.Forall₂ r as bs) :
    ∀ b ∈ bs, ∃ a ∈ as, r a b := by
  induction h with
  | nil => simp
  | cons h _ ih =>
    refine List.forall_mem_cons.mpr ⟨⟨_, List.mem_cons_self, h⟩, fun b hb => ?_⟩
    obtain ⟨a, ha, hab⟩ := ih b hb
    exact ⟨a, List.mem_cons_of_mem _ ha, hab⟩

theorem exists_right_of_getElem? {as : List α} {bs : List β} (h : List.Forall₂ r as bs) :
    ∀ {i : Nat} {a : α}, as[i]? = some a → ∃ b, bs[i]? = some b ∧ r a b := by
  induction h with
  | nil => exact fun ha => absurd ha (by simp)
  | cons h _ ih =>
    rintro (_ | i) a ha
    · obtain rfl := Option.some.inj ha
      exact ⟨_, rfl, h⟩
    · exact ih ha

end Forall₂

/-- The leaf reads as one that is printed the same. -/
structure Leaf.Echoes (spacing : Bool) (l l' : Leaf) : Prop extends
    Rewritten spacing l.text l.action l'.text l'.action where
  id_eq : l'.id = l.id

/-- The actions around a body are read back. -/
structure Frame.Echoes (spacing : Bool) (f f' : Frame) : Prop where
  keyword : f'.keyword = f.keyword
  branch : f'.branch = f.branch
  start : f.start.Echoes spacing f'.start
  stop : Option.Rel (Leaf.Echoes spacing) f.stop f'.stop

/-- Both blocks have a closing action, or none. -/
theorem Frame.Echoes.stop_cases {spacing : Bool} {f f' : Frame} (h : f.Echoes spacing f') :
    (f.stop = none ∧ f'.stop = none) ∨
      ∃ l l', f.stop = some l ∧ f'.stop = some l' ∧ l.Echoes spacing l' := by
  have hrel := h.stop
  generalize f.stop = stop at hrel
  generalize f'.stop = stop' at hrel
  cases hrel with
  | none => exact .inl ⟨rfl, rfl⟩
  | some hl => exact .inr ⟨_, _, rfl, rfl, hl⟩

namespace Node

/-- The rows of the content of a block. -/
def rows (children : List Node) (tail : Text) : List (Bool × Word) :=
  (aliasWord 0 children ++ Word.ofText tail).rows

mutual

/-- The second node can be read back where the first one was printed. -/
def Echoes (spacing : Bool) : Node → Node → Prop
  | .action info t act, m => ∃ info' t' act', m = .action info' t' act' ∧ info'.id = info.id ∧
      Rewritten spacing t act t' act'
  | .raw _ _, _ => False
  | .block info frame children, m => ∃ info' frame' children', m = .block info' frame' children' ∧
      info'.id = info.id ∧ frame.Echoes spacing frame' ∧
        rows children' frame'.tail = rows children frame.tail ∧ EchoesAll spacing children children'
  | .chain info branches, m => ∃ info' branches', m = .chain info' branches' ∧ info'.id = info.id ∧
      (∀ b ∈ branches', b.info.lead = []) ∧ EchoesAll spacing branches branches'

/-- The second nodes can be read back where the first ones were printed. -/
def EchoesAll (spacing : Bool) : List Node → List Node → Prop
  | [], ms => ms = []
  | n :: ns, ms => ∃ m ms', ms = m :: ms' ∧ Echoes spacing n m ∧ EchoesAll spacing ns ms'

end

variable {spacing : Bool} {stem : Text} {n m : Node} {ns ms : List Node}

theorem echoesAll_iff : EchoesAll spacing ns ms ↔ List.Forall₂ (Echoes spacing) ns ms := by
  induction ns generalizing ms with
  | nil =>
    rw [EchoesAll, List.forall₂_nil_left_iff]
  | cons n ns ih =>
    rw [EchoesAll, List.forall₂_cons_left_iff]
    constructor
    · rintro ⟨m, ms, rfl, hm, hms⟩
      exact ⟨m, ms, hm, ih.mp hms, rfl⟩
    · rintro ⟨m, ms, hm, hms, rfl⟩
      exact ⟨m, ms, rfl, hm, ih.mpr hms⟩

/-! ## Parts that stay -/

theorem Echoes.id_eq (h : n.Echoes spacing m) : m.info.id = n.info.id := by
  cases n with
  | action info t act =>
    obtain ⟨info', t', act', rfl, hid, -⟩ := h
    exact hid
  | raw info t => exact h.elim
  | block info frame children =>
    obtain ⟨info', frame', children', rfl, hid, -⟩ := h
    exact hid
  | chain info branches =>
    obtain ⟨info', branches', rfl, hid, -⟩ := h
    exact hid

theorem placeholder_eq (h : List.Forall₂ (Echoes spacing) ns ms) (stem : Text) :
    ms.map (placeholder stem) = ns.map (placeholder stem) := by
  induction h with
  | nil => rfl
  | cons h _ ih => rw [List.map_cons, List.map_cons, ih, placeholder, placeholder, h.id_eq]

theorem Echoes.isBranch {first last : Bool} (h : n.Echoes spacing m) (hb : n.IsBranch first last) :
    m.IsBranch first last := by
  cases n with
  | block info frame children =>
    obtain ⟨info', frame', children', rfl, -, hframe, -⟩ := h
    obtain ⟨hbranch, hkeyword, hstop⟩ := hb
    refine ⟨hframe.branch.trans hbranch, ?_, (isSome_of_rel hframe.stop).trans hstop⟩
    rw [hframe.keyword]
    exact hkeyword
  | _ => exact hb.elim

theorem isChain_of_echoes (h : List.Forall₂ (Echoes spacing) ns ms) (hc : IsChain ns) :
    IsChain ms := by
  obtain ⟨first, mid, last, rfl, hfirst, hmid, hlast⟩ := hc
  obtain ⟨first', rest, he, hrest, rfl⟩ := List.forall₂_cons_left_iff.mp h
  obtain ⟨mid', last', rfl, hmid', hlast'⟩ := forall₂_append_split hrest
  obtain ⟨last', _, he', hnil, rfl⟩ := List.forall₂_cons_left_iff.mp hlast'
  obtain rfl := List.forall₂_nil_left_iff.mp hnil
  refine ⟨first', mid', last', rfl, he.isBranch hfirst, fun m hm => ?_, he'.isBranch hlast⟩
  obtain ⟨n, hn, hnm⟩ := exists_left_of_mem hmid' m hm
  exact hnm.isBranch (hmid n hn)

theorem Echoes.entire (h : n.Echoes spacing m) (he : n.Entire) : m.Entire := by
  cases n with
  | action info t act =>
    obtain ⟨info', t', act', rfl, -⟩ := h
    trivial
  | raw info t => exact h.elim
  | block info frame children =>
    obtain ⟨info', frame', children', rfl, -, hframe, -⟩ := h
    exact ⟨(isSome_of_rel hframe.stop).trans he.1, hframe.branch.trans he.2⟩
  | chain info branches =>
    obtain ⟨info', branches', rfl, -, -, hbranches⟩ := h
    exact isChain_of_echoes (echoesAll_iff.mp hbranches) he

/-- A literal is no part of the node behind it. -/
theorem Echoes.setLead (h : n.Echoes spacing m) (lead : Text) :
    n.Echoes spacing (m.setLead lead) := by
  cases n with
  | action info t act =>
    obtain ⟨info', t', act', rfl, h⟩ := h
    exact ⟨_, t', act', rfl, h⟩
  | raw info t => exact h.elim
  | block info frame children =>
    obtain ⟨info', frame', children', rfl, h⟩ := h
    exact ⟨_, frame', children', rfl, h⟩
  | chain info branches =>
    obtain ⟨info', branches', rfl, h⟩ := h
    exact ⟨_, branches', rfl, h⟩

theorem sheet_setLead (lead : Text) (m : Node) :
    (m.setLead lead).sheet spacing stem = m.sheet spacing stem := by
  cases m with
  | block info frame children => rw [setLead, sheet_block, sheet_block]; rfl
  | _ => rfl

/-! ## Ends -/

/-- The closing action ends the text of a block. -/
theorem exists_stop_text {f f' : Frame} (h : f.Echoes spacing f') (hstop : f.stop.isSome = true) :
    ∃ t, (f'.stop.map Leaf.text).getD [] = t ++ ['}'] := by
  obtain ⟨hnone, -⟩ | ⟨l, l', -, hl', hl⟩ := h.stop_cases
  · rw [hnone] at hstop
    exact absurd hstop Bool.false_ne_true
  · rw [hl']
    exact hl.reads.last

/-- What is read back for a block that is closed ends with a brace. -/
theorem Echoes.ends_block {info : Info} {frame : Frame} {children : List Node}
    (h : (block info frame children).Echoes spacing m) (hstop : frame.stop.isSome = true) :
    ∃ t, m.text = t ++ ['}'] := by
  obtain ⟨info', frame', children', rfl, -, hframe, -⟩ := h
  obtain ⟨t, ht⟩ := exists_stop_text hframe hstop
  rw [text, ht]
  exact ⟨_, (List.append_assoc _ _ _).symm⟩

/-- **What is read back for a node ends with a brace.** -/
theorem Echoes.ends (h : n.Echoes spacing m) (he : n.Entire) : ∃ t, m.text = t ++ ['}'] := by
  cases n with
  | action info t act =>
    obtain ⟨info', t', act', rfl, -, hact⟩ := h
    exact hact.reads.last
  | raw info t => exact h.elim
  | block info frame children => exact h.ends_block he.1
  | chain info branches =>
    obtain ⟨info', branches', rfl, -, -, hbranches⟩ := h
    obtain ⟨first, mid, last, rfl, -, -, hlast⟩ := he
    have hall : List.Forall₂ (Echoes spacing) ((first :: mid) ++ [last]) branches' :=
      echoesAll_iff.mp hbranches
    obtain ⟨init', rest', rfl, -, hrest⟩ := forall₂_append_split hall
    obtain ⟨last', _, hlast', hnil, rfl⟩ := List.forall₂_cons_left_iff.mp hrest
    obtain rfl := List.forall₂_nil_left_iff.mp hnil
    cases last with
    | block info frame children =>
      obtain ⟨t, ht⟩ := hlast'.ends_block hlast.2.2
      rw [text, spellAll_append, spellAll_singleton, ht]
      exact ⟨_, by rw [← List.append_assoc, ← List.append_assoc]⟩
    | _ => exact hlast.elim

/-! ## Broken mode -/

end Node

/-- An action that opens or closes a block is printed as an action. -/
theorem Leaf.akin_sheet (spacing : Bool) (l : Leaf) :
    Akin (l.sheet spacing).propagate (l.action.doc spacing) := by
  rw [sheet, propagate, propagate_of_rigid _ (l.action.rigid_doc spacing)]
  exact .group_of_rigid _ (l.action.rigid_doc spacing)

/-- An action that is read back is printed alike. -/
theorem Leaf.Echoes.akin {spacing : Bool} {l l' : Leaf} (h : l.Echoes spacing l') :
    Akin (l'.sheet spacing).propagate (l.sheet spacing).propagate :=
  ((l'.akin_sheet spacing).trans (.of_same h.same)).trans (l.akin_sheet spacing).symm

namespace Node

variable {spacing : Bool} {stem : Text} {n m : Node} {ns ms : List Node}

theorem fits_inside (info : Info) (frame : Frame) (children : List Node) (after : Int → Bool) :
    fitsThen .broken (inside spacing stem info frame children).propagate after =
      fitsThen .broken (frame.start.sheet spacing).propagate atBreak :=
  Printer.fits_blockBody after

theorem fits_block (info : Info) (frame : Frame) (children : List Node) (after : Int → Bool) :
    fitsThen .broken ((block info frame children).sheet spacing stem).propagate after =
      fitsThen .broken (frame.start.sheet spacing).propagate atBreak := by
  rw [sheet_block]
  split
  · exact fits_inside ..
  · rw [propagate, fitsThen, ite_self]
    exact fits_inside ..

theorem fits_group (d : Doc) (broken : Bool) (after : Int → Bool) :
    fitsThen .broken (Doc.group d broken).propagate after = fitsThen .broken d.propagate after := by
  rw [propagate, fitsThen, ite_self]

/-- What is read back for a block fits alike. -/
theorem Echoes.fits_block_eq {info : Info} {frame : Frame} {children : List Node}
    (h : (block info frame children).Echoes spacing m) (after : Int → Bool) :
    fitsThen .broken (m.sheet spacing stem).propagate after =
      fitsThen .broken ((block info frame children).sheet spacing stem).propagate after := by
  obtain ⟨info', frame', children', rfl, -, hframe, -⟩ := h
  rw [fits_block, fits_block, hframe.start.akin.fits]

theorem same_join_propagate (ds : List Doc) :
    Same (Doc.join ds).propagate (.concat (ds.map propagate)) := by
  rw [← join_propagateAll, propagateAll_eq_map]
  exact same_join _

/-- A chain fits as its first branch does. -/
theorem fits_chain {info info' : Info} {frame : Frame} {children : List Node} (rest : List Node)
    (after : Int → Bool) :
    fitsThen .broken
        ((chain info (block info' frame children :: rest)).sheet spacing stem).propagate after =
      fitsThen .broken (frame.start.sheet spacing).propagate atBreak := by
  rw [sheet_chain, fits_group, (same_join_propagate _).fits, List.map_cons, List.map_cons, fitsThen,
    fitsAllThen]
  exact fits_block ..

/-- **What is read back fits alike** in broken mode: a block fits as its opening action does. -/
theorem Echoes.fits_eq (h : n.Echoes spacing m) (he : n.Entire) (after : Int → Bool) :
    fitsThen .broken (m.sheet spacing stem).propagate after =
      fitsThen .broken (n.sheet spacing stem).propagate after := by
  cases n with
  | action info t act =>
    obtain ⟨info', t', act', rfl, -, hact⟩ := h
    rw [sheet, sheet, propagate_of_rigid _ (act'.rigid_doc spacing),
      propagate_of_rigid _ (act.rigid_doc spacing), hact.same.fits]
  | raw info t => exact h.elim
  | block info frame children => exact h.fits_block_eq after
  | chain info branches =>
    obtain ⟨info', branches', rfl, -, -, hbranches⟩ := h
    obtain ⟨first, mid, last, rfl, hfirst, -, -⟩ := he
    obtain ⟨first', rest', rfl, hfirst', -⟩ := hbranches
    cases first with
    | block i frame children =>
      obtain ⟨i', frame', children', rfl, -, hframe, -⟩ := hfirst'
      rw [fits_chain, fits_chain, hframe.start.akin.fits]
    | _ => exact hfirst.elim

/-! ## Literals -/

/-- What is not blank in a word. -/
theorem shown_of_rows {v w : Word} (h : v.rows = w.rows) :
    v.filter (fun s => !s.isBlank) = w.filter fun s => !s.isBlank := by
  have hshown (w : Word) : w.rows.flatMap (fun r => r.2.filter fun s => !s.isBlank) =
      w.filter fun s => !s.isBlank :=
    Word.flatMap_rows (fun _ _ => List.filter_append ..) (fun b hb => by
      rw [List.filter_eq_nil_iff]
      intro s hs
      simp [List.all_eq_true.mp hb s hs]) w
  rw [← hshown v, ← hshown w, h]

theorem filter_ofText (t : Text) : (Word.ofText t).filter (fun s => !s.isBlank) =
    Word.ofText (Text.solid t) :=
  List.filter_map ..

/-- Characters up to a slot. -/
theorem ofText_slot_inj {s s' : Text} {i i' : Nat} {w w' : Word}
    (h : Word.ofText s ++ .slot i :: w = Word.ofText s' ++ .slot i' :: w') :
    s = s' ∧ i = i' ∧ w = w' := by
  induction s generalizing s' with
  | nil =>
    cases s' with
    | nil => simpa [Word.ofText] using h
    | cons c s' => exact absurd (List.cons.inj h).1 (by simp)
  | cons c s ih =>
    cases s' with
    | nil => exact absurd (List.cons.inj h).1 (by simp)
    | cons c' s' =>
      obtain ⟨hc, h⟩ := List.cons.inj h
      obtain ⟨rfl, rfl, rfl⟩ := ih h
      exact ⟨by rw [Symbol.char.inj hc], rfl, rfl⟩

/-- **The literals of siblings** are the same without white space, if the rows are the same. -/
theorem solid_of_rows {ns' : List Node} {tail tail' : Text} (hlen : ns'.length = ns.length)
    (h : rows ns' tail' = rows ns tail) :
    List.Forall₂ (fun n n' => Text.solid n'.info.lead = Text.solid n.info.lead) ns ns' ∧
      Text.solid tail' = Text.solid tail := by
  have hshown := shown_of_rows h
  generalize 0 = k at hshown
  clear h
  induction ns generalizing ns' k with
  | nil =>
    obtain rfl := List.eq_nil_of_length_eq_zero hlen
    refine ⟨.nil, ?_⟩
    rw [aliasWord, List.nil_append, List.nil_append, filter_ofText, filter_ofText] at hshown
    exact Word.ofText_injective hshown
  | cons n ns ih =>
    obtain ⟨n', ns', rfl⟩ := List.exists_cons_of_length_eq_add_one (n := ns.length)
      (by simpa using hlen)
    have hfilter (t : Text) (w : Word) : (Word.ofText t ++ .slot k :: w).filter (fun s =>
        !s.isBlank) =
        Word.ofText (Text.solid t) ++ .slot k :: w.filter fun s => !s.isBlank := by
      rw [List.filter_append, filter_ofText]
      rfl
    rw [aliasWord, aliasWord, List.append_assoc, List.append_assoc, List.cons_append,
      List.cons_append, hfilter, hfilter] at hshown
    obtain ⟨hlead, -, hrest⟩ := ofText_slot_inj hshown
    obtain ⟨hleads, htail⟩ := ih (by simpa using hlen) _ hrest
    exact ⟨.cons hlead hleads, htail⟩

/-- No action begins in the literals that are read back. -/
theorem Quiet.of_rows {ns' : List Node} {tail tail' after : Text} (hquiet : Quiet tail after ns)
    (hlen : ns'.length = ns.length) (h : rows ns' tail' = rows ns tail) :
    Quiet tail' after ns' := by
  obtain ⟨hleads, htail⟩ := solid_of_rows hlen h
  refine ⟨fun n' hn' => ?_, ?_⟩
  · obtain ⟨n, hn, hsolid⟩ := exists_left_of_mem hleads n' hn'
    obtain ⟨hbraces, htags⟩ := hquiet.leads n hn
    exact ⟨hsolid ▸ hbraces, hsolid ▸ htags⟩
  · obtain ⟨hbraces, htags⟩ := hquiet.tail
    exact ⟨htail ▸ hbraces, htail ▸ htags⟩

end Node

end TemplateFormat
