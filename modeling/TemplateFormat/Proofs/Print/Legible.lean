import TemplateFormat.Proofs.Print.EchoFlat
import TemplateFormat.Proofs.Splice.Infix

/-!
# Nodes that can be read

A node is `Legible` if each of its actions reads as itself and no action begins in its literals. The
nodes of a template that keeps its structure are legible, and so is what is read back for them. A
pattern without white space and braces, as the word of a pragma or the stem of a placeholder, stands
in the literals and statements of a legible node and nowhere else. These have other white space when
they are read back, and the same words.

Results:
* `Node.Echoes.legible`: what is read back is legible.
* `Node.infix_content_congr`: containers with the same rows have the same patterns.
-/

namespace TemplateFormat

/-- The text reads as the action, and no raw region begins in it. -/
structure Action.Legible (t : Text) (a : Action) : Prop where
  reads : ReadsAs t a
  unopened : Region.Unopened (Text.solid t)

/-- The action reads as itself. -/
def Leaf.Legible (l : Leaf) : Prop := l.action.Legible l.text

theorem Rewritten.legible {spacing : Bool} {t t' : Text} {a a' : Action}
    (h : Rewritten spacing t a t' a') (ha : a.Legible t) : a'.Legible t' :=
  ⟨h.reads, by rw [h.solid_eq]; exact ha.unopened⟩

namespace Node

mutual

/-- Each action of the node reads as itself, and no action begins in its literals. -/
def Legible : Node → Prop
  | .action _ t act => act.Legible t
  | .raw _ _ => False
  | .block _ frame children => frame.start.Legible ∧ (∀ l ∈ frame.stop, l.Legible) ∧
      Quiet frame.tail openBraces children ∧ (∀ n ∈ children, n.Entire) ∧ LegibleAll children
  | .chain _ branches => IsChain branches ∧ (∀ n ∈ branches, n.info.lead = []) ∧ LegibleAll branches

/-- Each action of the nodes reads as itself, and no action begins in the literals in them. -/
def LegibleAll : List Node → Prop
  | [] => True
  | n :: ns => Legible n ∧ LegibleAll ns

end

variable {source stem : Text} {spacing : Bool} {n m : Node} {ns ms : List Node}

theorem legibleAll_iff : LegibleAll ns ↔ ∀ n ∈ ns, n.Legible := by
  induction ns with
  | nil => simp [LegibleAll]
  | cons n ns ih => rw [LegibleAll, ih, List.forall_mem_cons]

mutual

/-- **What is read back for a legible node is legible.** -/
theorem Echoes.legible : ∀ {n m : Node}, n.Echoes spacing m → n.Legible → m.Legible
  | .action _ _ _, m, h, hn => by
    obtain ⟨info', t', act', rfl, -, hact⟩ := h
    exact hact.legible hn
  | .raw _ _, _, h, _ => h.elim
  | .block _ frame children, m, h, hn => by
    obtain ⟨info', frame', children', rfl, -, hframe, hrows, hchildren⟩ := h
    obtain ⟨hstart, hstop, hquiet, hentire, hlegible⟩ := hn
    have hall := echoesAll_iff.mp hchildren
    refine ⟨hframe.start.legible hstart, ?_, hquiet.of_rows hall.length_eq.symm hrows, ?_,
      EchoesAll.legible hchildren hlegible⟩
    · obtain ⟨-, hnone⟩ | ⟨l, l', hs, hs', hl⟩ := hframe.stop_cases
      · simp [hnone]
      · rw [hs']
        rintro _ ⟨⟩
        exact hl.legible (hstop l hs)
    · intro m hm
      obtain ⟨n, hn, hnm⟩ := exists_left_of_mem hall m hm
      exact hnm.entire (hentire n hn)
  | .chain _ _, m, h, hn => by
    obtain ⟨info', branches', rfl, -, hleads, hbranches⟩ := h
    exact ⟨isChain_of_echoes (echoesAll_iff.mp hbranches) hn.1, hleads,
      EchoesAll.legible hbranches hn.2.2⟩

theorem EchoesAll.legible : ∀ {ns ms : List Node}, EchoesAll spacing ns ms → LegibleAll ns →
    LegibleAll ms
  | [], _, h, _ => by
    rw [show _ = [] from h]
    trivial
  | _ :: _, _, h, hn => by
    obtain ⟨m, ms', rfl, hm, hms⟩ := h
    exact ⟨Echoes.legible hm hn.1, EchoesAll.legible hms hn.2⟩

end

end Node

/-! ## Patterns -/

/-- The characters of braces and marks. -/
def signs : List Char := ['{', '}', '-', '%', '<', '>', '/', '*']

theorem mem_signs_of_all {t : Text} (h : t.all (· ∈ signs) = true) : ∀ c ∈ t, c ∈ signs :=
  fun c hc => of_decide_eq_true (List.all_eq_true.mp h c hc)

/-- No white space and no brace is in the pattern, and no sign at its ends. -/
structure Pattern (p : Text) : Prop where
  ne_nil : p ≠ []
  solid : Text.IsSolid p
  opening : '{' ∉ p
  closing : '}' ∉ p
  head : ∀ c ∈ p.head?, c ∉ signs
  last : ∀ c ∈ p.getLast?, c ∉ signs

namespace Pattern

variable {p t s : Text}

theorem infix_append_iff_of_last (hp : Pattern p) (h : ∃ u, t = u ++ ['}']) :
    p <:+: t ++ s ↔ p <:+: t ∨ p <:+: s := by
  constructor
  · obtain ⟨u, rfl⟩ := h
    rw [List.append_assoc]
    exact fun h => (infix_append_cons h hp.closing).imp_left fun h => h.trans ⟨[], ['}'], rfl⟩
  · rintro (h | h)
    · exact h.trans (List.prefix_append t s).isInfix
    · exact h.trans (List.suffix_append t s).isInfix

theorem infix_append_iff_of_head (hp : Pattern p) (h : s = [] ∨ ∃ u, s = '{' :: u) :
    p <:+: t ++ s ↔ p <:+: t ∨ p <:+: s := by
  constructor
  · rcases h with rfl | ⟨u, rfl⟩
    · exact fun h => .inl (by rwa [List.append_nil] at h)
    · exact fun h => (infix_append_cons h hp.opening).imp_right fun h =>
        h.trans (List.suffix_cons '{' u).isInfix
  · rintro (h | h)
    · exact h.trans (List.prefix_append t s).isInfix
    · exact h.trans (List.suffix_append t s).isInfix

/-- **A pattern in an action** is in its statement. -/
theorem infix_action_iff (hp : Pattern p) {a : Action} (h : ReadsAs t a) :
    p <:+: t ↔ p <:+: a.statement := by
  obtain ⟨inner, rfl, -, rfl⟩ := h
  obtain ⟨b, b', hb, hb', hinner⟩ := Action.ofInner_spec inner
  generalize Action.ofInner inner = act at hinner
  have hopening : ∀ c ∈ openBraces ++ act.opening.opening, c ∈ signs :=
    mem_signs_of_all (by cases act.opening <;> decide)
  have hclosing : ∀ c ∈ act.closing.closing ++ closeBraces, c ∈ signs :=
    mem_signs_of_all (by cases act.closing <;> decide)
  have hclear {b s : Text} (hb : Text.isBlank b = true) (hs : ∀ c ∈ s, c ∈ signs) {c : Char}
      (hc : c ∈ p) (hsign : c ∉ signs) : c ∉ b ++ s := by
    rw [List.mem_append, not_or]
    exact ⟨fun hmem => absurd (Text.isBlank_iff.mp hb c hmem)
      (Bool.eq_false_iff.mp (hp.solid c hc)),
      fun hmem => hsign (hs c hmem)⟩
  have ht : openBraces ++ (inner ++ closeBraces) = ((openBraces ++ act.opening.opening) ++ b) ++
      (act.statement ++ (b' ++ (act.closing.closing ++ closeBraces))) := by
    rw [hinner]
    simp only [List.append_assoc]
  rw [ht]
  constructor
  · intro h
    refine infix_of_append_left hp.ne_nil (fun c hc => ?_)
      (infix_of_append_right hp.ne_nil (fun c hc => ?_) h)
    · exact hclear hb' hclosing (List.mem_of_getLast? hc) (hp.last c hc)
    · have hmem := hclear hb hopening (List.mem_of_head? hc) (hp.head c hc)
      rwa [List.mem_append, or_comm, ← List.mem_append] at hmem
  · intro h
    exact h.trans ⟨_, _, List.append_assoc ..⟩

end Pattern

/-- An action that is read back has the same patterns in it. -/
theorem Rewritten.infix_iff {spacing : Bool} {p t t' : Text} {a a' : Action}
    (h : Rewritten spacing t a t' a') (ha : a.Legible t) (hp : Pattern p) :
    p <:+: t' ↔ p <:+: t := by
  rw [hp.infix_action_iff h.reads, hp.infix_action_iff ha.reads, ← Text.infix_squeeze hp.solid,
    h.squeeze_eq, Text.infix_squeeze hp.solid]

namespace Node

variable {spacing : Bool} {p tail : Text} {n m : Node} {ns ms : List Node}

/-! ## Braces -/

theorem LegibleAll.append (h : LegibleAll (ns ++ ms)) : LegibleAll ns ∧ LegibleAll ms := by
  rw [legibleAll_iff] at h
  rw [legibleAll_iff, legibleAll_iff]
  exact List.forall_mem_append.mp h

/-- A legible node starts with a brace. -/
theorem Legible.head (h : n.Legible) : ∃ u, n.text = '{' :: u := by
  have hblock {info : Info} {frame : Frame} {children : List Node}
      (h : (block info frame children).Legible) : ∃ u, (block info frame children).text =
      '{' :: u := by
    obtain ⟨u, hu⟩ := h.1.reads.head
    rw [text, hu]
    exact ⟨_, rfl⟩
  cases n with
  | action info t act => exact h.reads.head
  | raw info t => exact h.elim
  | block info frame children => exact hblock h
  | chain info branches =>
    obtain ⟨⟨first, mid, last, rfl, hfirst, -, -⟩, hleads, hbranches⟩ := h
    cases first with
    | block i f cs =>
      obtain ⟨u, hu⟩ := hblock hbranches.1
      have hlead : (block i f cs).info.lead = [] := hleads _ List.mem_cons_self
      rw [text, spellAll, hlead, hu]
      exact ⟨_, rfl⟩
    | _ => exact hfirst.elim

/-- A legible node that is closed ends with a brace. -/
theorem Legible.last (h : n.Legible) (he : n.Entire) : ∃ u, n.text = u ++ ['}'] := by
  have hblock {info : Info} {frame : Frame} {children : List Node}
      (h : (block info frame children).Legible) (hstop : frame.stop.isSome = true) :
      ∃ u, (block info frame children).text = u ++ ['}'] := by
    obtain ⟨l, hl⟩ := Option.isSome_iff_exists.mp hstop
    obtain ⟨u, hu⟩ := (h.2.1 l hl).reads.last
    rw [text, hl, Option.map_some, Option.getD_some, hu]
    exact ⟨_, (List.append_assoc ..).symm⟩
  cases n with
  | action info t act => exact h.reads.last
  | raw info t => exact h.elim
  | block info frame children => exact hblock h he.1
  | chain info branches =>
    obtain ⟨⟨first, mid, last, rfl, -, -, hlast⟩, -, hbranches⟩ := h
    rw [← List.cons_append] at hbranches
    obtain ⟨-, hlegible⟩ := hbranches.append
    cases last with
    | block i f cs =>
      obtain ⟨u, hu⟩ := hblock hlegible.1 hlast.2.2
      rw [text, ← List.cons_append, spellAll_append, spellAll_singleton, hu]
      exact ⟨_, by rw [← List.append_assoc, ← List.append_assoc]⟩
    | _ => exact hlast.elim

/-- A legible node that is closed stands in braces. -/
theorem Legible.braces (h : n.Legible) (he : n.Entire) : ∃ u, n.text = '{' :: u ++ ['}'] := by
  obtain ⟨u, hu⟩ := h.head
  obtain ⟨v, hv⟩ := h.last he
  cases v with
  | nil => exact absurd (hu.symm.trans hv) (by simp)
  | cons c v =>
    obtain ⟨rfl, -⟩ := List.cons.inj (hu.symm.trans hv)
    exact ⟨v, hv⟩

/-! ## Patterns of nodes -/

/-- **A pattern in the content of a container** is in its literals or in one of its children. -/
theorem infix_content (hp : Pattern p) (hlegible : LegibleAll ns) (hentire : ∀ n ∈ ns, n.Entire) :
    p <:+: spellAll ns ++ tail ↔
      Word.ofText p <:+: aliasWord 0 ns ++ Word.ofText tail ∨ ∃ n ∈ ns, p <:+: n.text := by
  have hrestore := Container.restore_childText ⟨ns, tail, default⟩
  have hslots := Container.slots_word ⟨ns, tail, default⟩
  rw [show spellAll ns ++ tail = Container.text ⟨ns, tail, default⟩ from rfl, ← hrestore,
    Word.infix_restore_iff hp.opening hp.closing, hslots]
  · refine or_congr Iff.rfl ⟨?_, ?_⟩
    · rintro ⟨i, hi, h⟩
      have hn := List.getElem?_eq_getElem (List.mem_range.mp hi)
      refine ⟨_, List.getElem_mem (List.mem_range.mp hi), ?_⟩
      rwa [Container.childText, hn] at h
    · rintro ⟨n, hn, h⟩
      obtain ⟨i, hi, rfl⟩ := List.getElem_of_mem hn
      refine ⟨i, List.mem_range.mpr hi, ?_⟩
      rwa [Container.childText, List.getElem?_eq_getElem hi]
  · intro i hi
    rw [hslots] at hi
    have hn := List.getElem?_eq_getElem (List.mem_range.mp hi)
    have hmem := List.getElem_mem (List.mem_range.mp hi)
    rw [Container.childText, hn]
    exact (legibleAll_iff.mp hlegible _ hmem).braces (hentire _ hmem)

/-- **A pattern in a block** is in one of its actions or in its content. -/
theorem infix_block (hp : Pattern p) {info : Info} {frame : Frame} {children : List Node}
    (h : (block info frame children).Legible) : p <:+: (block info frame children).text ↔
      p <:+: frame.start.text ∨ p <:+: spellAll children ++ frame.tail ∨ ∃ l ∈ frame.stop,
      p <:+: l.text := by
  have hhead : (frame.stop.map Leaf.text).getD [] = [] ∨
      ∃ u, (frame.stop.map Leaf.text).getD [] = '{' :: u := by
    cases hstop : frame.stop with
    | none => exact .inl rfl
    | some l => exact .inr (h.2.1 l hstop).reads.head
  rw [text, List.append_assoc, List.append_assoc, hp.infix_append_iff_of_last h.1.reads.last,
    ← List.append_assoc, hp.infix_append_iff_of_head hhead]
  refine or_congr Iff.rfl (or_congr Iff.rfl ?_)
  cases frame.stop with
  | none => simpa using hp.ne_nil
  | some l => simp

/-- **A pattern in the branches of a chain** is in one of them. -/
theorem infix_branches (hp : Pattern p) (h : LegibleAll ns) (hleads : ∀ n ∈ ns, n.info.lead = []) :
    p <:+: spellAll ns ↔ ∃ n ∈ ns, p <:+: n.text := by
  induction ns with
  | nil => simpa [spellAll] using hp.ne_nil
  | cons n ns ih =>
    obtain ⟨hlead, hleads⟩ := List.forall_mem_cons.mp hleads
    have hhead : spellAll ns = [] ∨ ∃ u, spellAll ns = '{' :: u := by
      cases ns with
      | nil => exact .inl rfl
      | cons m ns =>
        obtain ⟨u, hu⟩ := h.2.1.head
        rw [spellAll, hleads m List.mem_cons_self, hu]
        exact .inr ⟨_, rfl⟩
    rw [spellAll, hlead, List.nil_append, hp.infix_append_iff_of_head hhead, ih h.2 hleads,
      List.exists_mem_cons_iff]

/-- Nodes with the same patterns, each for each. -/
theorem exists_infix_congr (h : List.Forall₂ (fun n m : Node => p <:+: m.text ↔ p <:+: n.text) ns
    ms) :
    (∃ m ∈ ms, p <:+: m.text) ↔ ∃ n ∈ ns, p <:+: n.text := by
  induction h with
  | nil => simp
  | cons h _ ih => rw [List.exists_mem_cons_iff, List.exists_mem_cons_iff, h, ih]

/-- **Containers with the same rows** and the same patterns in their children. -/
theorem infix_content_congr (hp : Pattern p) {tail' : Text} (hn : LegibleAll ns)
    (hm : LegibleAll ms)
    (hentire : ∀ n ∈ ns, n.Entire) (hentire' : ∀ m ∈ ms, m.Entire)
    (hrows : rows ms tail' = rows ns tail)
    (h : List.Forall₂ (fun n m : Node => p <:+: m.text ↔ p <:+: n.text) ns ms) :
    p <:+: spellAll ms ++ tail' ↔ p <:+: spellAll ns ++ tail := by
  rw [infix_content hp hn hentire, infix_content hp hm hentire',
    Word.infix_of_rows hp.ne_nil hp.solid hrows,
    exists_infix_congr h]

mutual

/-- **What is read back has the same patterns in it**, by induction on the node. -/
theorem Echoes.infix_iff (hp : Pattern p) : ∀ {n m : Node}, n.Echoes spacing m → n.Legible →
    (p <:+: m.text ↔ p <:+: n.text)
  | .action _ _ _, m, h, hn => by
    obtain ⟨info', t', act', rfl, -, hact⟩ := h
    exact hact.infix_iff hn hp
  | .raw _ _, _, h, _ => h.elim
  | .block _ frame children, m, h, hn => by
    have hm := h.legible hn
    obtain ⟨info', frame', children', rfl, -, hframe, hrows, hchildren⟩ := h
    rw [infix_block hp hn, infix_block hp hm, hframe.start.infix_iff hn.1 hp,
      infix_content_congr hp hn.2.2.2.2 hm.2.2.2.2 hn.2.2.2.1 hm.2.2.2.1 hrows
        (EchoesAll.infix_iff hp hchildren hn.2.2.2.2)]
    refine or_congr Iff.rfl (or_congr Iff.rfl ?_)
    obtain ⟨hnone, hnone'⟩ | ⟨l, l', hs, hs', hl⟩ := hframe.stop_cases
    · rw [hnone, hnone']
    · rw [hs, hs']
      simpa using hl.infix_iff (hn.2.1 l hs) hp
  | .chain _ _, m, h, hn => by
    have hm := h.legible hn
    obtain ⟨info', branches', rfl, -, hleads, hbranches⟩ := h
    rw [text, text, infix_branches hp hn.2.2 hn.2.1, infix_branches hp hm.2.2 hm.2.1,
      exists_infix_congr (EchoesAll.infix_iff hp hbranches hn.2.2)]

theorem EchoesAll.infix_iff (hp : Pattern p) : ∀ {ns ms : List Node}, EchoesAll spacing ns ms →
    LegibleAll ns → List.Forall₂ (fun n m : Node => p <:+: m.text ↔ p <:+: n.text) ns ms
  | [], _, h, _ => by
    rw [show _ = [] from h]
    exact .nil
  | _ :: _, _, h, hn => by
    obtain ⟨m, ms', rfl, hm, hms⟩ := h
    exact .cons (Echoes.infix_iff hp hm hn.1) (EchoesAll.infix_iff hp hms hn.2)

end

end Node

end TemplateFormat
