import TemplateFormat.Proofs.Print.Sheet
import TemplateFormat.Proofs.Tree.Glyphs

/-!
# Templates without pragmas

A template that does not say the word of the pragmas, and has no raw regions, has a tree in which
nothing is kept as written: no comment and no action before a node is a pragma, and no block is an
ignored region.

Results:
* `Builder.clear_step`, `Builder.clear_steps`: a step keeps the builder clear, and so does a run.
* `parse_clear`: the tree of a template without pragmas and raw regions.
-/

namespace TemplateFormat

/-- The token is an action, and neither it nor the literal before it says the word. -/
structure Token.Unsaid (t : Token) : Prop where
  lead : ¬ Pragma.word <:+: t.lead
  action : ∃ act, t.kind = .action act ∧ ¬ Pragma.word <:+: act.statement ∧
    act.keyword = Keyword.leading? act.statement

namespace Pragma

theorem isComment_of_unsaid {line : Text} (h : ¬ word <:+: line) : isComment line = false := by
  have htrimmed : Text.trimEndBy isSpace (dropReturn line) <:+: line := by
    have hreturn : dropReturn line <:+: line := by
      rw [dropReturn]
      cases hd : Text.dropEnding? ['\r'] line with
      | none => exact List.infix_rfl
      | some rest => exact (Text.dropEnding?_eq_some.mp hd ▸ List.prefix_append ..).isInfix
    refine List.IsInfix.trans ?_ hreturn
    conv_rhs => rw [Text.eq_append_trimEndBy isSpace (dropReturn line)]
    exact (List.prefix_append ..).isInfix
  unfold isComment
  split
  · rfl
  · rename_i inside hinside
    split
    · rfl
    · rename_i before body hbody
      rw [Bool.eq_false_iff]
      intro hsaid
      refine h (List.IsInfix.trans (Text.contains_iff.mp hsaid) (List.IsInfix.trans ?_ htrimmed))
      rw [Text.dropEnding?_eq_some.mp hinside, Text.cut?_eq_some hbody]
      exact ⟨before ++ commentOpening, commentClosing, rfl⟩

theorem endsWithComment_of_unsaid {gap : Text} (h : ¬ word <:+: gap) :
    endsWithComment gap = false := by
  unfold endsWithComment
  split
  · rename_i last line lines hlines
    have hline : line ∈ Text.lines gap := by
      rw [← List.mem_reverse, hlines]
      simp
    rw [isComment_of_unsaid fun hsaid => h (hsaid.trans (Text.line_isInfix hline)), Bool.and_false]
  · rfl

theorem precedes_of_unsaid {previous : Option Node} {n : Node} (h : ¬ word <:+: n.info.lead)
    (hprevious : previous.any isPragma = false) : precedes previous n = false := by
  have hends := endsWithComment_of_unsaid h
  cases n <;> simp [precedes, hends, hprevious]

theorem isPragma_setIgnored (ignored : Bool) (n : Node) :
    isPragma (n.setIgnored ignored) = isPragma n := by
  cases n <;> rfl

end Pragma

theorem Node.clear_setIgnored {n : Node} (h : n.Clear) : (n.setIgnored false).Clear := by
  cases n with
  | action info t act => exact rfl
  | raw info t => exact h
  | block info frame children => exact ⟨rfl, h.2⟩
  | chain info branches => exact ⟨rfl, h.2⟩

/-- A keyword of a statement that does not say the word opens no ignored region. -/
theorem Keyword.ne_ignoreStart {statement : Text} {k : Keyword} (h : leading? statement = some k)
    (hunsaid : ¬ Pragma.word <:+: statement) : k ≠ .ignoreStartKw := by
  rintro rfl
  have hleads := List.find?_some h
  unfold leads at hleads
  split at hleads
  · rename_i rest hrest
    rw [Text.dropStart?_eq_some.mp hrest] at hunsaid
    exact hunsaid ⟨[], "-start".toList ++ rest, rfl⟩
  · exact absurd hleads Bool.false_ne_true

namespace Builder

open Node

/-- Finished children of a container, in any order: clear, and none of them a pragma. -/
structure ClearChildren (ns : List Node) : Prop where
  clear : ∀ n ∈ ns, n.Clear
  unsaid : ∀ n ∈ ns, Pragma.isPragma n = false

theorem clearChildren_nil : ClearChildren [] := ⟨by simp, by simp⟩

theorem ClearChildren.attach {ns : List Node} {n : Node} (h : ClearChildren ns) (hn : n.Clear)
    (hlead : ¬ Pragma.word <:+: n.info.lead) (hunsaid : Pragma.isPragma n = false) :
    ClearChildren (attach ns n) := by
  have hprevious : ns.head?.any Pragma.isPragma = false := by
    cases ns with
    | nil => rfl
    | cons m ns => exact h.unsaid m List.mem_cons_self
  rw [Builder.attach, Pragma.precedes_of_unsaid hlead hprevious]
  refine ⟨List.forall_mem_cons.mpr ⟨clear_setIgnored hn, h.clear⟩,
    List.forall_mem_cons.mpr ⟨?_, h.unsaid⟩⟩
  rw [Pragma.isPragma_setIgnored]
  exact hunsaid

/-- What is known of an open level. -/
structure LevelClear (level : Level) : Prop where
  outer : ClearChildren level.outer
  lead : ¬ Pragma.word <:+: level.lead
  keyword : level.keyword ≠ .ignoreStartKw
  branches : ∀ n ∈ level.branches, n.Clear

/-- What is known of the builder. -/
structure Clear (b : Builder) : Prop where
  children : ClearChildren b.children
  levels : ∀ level ∈ b.levels, LevelClear level

theorem clear_empty : Clear empty := ⟨clearChildren_nil, by simp [empty]⟩

theorem clear_closeBlock {level : Level} {children : List Node} (lead tail : Text) (spanStop : Nat)
    (stop : Option Leaf) (branch : Bool) (hl : LevelClear level) (hc : ClearChildren children) :
    (closeBlock level lead children tail spanStop stop branch).Clear := by
  refine ⟨rfl, hl.keyword, clearAll_iff.mpr fun n hn => ?_⟩
  exact hc.clear n (List.mem_reverse.mp hn)

variable {b b' : Builder} {t : Token}

theorem clear_divideLevel {act : Action} {level : Level} {outer : List Level} (hb : b.Clear)
    (hl : b.levels = level :: outer) : (b.divideLevel level outer t act).Clear := by
  have hlevels := hb.levels
  rw [hl, List.forall_mem_cons] at hlevels
  obtain ⟨hlevel, houter⟩ := hlevels
  refine ⟨clearChildren_nil, List.forall_mem_cons.mpr ⟨⟨hlevel.outer, hlevel.lead, ?_, ?_⟩, houter⟩⟩
  · exact Keyword.noConfusion
  · exact List.forall_mem_cons.mpr ⟨clear_closeBlock _ _ _ _ _ hlevel hb.children, hlevel.branches⟩

theorem clear_closeLevel {act : Action} {level : Level} {outer : List Level} (hb : b.Clear)
    (hl : b.levels = level :: outer) : (b.closeLevel level outer t act).Clear := by
  have hlevels := hb.levels
  rw [hl, List.forall_mem_cons] at hlevels
  obtain ⟨hlevel, houter⟩ := hlevels
  have hblock (lead : Text) (branch : Bool) := clear_closeBlock lead t.lead t.span.stop
    (some ⟨b.next, t.text, t.span, act⟩) branch hlevel hb.children
  unfold closeLevel
  split
  · exact ⟨hlevel.outer.attach (hblock _ _) hlevel.lead rfl, houter⟩
  · refine ⟨hlevel.outer.attach ⟨rfl, clearAll_iff.mpr fun n hn => ?_⟩ hlevel.lead rfl, houter⟩
    rcases List.mem_cons.mp (List.mem_reverse.mp hn) with rfl | hn
    · exact hblock _ _
    · exact hlevel.branches n hn

/-- **A step over an action that says nothing keeps the builder clear.** -/
theorem clear_step (hb : b.Clear) (ht : t.Unsaid) (h : b.step t = .ok b') : b'.Clear := by
  obtain ⟨hlead, act', hact, hsaid, hkeyword⟩ := ht
  have hadv := step_advance b t
  rw [h] at hadv
  cases hadv with
  | raw hkind => exact absurd (hact.symm.trans hkind) (by simp)
  | plain act hkind hk =>
    obtain rfl := Token.Kind.action.inj (hact.symm.trans hkind)
    refine ⟨hb.children.attach rfl hlead ?_, hb.levels⟩
    rw [Pragma.isPragma, Bool.eq_false_iff]
    exact fun hc => hsaid (Text.contains_iff.mp hc)
  | divide act level outer hkind hk hl => exact clear_divideLevel hb hl
  | close act k level outer hkind hk hc hl => exact clear_closeLevel hb hl
  | start act k hkind hk ho hd =>
    obtain rfl := Token.Kind.action.inj (hact.symm.trans hkind)
    refine ⟨clearChildren_nil, List.forall_mem_cons.mpr ⟨⟨hb.children, hlead, ?_, by simp⟩,
      hb.levels⟩⟩
    exact Keyword.ne_ignoreStart (hkeyword.symm.trans hk) hsaid

/-- **A run over actions that say nothing keeps the builder clear.** -/
theorem clear_steps {ts : List Token} (hts : ∀ t ∈ ts, t.Unsaid) (h : empty.steps ts = .ok b) :
    b.Clear := by
  refine steps_invariant (P := fun ts b => (∀ t ∈ ts, t.Unsaid) → b.Clear) (fun _ => clear_empty)
    (fun ts c t c' hc hs hts => ?_) h hts
  rw [List.forall_mem_append, List.forall_mem_singleton] at hts
  exact clear_step (hc hts.1) hts.2 hs

end Builder

theorem Token.isInfix_spellAll {t : Token} {ts : List Token} (h : t ∈ ts) :
    t.lead ++ t.text <:+: spellAll ts := by
  induction ts with
  | nil => exact absurd h List.not_mem_nil
  | cons u ts ih =>
    rw [spellAll]
    rcases List.mem_cons.mp h with rfl | h
    · exact (List.prefix_append ..).isInfix
    · exact (ih h).trans (List.suffix_append ..).isInfix

/-- The tokens of a template that does not say the word. -/
theorem unsaid_scan {source : Text} (hsaid : ¬ Pragma.word <:+: source)
    (hraw : ∀ t ∈ (scan source).tokens, t.kind ≠ .raw) : ∀ t ∈ (scan source).tokens, t.Unsaid := by
  intro t ht
  have hstands : t.lead ++ t.text <:+: source := by
    rw [← spell_scan source]
    exact (Token.isInfix_spellAll ht).trans (List.prefix_append ..).isInfix
  refine ⟨fun h => hsaid ((h.trans (List.prefix_append ..).isInfix).trans hstands), ?_⟩
  have hreads := reads_scan source t ht
  cases hkind : t.kind with
  | raw => exact absurd hkind (hraw t ht)
  | action act =>
    rw [hkind] at hreads
    obtain ⟨inner, htext, -, rfl⟩ := hreads
    refine ⟨_, rfl, fun h => hsaid (h.trans ?_), rfl⟩
    refine ((Action.statement_isInfix inner).trans ?_).trans hstands
    rw [htext]
    exact ⟨t.lead ++ openBraces, closeBraces, by simp only [List.append_assoc]⟩

/-- **The tree of a template without pragmas and raw regions** keeps nothing as written. -/
theorem parse_clear {source : Text} {tree : Tree} (h : parse source = .ok tree)
    (hsaid : ¬ Pragma.word <:+: source) (hraw : ∀ t ∈ (scan source).tokens, t.kind ≠ .raw) :
    Node.ClearAll tree.children := by
  obtain ⟨b, hsteps, -, rfl⟩ := parse_eq_ok h
  have hclear := (Builder.clear_steps (unsaid_scan hsaid hraw) hsteps).children.clear
  exact Node.clearAll_iff.mpr fun n hn => hclear n (List.mem_reverse.mp hn)

end TemplateFormat
