import TemplateFormat.Proofs.Token.Reads
import TemplateFormat.Proofs.Tree.Geometry
import Mathlib.Order.Bounds.Defs

/-!
# Scans are complete

A scan reads all template syntax of the source. Two searches compete for the next token, for an
action and for a raw region, and neither may hide what the other would have found: opening braces
that closing braces follow are the start of a token or lie in one.

The proof compares places in the source. `cut?` finds the leftmost occurrence
(`Text.cut?_leftmost`), so the next action starts no later than any braces that could open one, and
a step takes a literal that is no longer than what stands before that action
(`Scan.exists_step?`). By induction on the scan, such braces are met by a token
(`Scan.meets_scanFrom`).

Results:
* `Text.OccursAt.exists_split`: the text between two places.
* `ReadsAs.isLeast`: an action ends with the first closing braces behind its opening braces.
* `Scan.meets_scanFrom`: braces that are closed start in a token.
* `scan_covers`: where the tokens of a scan stand, what they say, and that nothing else could be
  one.
-/

namespace TemplateFormat

namespace Text

/-! ## Places in a text -/

/-- The pattern stands at byte `n` of the text, at the boundary of a character. -/
def OccursAt (pattern : Text) (n : Nat) (t : Text) : Prop :=
  ∃ pre post, t = pre ++ (pattern ++ post) ∧ bytes pre = n

/-- What occurs behind the text `a` occurs in the rest of it. -/
theorem OccursAt.exists_split {p a s : Text} {n : Nat} (h : OccursAt p n (a ++ s))
    (hle : bytes a ≤ n) : ∃ m post, s = m ++ (p ++ post) ∧ n = bytes a + bytes m := by
  obtain ⟨pre, post, he, rfl⟩ := h
  obtain ⟨m, rfl, hs⟩ := exists_split_of_bytes_le he hle
  exact ⟨m, post, hs, bytes_append a m⟩

/-- **A cut is at the leftmost occurrence**: wherever the pattern stands, the text is cut there or
before. -/
theorem cut?_leftmost {p : Text} (hp : p ≠ []) (pre post : Text) :
    ∃ before after, cut? p (pre ++ (p ++ post)) = some (before, after) ∧ before <+: pre ∧
      post <:+ after := by
  generalize ht : pre ++ (p ++ post) = t
  have hin : contains p t = true :=
    contains_iff.mpr ⟨pre, post, by rw [← ht, List.append_assoc]⟩
  rw [contains_eq_isSome_cut?, Option.isSome_iff_exists] at hin
  obtain ⟨⟨before, after⟩, hcut⟩ := hin
  obtain ⟨he, hfirst⟩ := (cut?_eq_some_iff hp).mp hcut
  have hle : before.length ≤ pre.length := by
    by_contra hlt
    refine hfirst ?_
    have hfull : before ++ p.dropLast <+: t := by
      rw [he, List.prefix_append_right_inj]
      exact (List.dropLast_prefix p).trans (List.prefix_append p after)
    have hshort : pre ++ p <+: before ++ p.dropLast := by
      refine List.prefix_of_prefix_length_le ⟨post, (List.append_assoc ..).trans ht⟩ hfull ?_
      have := List.length_pos_iff.mpr hp
      rw [List.length_append, List.length_append, List.length_dropLast]
      omega
    exact (List.suffix_append pre p).isInfix.trans hshort.isInfix
  refine ⟨before, after, hcut, ?_, ?_⟩
  · exact List.prefix_of_prefix_length_le ⟨_, he.symm⟩ ⟨_, ht⟩ hle
  · have hlen := congrArg List.length (ht.trans he)
    simp only [List.length_append] at hlen
    have hpost : post <:+ t := ⟨pre ++ p, (List.append_assoc ..).trans ht⟩
    have hafter : after <:+ t := ⟨before ++ p, (List.append_assoc ..).trans he.symm⟩
    exact List.suffix_of_suffix_length_le hpost hafter (by omega)

end Text

/-! ## The end of an action -/

theorem bytes_openBraces : Text.bytes openBraces = 2 := by decide

theorem bytes_closeBraces : Text.bytes closeBraces = 2 := by decide

/-- **An action ends with the first closing braces behind its opening braces.** -/
theorem ReadsAs.isLeast {pre t post : Text} {act : Action} (h : ReadsAs t act) :
    ∃ n, Text.bytes pre + Text.bytes t = n + 2 ∧ IsLeast
      {n | Text.OccursAt closeBraces n (pre ++ (t ++ post)) ∧ Text.bytes pre + 2 ≤ n} n := by
  obtain ⟨inner, rfl, hinner, -⟩ := h
  refine ⟨Text.bytes (pre ++ openBraces ++ inner), ?_, ⟨⟨_, post, ?_, rfl⟩, ?_⟩, ?_⟩
  · simp only [Text.bytes_append, bytes_openBraces, bytes_closeBraces]
    omega
  · simp only [List.append_assoc]
  · simp only [Text.bytes_append, bytes_openBraces]
    omega
  · rintro n ⟨hn, hle⟩
    have hsource : pre ++ (openBraces ++ (inner ++ closeBraces) ++ post) =
        (pre ++ openBraces) ++ (inner ++ (closeBraces ++ post)) := by
      simp only [List.append_assoc]
    rw [hsource] at hn
    obtain ⟨m, b, hm, rfl⟩ := hn.exists_split (by rwa [Text.bytes_append, bytes_openBraces])
    have hcut : Text.cut? closeBraces (inner ++ (closeBraces ++ post)) = some (inner, post) :=
      (Text.cut?_eq_some_iff (by decide)).mpr ⟨rfl, hinner⟩
    obtain ⟨before, after, hcut', hpre, -⟩ := Text.cut?_leftmost (by decide : closeBraces ≠ []) m b
    rw [hm, hcut'] at hcut
    obtain ⟨rfl, -⟩ := Prod.mk.inj (Option.some.inj hcut)
    rw [Text.bytes_append]
    exact Nat.add_le_add_left (Text.bytes_le_of_isPrefix hpre) _

/-! ## Nothing is passed over -/

namespace Scan

/-- The next action starts at braces that closing braces follow, or before them. -/
theorem exists_nextAction? (pre : Text) {post : Text} (h : closeBraces <:+: post) :
    ∃ a, nextAction? (pre ++ (openBraces ++ post)) = some a ∧ a.lead <+: pre := by
  obtain ⟨lead, afterOpen, hopen, hlead, hpost⟩ :=
    Text.cut?_leftmost (by decide : openBraces ≠ []) pre post
  obtain ⟨x, y, hclose⟩ := h.trans hpost.isInfix
  rw [List.append_assoc] at hclose
  obtain ⟨inner, rest, hcut, -, -⟩ := Text.cut?_leftmost (by decide : closeBraces ≠ []) x y
  rw [hclose] at hcut
  refine ⟨⟨lead, inner, rest⟩, ?_, hlead⟩
  unfold nextAction?
  simp only [hopen, hcut, Option.map_some]

/-- Where there is an action, the scan takes a step, and not over the start of the action: a raw
region is taken first only if it starts first. -/
theorem exists_step? {rest : Text} {a : Found} (h : nextAction? rest = some a) (look : Lookahead) :
    ∃ s, step? rest look = some s ∧ s.lead.length ≤ a.lead.length := by
  have hne : rest.isEmpty = false := by
    cases rest with
    | nil => exact absurd h (by simp [nextAction?, Text.cut?, openBraces])
    | cons c t => rfl
  unfold step?
  simp only [hne, h, Bool.false_eq_true, ↓reduceIte]
  cases look with
  | unknown => exact ⟨_, rfl, Nat.le_refl _⟩
  | absent => exact ⟨_, rfl, Nat.le_refl _⟩
  | ahead r =>
    refine ⟨_, rfl, ?_⟩
    split
    · rename_i hlt
      show (rest.take r.distance).length ≤ a.lead.length
      rw [List.length_take]
      omega
    · exact Nat.le_refl _

/-- The place `n` lies in one of the tokens. -/
def Meets (n : Nat) (ts : List Token) : Prop :=
  ∃ t ∈ ts, t.span.index ≤ n ∧ n < t.span.stop

/-- **Braces that are closed start in a token**: by induction on the scan, the first step meets
them or leaves them to the rest. -/
theorem meets_scanFrom (offset : Nat) (look : Lookahead) (rest : Text) (hv : look.Valid rest)
    {post : Text} (hclose : closeBraces <:+: post) : ∀ pre, rest = pre ++ (openBraces ++ post) →
    Meets (offset + Text.bytes pre) (scanFrom offset look rest).tokens := by
  induction offset, look, rest using scanFrom.induct with
  | case1 offset look rest found hstep =>
    intro pre hrest
    obtain ⟨a, ha, -⟩ := exists_nextAction? pre hclose
    obtain ⟨s, hs, -⟩ := exists_step? (hrest ▸ ha) found
    exact absurd (hstep.symm.trans hs) (by simp)
  | case2 offset look rest found s hstep start size ih =>
    intro pre hrest
    have hfound : found.Valid rest := Lookahead.valid_resolve rest hv
    obtain ⟨hparts, -⟩ := step?_spec hfound hstep
    have hnext : (found.advance (s.lead.length + s.text.length)).Valid s.rest := by
      rw [← List.length_append]
      exact Lookahead.valid_advance (hparts ▸ hfound)
    -- the step does not pass over the braces
    obtain ⟨a, ha, hlead⟩ := exists_nextAction? pre hclose
    obtain ⟨s', hs', hle⟩ := exists_step? (hrest ▸ ha) found
    obtain rfl : s = s' := Option.some.inj (hstep.symm.trans hs')
    have hbefore : s.lead <+: pre := by
      have hstart : s.lead <+: rest := ⟨s.text ++ s.rest, by rw [← List.append_assoc, ← hparts]⟩
      exact List.prefix_of_prefix_length_le hstart ⟨_, hrest.symm⟩ (hle.trans hlead.length_le)
    obtain ⟨m, rfl⟩ := hbefore
    have hbehind : s.text ++ s.rest = m ++ (openBraces ++ post) := by
      rw [hparts, List.append_assoc, List.append_assoc] at hrest
      exact List.append_cancel_left hrest
    rw [scanFrom_of_some hstep, Text.bytes_append, ← Nat.add_assoc]
    by_cases hin : Text.bytes m < Text.bytes s.text
    · refine ⟨_, List.mem_cons_self, Nat.le_add_right _ _, ?_⟩
      show start + Text.bytes m < start + Text.bytes s.text
      omega
    · obtain ⟨m', rfl, hrest'⟩ := Text.exists_split_of_bytes_le hbehind (Nat.le_of_not_lt hin)
      obtain ⟨t, ht, hmeets⟩ := ih hnext m' hrest'
      refine ⟨t, List.mem_cons_of_mem _ ht, ?_⟩
      rw [Text.bytes_append, ← Nat.add_assoc]
      exact hmeets

end Scan

/-! ## What a scan reads -/

/-- The token stands in the source where its span says, between two characters. -/
def Token.StandsIn (source : Text) (t : Token) : Prop :=
  ∃ pre post, source = pre ++ (t.text ++ post) ∧ t.span = ⟨Text.bytes pre, Text.bytes t.text⟩

/-- Tokens that are placed behind `pre` stand in the source that they are the text of. -/
theorem Token.standsIn_of_placedAll (tail : Text) : ∀ {ts : List Token} (pre : Text),
    PlacedAll (Text.bytes pre) ts → ∀ t ∈ ts, t.StandsIn (pre ++ (spellAll ts ++ tail))
  | u :: ts, pre, ⟨hspan, _, hrest⟩, t, ht => by
    rw [spellAll]
    rcases List.mem_cons.mp ht with rfl | ht
    · refine ⟨pre ++ t.lead, spellAll ts ++ tail, by simp only [List.append_assoc], ?_⟩
      rw [hspan, Text.bytes_append]
    · rw [← Text.bytes_append, ← Text.bytes_append] at hrest
      have := standsIn_of_placedAll tail (pre ++ u.lead ++ u.text) hrest t ht
      simpa only [List.append_assoc] using this

theorem Token.standsIn_scan {source : Text} {t : Token} (h : t ∈ (scan source).tokens) :
    t.StandsIn source := by
  have := standsIn_of_placedAll (scan source).tail [] (placed_scan source) t h
  rwa [List.nil_append, spell_scan] at this

/-- What a token of a kind says, that stands at the span in the source. An action is its marks and
its statement between braces, with white space around the statement, and ends with the first
closing braces; a raw region is an element of scripts or styles with opening braces in it. -/
def Token.Kind.Spells (source text : Text) (span : Span) : Token.Kind → Prop
  | .action act =>
    (∃ b b', Text.isBlank b = true ∧ Text.isBlank b' = true ∧
      text = openBraces ++ (act.opening.opening ++
        (b ++ (act.statement ++ (b' ++ (act.closing.closing ++ closeBraces)))))) ∧
    ∃ n, span.stop = n + 2 ∧
      IsLeast {n | Text.OccursAt closeBraces n source ∧ span.index + 2 ≤ n} n
  | .raw =>
    ("<script".toList <+: text ∨ "<style".toList <+: text) ∧ ['>'] <:+ text ∧ openBraces <:+: text

theorem Token.Kind.Reads.spells {source text : Text} {span : Span} {kind : Token.Kind}
    (h : kind.Reads text) {pre post : Text} (hsource : source = pre ++ (text ++ post))
    (hspan : span = ⟨Text.bytes pre, Text.bytes text⟩) : kind.Spells source text span := by
  subst hsource hspan
  cases kind with
  | action act =>
    refine ⟨?_, ReadsAs.isLeast h⟩
    obtain ⟨inner, rfl, -, rfl⟩ := h
    obtain ⟨b, b', hb, hb', hinner⟩ := Action.ofInner_spec inner
    refine ⟨b, b', hb, hb', ?_⟩
    generalize Action.ofInner inner = act at hinner
    rw [hinner]
    simp only [List.append_assoc]
  | raw =>
    obtain ⟨name, hname, hstart, hbraces, hend⟩ := IsRegion.isRaw h
    refine ⟨?_, hend, hbraces⟩
    simp only [Region.names, List.mem_cons, List.not_mem_nil, or_false] at hname
    rcases hname with rfl | rfl
    · exact .inl hstart
    · exact .inr hstart

/-- **A scan reads all template syntax.** The tokens follow each other in the source without
overlap, each where its span says. An action is its marks and its statement between braces, and
ends with the first closing braces behind its opening braces; a raw region is an element of scripts
or styles with opening braces in it. Opening braces that start outside all tokens have no closing
braces behind them. -/
theorem scan_covers (source : Text) :
    ((scan source).tokens.Pairwise fun a b =>
      a.span.index < b.span.index ∧ a.span.stop ≤ b.span.index) ∧
    (∀ t ∈ (scan source).tokens, t.StandsIn source ∧ t.span.index < t.span.stop ∧
      t.kind.Spells source t.text t.span) ∧
    ∀ g, Text.OccursAt openBraces g source →
      (∀ t ∈ (scan source).tokens, ¬ (t.span.index ≤ g ∧ g < t.span.stop)) →
      ∀ n, g + 2 ≤ n → ¬ Text.OccursAt closeBraces n source := by
  obtain ⟨hall, hpair⟩ := Token.pairwise_of_placedAll (placed_scan source)
  refine ⟨?_, ?_, ?_⟩
  · refine hpair.imp_of_mem fun {a b} ha _ hab => ⟨?_, hab⟩
    exact (hall a ha).2.trans_le hab
  · intro t ht
    have hstands := Token.standsIn_scan ht
    refine ⟨hstands, (hall t ht).2, ?_⟩
    obtain ⟨pre, post, hsource, hspan⟩ := hstands
    exact (reads_scan source t ht).spells hsource hspan
  · rintro g ⟨pre, post, hsource, rfl⟩ hout n hn hclose
    rw [hsource, ← List.append_assoc] at hclose
    obtain ⟨m, post', hpost, -⟩ := hclose.exists_split (by
      rwa [Text.bytes_append, bytes_openBraces])
    obtain ⟨t, ht, hmeets⟩ := Scan.meets_scanFrom 0 .unknown source trivial
      ⟨m, post', by rw [hpost, List.append_assoc]⟩ pre hsource
    rw [Nat.zero_add] at hmeets
    exact hout t ht hmeets

/-- Behind an action and a style element with braces in it, braces that are not closed are left to
the literal. -/
theorem scan_covers_unclosed :
    let source := "{{- a }}<style>{{b}}</style> \x7b\x7b c".toList
    (scan source).tokens.map Token.span = [⟨0, 8⟩, ⟨8, 20⟩] ∧ Text.OccursAt openBraces 29 source ∧
      ∀ n, 29 + 2 ≤ n → ¬ Text.OccursAt closeBraces n source := by
  intro source
  have hspans : (scan source).tokens.map Token.span = [⟨0, 8⟩, ⟨8, 20⟩] := by decide +kernel
  have hopen : Text.OccursAt openBraces 29 source :=
    ⟨"{{- a }}<style>{{b}}</style> ".toList, " c".toList, by decide, by decide⟩
  refine ⟨hspans, hopen, (scan_covers source).2.2 29 hopen fun t ht hin => ?_⟩
  have hspan : t.span ∈ [(⟨0, 8⟩ : Span), ⟨8, 20⟩] := hspans ▸ List.mem_map_of_mem ht
  simp only [List.mem_cons, List.not_mem_nil, or_false] at hspan
  rcases hspan with he | he <;> rw [he] at hin <;> exact absurd hin.2 (by decide)

end TemplateFormat
