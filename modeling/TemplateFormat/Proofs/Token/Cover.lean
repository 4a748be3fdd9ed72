import TemplateFormat.Proofs.Token.Regions
import TemplateFormat.Token.Basic
import Mathlib.Data.List.Infix

/-!
# Tokens cover the source

A scan loses nothing: the literals before the tokens, the tokens and the tail, one after the
other, are the source. Every token stands where its span says, and is what its kind says: an
action is the inner text between double braces from which it was read, a raw region is a script
or style element with opening braces in it.

The region that the scan looks ahead to was found in an earlier rest of the source. It is carried
along as a distance, so the invariant of the scan is that the distance leads to a raw region of
the rest that is left (`Lookahead.Valid`).

Results:
* `Scan.step?_spec`: a step takes a literal and a token that fits its kind off the rest.
* `spell_scan`, `placed_scan`: the tokens and the tail are the source, each token in its place.
-/

namespace TemplateFormat

/-! ## What tokens are -/

/-- The text of an action, and the action read from it. -/
def IsAction (text : Text) (act : Action) : Prop :=
  ∃ inner, text = openBraces ++ inner ++ closeBraces ∧ act = Action.ofInner inner

/-- The text of a raw region: a script or style element that holds opening braces. -/
def IsRaw (text : Text) : Prop :=
  ∃ name ∈ Region.names, '<' :: name <+: text ∧ openBraces <:+: text ∧ ['>'] <:+ text

/-- The text is that of a token of the given kind. -/
def Token.Kind.Fits (text : Text) : Token.Kind → Prop
  | .action act => IsAction text act
  | .raw => IsRaw text

theorem IsRegion.isRaw {text : Text} (h : IsRegion text) : IsRaw text := by
  obtain ⟨s, hs⟩ := h.last
  obtain ⟨name, attrs, body, gap, helem, rfl⟩ := h
  refine ⟨name, helem.name_mem, List.prefix_append .., ?_, ⟨s, hs.symm⟩⟩
  refine helem.braces.trans ⟨'<' :: name ++ attrs, closeTag name ++ (gap ++ ['>']), ?_⟩
  simp only [elementText, List.append_assoc]

/-! ## Steps of the scan -/

namespace Scan

/-- What is known of the next raw region is true of `rest`. -/
def Lookahead.Valid (rest : Text) : Lookahead → Prop
  | .ahead r => r.Valid rest
  | _ => True

theorem Lookahead.resolve_of_none {rest : Text} (h : Region.find? rest = none) :
    unknown.resolve rest = absent := by
  rw [resolve, h]

theorem Lookahead.resolve_of_some {rest : Text} {r : Region} (h : Region.find? rest = some r) :
    unknown.resolve rest = ahead r := by
  rw [resolve, h]

theorem Lookahead.valid_resolve (rest : Text) {look : Lookahead} (h : look.Valid rest) :
    (look.resolve rest).Valid rest := by
  cases look with
  | unknown =>
    cases hr : Region.find? rest with
    | none =>
      rw [resolve_of_none hr]
      trivial
    | some r =>
      rw [resolve_of_some hr]
      exact Region.find?_valid rest hr
  | absent => exact h
  | ahead r => exact h

theorem Lookahead.valid_advance {s rest : Text} {look : Lookahead} (h : look.Valid (s ++ rest)) :
    (look.advance s.length).Valid rest := by
  cases look with
  | unknown => trivial
  | absent => trivial
  | ahead r =>
    show Valid rest (if r.distance < s.length then .unknown else .ahead (r.nearer s.length))
    split
    · trivial
    · rename_i hlt
      exact Region.valid_nearer h (Nat.le_of_not_lt hlt)

theorem nextAction?_spec {t : Text} {a : Found} (h : nextAction? t = some a) :
    t = a.lead ++ (openBraces ++ a.inner ++ closeBraces) ++ a.rest := by
  unfold nextAction? at h
  split at h
  · exact absurd h (by simp)
  · rename_i lead afterOpen ho
    obtain ⟨⟨inner, rest⟩, hc, rfl⟩ := Option.map_eq_some_iff.mp h
    rw [Text.cut?_eq_some ho, Text.cut?_eq_some hc]
    simp only [List.append_assoc]

theorem Step.ofAction_spec {t : Text} {a : Found} (h : nextAction? t = some a) :
    t = (Step.ofAction a).lead ++ (Step.ofAction a).text ++ (Step.ofAction a).rest ∧
      (Step.ofAction a).kind.Fits (Step.ofAction a).text :=
  ⟨nextAction?_spec h, a.inner, rfl, rfl⟩

theorem Step.ofRegion_eq {t : Text} {r : Region} (h : r.Valid t) :
    t = (Step.ofRegion t r).lead ++ (Step.ofRegion t r).text ++ (Step.ofRegion t r).rest ∧
      IsRegion (Step.ofRegion t r).text := by
  obtain ⟨pre, text, post, rfl, hd, hs, hregion⟩ := h
  have htext : ((pre ++ text ++ post).drop r.distance).take r.size = text := by
    rw [List.append_assoc, ← hd, List.drop_left, ← hs, List.take_left]
  refine ⟨?_, ?_⟩
  · show _ = (pre ++ text ++ post).take r.distance ++ _ ++ _
    unfold Step.ofRegion
    rw [htext, ← hd, ← hs, ← List.length_append, List.drop_left, List.append_assoc pre,
      List.take_left, List.append_assoc]
  · show IsRegion (((pre ++ text ++ post).drop r.distance).take r.size)
    rw [htext]
    exact hregion

theorem Step.ofRegion_spec {t : Text} {r : Region} (h : r.Valid t) :
    t = (Step.ofRegion t r).lead ++ (Step.ofRegion t r).text ++ (Step.ofRegion t r).rest ∧
      (Step.ofRegion t r).kind.Fits (Step.ofRegion t r).text :=
  ⟨(Step.ofRegion_eq h).1, (Step.ofRegion_eq h).2.isRaw⟩

/-- **A step takes a literal and a token that fits its kind off the rest.** -/
theorem step?_spec {rest : Text} {look : Lookahead} {s : Step} (hv : look.Valid rest)
    (h : step? rest look = some s) : rest = s.lead ++ s.text ++ s.rest ∧ s.kind.Fits s.text := by
  unfold step? at h
  split at h
  · exact absurd h (by simp)
  · split at h
    · rename_i a r ha
      obtain rfl := Option.some.inj h
      split
      · exact Step.ofRegion_spec hv
      · exact Step.ofAction_spec ha
    · rename_i a ha _
      obtain rfl := Option.some.inj h
      exact Step.ofAction_spec ha
    · rename_i r _
      obtain rfl := Option.some.inj h
      exact Step.ofRegion_spec hv
    · exact absurd h (by simp)

end Scan

/-! ## The whole scan -/

namespace Token

/-- The literals and texts of tokens, one after the other. -/
def spellAll : List Token → Text
  | [] => []
  | t :: ts => t.lead ++ t.text ++ spellAll ts

/-- Tokens that follow each other from byte `offset` on, as their spans say, and fit their kinds. -/
def PlacedAll (offset : Nat) : List Token → Prop
  | [] => True
  | t :: ts =>
    t.span = ⟨offset + Text.bytes t.lead, Text.bytes t.text⟩ ∧ t.kind.Fits t.text ∧
      PlacedAll (offset + Text.bytes t.lead + Text.bytes t.text) ts

end Token

namespace Scan

variable {offset : Nat} {look : Lookahead} {rest : Text}

theorem scanFrom_of_none (h : step? rest (look.resolve rest) = none) :
    scanFrom offset look rest = ⟨[], rest⟩ := by
  rw [scanFrom]
  split
  · rfl
  · rename_i s hs
    exact absurd (h.symm.trans hs) (by simp)

/-- A scan is its first step, and the scan of what the step leaves. -/
theorem scanFrom_of_some {s : Step} (h : step? rest (look.resolve rest) = some s) :
    scanFrom offset look rest =
      let next := scanFrom (offset + Text.bytes s.lead + Text.bytes s.text)
        ((look.resolve rest).advance (s.lead.length + s.text.length)) s.rest
      ⟨⟨s.lead, s.text, ⟨offset + Text.bytes s.lead, Text.bytes s.text⟩, s.kind⟩ :: next.tokens,
        next.tail⟩ := by
  rw [scanFrom]
  split
  · rename_i hs
    exact absurd (h.symm.trans hs) (by simp)
  · rename_i s' hs
    obtain rfl : s = s' := Option.some.inj (h.symm.trans hs)
    rfl

theorem scanFrom_spec (offset : Nat) (look : Lookahead) (rest : Text) (hv : look.Valid rest) :
    Token.spellAll (scanFrom offset look rest).tokens ++ (scanFrom offset look rest).tail = rest ∧
      Token.PlacedAll offset (scanFrom offset look rest).tokens := by
  induction offset, look, rest using scanFrom.induct with
  | case1 offset look rest found hstep =>
    rw [scanFrom_of_none hstep]
    exact ⟨rfl, trivial⟩
  | case2 offset look rest found s hstep start size ih =>
    have hfound : found.Valid rest := Lookahead.valid_resolve rest hv
    obtain ⟨hrest, hfits⟩ := step?_spec hfound hstep
    have hnext : (found.advance (s.lead.length + s.text.length)).Valid s.rest := by
      rw [hrest] at hfound
      rw [← List.length_append]
      exact Lookahead.valid_advance hfound
    obtain ⟨hspell, hplaced⟩ := ih hnext
    rw [scanFrom_of_some hstep]
    refine ⟨?_, rfl, hfits, hplaced⟩
    show s.lead ++ s.text ++ Token.spellAll _ ++ _ = rest
    rw [List.append_assoc, hspell]
    exact hrest.symm

end Scan

/-- **Nothing is lost in a scan.** -/
theorem spell_scan (source : Text) :
    Token.spellAll (scan source).tokens ++ (scan source).tail = source :=
  (Scan.scanFrom_spec 0 .unknown source trivial).1

/-- **Every token fits its kind and stands where its span says.** -/
theorem placed_scan (source : Text) : Token.PlacedAll 0 (scan source).tokens :=
  (Scan.scanFrom_spec 0 .unknown source trivial).2

end TemplateFormat
