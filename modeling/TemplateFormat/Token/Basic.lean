import TemplateFormat.Token.Region
import TemplateFormat.Span

/-!
# Tokens

`scan` cuts a template into tokens. A token is an action or a raw region, with the literal text before
it; what follows the last token is the scan's tail. So the leads and texts of the tokens and the tail,
one after the other, are the source.

An action starts at the first opening braces that closing braces follow, and ends with the first of
them. A raw region that starts before the next action is read as one token.

The region looked up is kept until the scan passes its start: an action inside the opening tag of an
element does not hide the region that was found behind it.
-/

namespace TemplateFormat

/-- What a token stands for. -/
inductive Token.Kind where
  | action (action : Action)
  | raw
deriving DecidableEq, Repr, Inhabited

/-- A token of a template. -/
structure Token where
  /-- The literal text between the previous token and this one. -/
  lead : Text
  /-- The token as written. -/
  text : Text
  /-- Where the token stands in the source. -/
  span : Span
  /-- What it stands for. -/
  kind : Token.Kind
deriving DecidableEq, Repr, Inhabited

/-- A template cut into tokens. -/
structure Scan where
  /-- The tokens in order. -/
  tokens : List Token
  /-- The literal text after the last token. -/
  tail : Text
deriving DecidableEq, Repr, Inhabited

namespace Scan

/-- What is known of the next raw region. -/
inductive Lookahead where
  /-- Not searched for since the last one was passed. -/
  | unknown
  /-- There is none. -/
  | absent
  /-- It was found. -/
  | ahead (region : Region)
deriving DecidableEq, Repr

namespace Lookahead

/-- Searches `rest` unless the answer is known. -/
def resolve (rest : Text) : Lookahead → Lookahead
  | unknown =>
    match Region.find? rest with
    | some region => ahead region
    | none => absent
  | known => known

/-- The lookahead after a token that ends `size` characters further on. -/
def advance (size : Nat) : Lookahead → Lookahead
  | ahead region => if region.distance < size then unknown else ahead (region.nearer size)
  | other => other

end Lookahead

/-- An action of a text. -/
structure Found where
  /-- The text before the opening braces. -/
  lead : Text
  /-- What stands between the braces. -/
  inner : Text
  /-- The text after the closing braces. -/
  rest : Text

/-- The next action of a text. -/
def nextAction? (t : Text) : Option Found :=
  match Text.cut? openBraces t with
  | none => none
  | some (lead, afterOpen) =>
    (Text.cut? closeBraces afterOpen).map fun p => ⟨lead, p.1, p.2⟩

theorem length_lt_of_nextAction? {t : Text} {a : Found} (h : nextAction? t = some a) :
    a.rest.length < t.length := by
  unfold nextAction? at h
  split at h
  · simp at h
  · rename_i lead afterOpen ho
    obtain ⟨⟨inner, rest⟩, hc, rfl⟩ := Option.map_eq_some_iff.1 h
    exact Nat.lt_trans (Text.length_lt_of_cut? hc (by decide))
      (Text.length_lt_of_cut? ho (by decide))

/-- A token and the rest of the text after it. -/
structure Step where
  lead : Text
  text : Text
  kind : Token.Kind
  rest : Text

/-- The step over an action. -/
def Step.ofAction (a : Found) : Step :=
  ⟨a.lead, openBraces ++ a.inner ++ closeBraces, .action (Action.ofInner a.inner), a.rest⟩

/-- The step over a raw region of `t`. -/
def Step.ofRegion (t : Text) (r : Region) : Step :=
  ⟨t.take r.distance, (t.drop r.distance).take r.size, .raw, t.drop (r.distance + r.size)⟩

/-- The next token of `rest`, given what is known of the next raw region: that region, if it starts
before the next action, or else the action. -/
def step? (rest : Text) (look : Lookahead) : Option Step :=
  if rest.isEmpty then none
  else
    match nextAction? rest, look with
    | some a, .ahead r =>
      some (if r.distance < a.lead.length then .ofRegion rest r else .ofAction a)
    | some a, _ => some (.ofAction a)
    | none, .ahead r => some (.ofRegion rest r)
    | none, _ => none

theorem length_lt_of_step? {rest : Text} {look : Lookahead} {s : Step}
    (h : step? rest look = some s) : s.rest.length < rest.length := by
  unfold step? at h
  split at h
  · simp at h
  · rename_i hne
    have hpos : 0 < rest.length := by
      cases rest with
      | nil => simp at hne
      | cons c t => exact Nat.succ_pos _
    have hraw (r : Region) : (Step.ofRegion rest r).rest.length < rest.length := by
      have := r.size_pos
      simp only [Step.ofRegion, List.length_drop]
      omega
    split at h
    · rename_i a r ha
      cases h
      split
      · exact hraw r
      · exact length_lt_of_nextAction? ha
    · rename_i a ha _
      cases h
      exact length_lt_of_nextAction? ha
    · rename_i r _
      cases h
      exact hraw r
    · simp at h

/-- Scans `rest`, which starts at byte `offset` of the source. -/
def scanFrom (offset : Nat) (look : Lookahead) (rest : Text) : Scan :=
  let found := look.resolve rest
  match _h : step? rest found with
  | none => ⟨[], rest⟩
  | some s =>
    let start := offset + Text.bytes s.lead
    let size := Text.bytes s.text
    let next := scanFrom (start + size) (found.advance (s.lead.length + s.text.length)) s.rest
    ⟨⟨s.lead, s.text, ⟨start, size⟩, s.kind⟩ :: next.tokens, next.tail⟩
termination_by rest.length
decreasing_by exact length_lt_of_step? _h

end Scan

/-- Cuts a template into tokens. -/
def scan (source : Text) : Scan := Scan.scanFrom 0 .unknown source

end TemplateFormat
