import TemplateFormat.Proofs.Token.Cover
import Mathlib.Logic.Relation

/-!
# Looking ahead for raw regions

The scan keeps what it knows of the next raw region until it has passed the start of that region, and
that there is none to the end. What it knows was found from a place further in front, and a search
from where the scan stands now may go another way: it does not know of an opening tag that begins in
front of it. The two searches meet again behind that tag, unless the tag of another element opens in
the rest of it (`Region.InNestedTag`).

So the proof compares a search with one that starts later (`Region.resumes`), by induction on the
tags that the first one passes over. A scan is followed token by token (`Scan.Next`), and at every
place what it knows comes from one search of the source (`Lookahead.Recalls`).

Results:
* `Region.resumes`: a search, and one that starts later.
* `Scan.recalls_of_reached`: what a scan knows was found by one search.
* `scan_lookahead`: a scan sees what a new search at every token sees, outside of nested tags.
-/

namespace TemplateFormat

/-! ## Two searches -/

namespace Region

/-- The rest of the source begins inside the opening tag of an element that is no raw region, and in
what is left of that tag another element is opened. -/
def InNestedTag (source rest : Text) : Prop :=
  ∃ pre inside o ahead inner, source = pre ++ (inside ++ rest) ∧ inside ≠ [] ∧
    Opening.at? (inside ++ rest) = some o ∧ o.rest? = none ∧ rest = ahead ++ o.body ∧
    inner <:+ ahead ∧ inner ≠ [] ∧ (Opening.at? (inner ++ o.body)).isSome

theorem InNestedTag.of_suffix {s t rest : Text} (h : InNestedTag s rest) (hs : s <:+ t) :
    InNestedTag t rest := by
  obtain ⟨pre, inside, o, ahead, inner, rfl, h⟩ := h
  obtain ⟨front, rfl⟩ := hs
  exact ⟨front ++ pre, inside, o, ahead, inner, (List.append_assoc ..).symm, h⟩

/-- What a search finds in `s ++ t` is before `t`, or a search of `t` finds it too, or `t` starts in
nested tags. -/
def Resumes (s t : Text) : Prop :=
  (∃ r, find? (s ++ t) = some r ∧ r.distance < s.length) ∨
    find? (s ++ t) = (find? t).map (farther s.length) ∨ InNestedTag (s ++ t) t

theorem find?_append_trans {p s t : Text}
    (hp : find? (p ++ (s ++ t)) = (find? (s ++ t)).map (farther p.length))
    (hs : find? (s ++ t) = (find? t).map (farther s.length)) :
    find? (p ++ s ++ t) = (find? t).map (farther (p ++ s).length) := by
  rw [List.append_assoc, hp, hs, Option.map_map, List.length_append, Nat.add_comm]
  congr 1
  funext r
  exact farther_farther ..

/-- A search that gets to `s` passes on what it finds from there. -/
theorem Resumes.append_left {p s t : Text} (h : Resumes s t)
    (hp : find? (p ++ (s ++ t)) = (find? (s ++ t)).map (farther p.length)) :
    Resumes (p ++ s) t := by
  rcases h with ⟨r, hr, hlt⟩ | h | h
  · refine .inl ⟨r.farther p.length, ?_, ?_⟩
    · rw [List.append_assoc, hp, hr, Option.map_some]
    · show r.distance + p.length < (p ++ s).length
      rw [List.length_append]
      omega
  · exact .inr (.inl (find?_append_trans hp h))
  · refine .inr (.inr (h.of_suffix ?_))
    rw [List.append_assoc]
    exact List.suffix_append p (s ++ t)

theorem resumes_nil (t : Text) : Resumes [] t := by
  refine .inr (.inl ?_)
  show find? t = (find? t).map id
  rw [Option.map_id, id]

/-- A search that starts inside the opening tag `inside ++ ahead` of an element that is no raw
region. -/
theorem resumes_of_at? {inside ahead : Text} {o : Opening} (hinside : inside ≠ [])
    (ho : Opening.at? (inside ++ (ahead ++ o.body)) = some o) (hr : o.rest? = none) :
    Resumes inside (ahead ++ o.body) := by
  by_cases hopen : ∃ inner, inner <:+ ahead ∧ inner ≠ [] ∧ (Opening.at? (inner ++ o.body)).isSome
  · obtain ⟨inner, hinner⟩ := hopen
    exact .inr (.inr ⟨[], inside, o, ahead, inner, rfl, hinside, ho, hr, rfl, hinner⟩)
  · -- both searches go on behind the tag
    have hahead : find? (ahead ++ o.body) = (find? o.body).map (farther ahead.length) :=
      find?_append_of_at? fun x hx hne => Option.not_isSome_iff_eq_none.mp fun hsome =>
        hopen ⟨x, hx, hne, hsome⟩
    have hall := find?_of_rest?_none ho hr
    have hlen : (inside ++ (ahead ++ o.body)).length - o.body.length =
        ahead.length + inside.length := by
      simp only [List.length_append]
      omega
    refine .inr (.inl ?_)
    rw [hall, hlen, hahead, Option.map_map]
    congr 1
    funext r
    exact (farther_farther ..).symm

/-- **A search, and one that starts later**, by induction on what the first one passes over. -/
theorem resumes (s t : Text) : Resumes s t := by
  generalize hu : s ++ t = u
  induction u using find?.induct generalizing s with
  | case1 =>
    obtain ⟨rfl, -⟩ := List.append_eq_nil_iff.mp hu
    exact resumes_nil t
  | case2 c u ho ih =>
    cases s with
    | nil => exact resumes_nil t
    | cons d s =>
      obtain ⟨rfl, rfl⟩ := List.cons.inj hu
      exact (ih s rfl).append_left (p := [d]) (find?_cons_of_none ho)
  | case3 c u o ho rest hr =>
    cases s with
    | nil => exact resumes_nil t
    | cons d s =>
      obtain ⟨hpos, hfind⟩ := find?_of_rest? ho hr
      refine .inl ⟨⟨0, _, hpos⟩, ?_, Nat.succ_pos _⟩
      rw [hu]
      exact hfind
  | case4 c u o ho hr ih =>
    by_cases hs : s = []
    · subst hs
      exact resumes_nil t
    obtain ⟨-, attrs, htag, -, -⟩ := Opening.at?_spec ho
    rw [← List.append_assoc, ← hu] at htag
    rw [← hu] at ho
    rcases List.append_eq_append_iff.mp htag with ⟨ahead, -, rfl⟩ | ⟨s', rfl, hbody⟩
    · exact resumes_of_at? hs ho hr
    · have hfind := find?_of_rest?_none ho hr
      rw [List.append_assoc, ← hbody] at hfind
      refine (ih s' hbody.symm).append_left ?_
      rw [← hbody, hfind, List.length_append, Nat.add_sub_cancel]

end Region

/-! ## What a scan knows -/

namespace Scan

/-- Where a scan stands: what it knows of the next raw region, and the text that is left. -/
structure State where
  look : Lookahead
  rest : Text

namespace State

/-- What the scan takes to be the next raw region. -/
def found (st : State) : Lookahead := st.look.resolve st.rest

/-- What a new search finds. -/
def foundAfresh (st : State) : Lookahead := Lookahead.unknown.resolve st.rest

end State

/-- The scan takes one token. -/
inductive Next (st : State) : State → Prop
  | step (s : Step) (h : step? st.rest st.found = some s) :
      Next st ⟨st.found.advance (s.lead.length + s.text.length), s.rest⟩

/-- The states of the scan of a source. -/
def Reached (source : Text) : State → Prop := Relation.ReflTransGen Next ⟨.unknown, source⟩

/-- What is known at `rest` was found by one search, which started there or in front of it. -/
def Lookahead.Recalls (source rest : Text) : Lookahead → Prop
  | .unknown => True
  | .absent => ∃ passed, passed ++ rest <:+ source ∧ Region.find? (passed ++ rest) = none
  | .ahead r => ∃ passed, passed ++ rest <:+ source ∧
      Region.find? (passed ++ rest) = some (r.farther passed.length)

/-- What is known of a scan in every state. -/
structure State.Recalls (source : Text) (st : State) : Prop where
  suffix : st.rest <:+ source
  look : st.look.Recalls source st.rest

namespace Lookahead

variable {source rest : Text} {look : Lookahead}

theorem Recalls.resolve (h : look.Recalls source rest) (hs : rest <:+ source) :
    (look.resolve rest).Recalls source rest := by
  cases look with
  | unknown =>
    cases hr : Region.find? rest with
    | none =>
      rw [resolve_of_none hr]
      exact ⟨[], hs, hr⟩
    | some r =>
      rw [resolve_of_some hr]
      exact ⟨[], hs, hr⟩
  | absent => exact h
  | ahead r => exact h

theorem Recalls.advance {s : Text} (h : look.Recalls source (s ++ rest)) :
    (look.advance s.length).Recalls source rest := by
  cases look with
  | unknown => trivial
  | absent =>
    obtain ⟨passed, hs, hfind⟩ := h
    rw [← List.append_assoc] at hs hfind
    exact ⟨passed ++ s, hs, hfind⟩
  | ahead r =>
    obtain ⟨passed, hs, hfind⟩ := h
    rw [← List.append_assoc] at hs hfind
    show Recalls source rest (if r.distance < s.length then .unknown else .ahead (r.nearer s.length))
    split
    · trivial
    · rename_i hlt
      refine ⟨passed ++ s, hs, hfind.trans (congrArg some ?_)⟩
      rw [List.length_append, Nat.add_comm, ← Region.farther_farther,
        Region.farther_nearer (Nat.le_of_not_lt hlt)]

/-- What was found in front leads to a raw region from here too. -/
theorem Recalls.valid (h : look.Recalls source rest) : look.Valid rest := by
  cases look with
  | unknown => trivial
  | absent => trivial
  | ahead r =>
    obtain ⟨passed, -, hfind⟩ := h
    have hnearer := Region.valid_nearer (Region.find?_valid _ hfind) (Nat.le_add_left _ _)
    rwa [Region.nearer_farther] at hnearer

/-- **What is known is what a new search finds**, outside of nested tags. -/
theorem Recalls.resolve_eq (h : look.Recalls source rest) :
    look.resolve rest = unknown.resolve rest ∨ Region.InNestedTag source rest := by
  cases look with
  | unknown => exact .inl rfl
  | absent =>
    obtain ⟨passed, hs, hfind⟩ := h
    rcases Region.resumes passed rest with ⟨r, hr, -⟩ | hsame | hnested
    · exact absurd (hr.symm.trans hfind) (by simp)
    · rw [hfind] at hsame
      exact .inl (resolve_of_none (Option.map_eq_none_iff.mp hsame.symm)).symm
    · exact .inr (hnested.of_suffix hs)
  | ahead r =>
    obtain ⟨passed, hs, hfind⟩ := h
    rcases Region.resumes passed rest with ⟨r', hr', hlt⟩ | hsame | hnested
    · obtain rfl := Option.some.inj (hr'.symm.trans hfind)
      exact absurd hlt (Nat.not_lt.mpr (Nat.le_add_left _ _))
    · rw [hfind] at hsame
      obtain ⟨r', hr', he⟩ := Option.map_eq_some_iff.mp hsame.symm
      rw [Region.farther_injective _ he] at hr'
      exact .inl (resolve_of_some hr').symm
    · exact .inr (hnested.of_suffix hs)

end Lookahead

namespace State

variable {source : Text} {st st' : State}

theorem Recalls.found (h : st.Recalls source) : st.found.Recalls source st.rest :=
  h.look.resolve h.suffix

/-- **One token further on**, what is known was still found by one search. -/
theorem Recalls.next (h : st.Recalls source) (hnext : Next st st') : st'.Recalls source := by
  obtain ⟨s, hs⟩ := hnext
  obtain ⟨hrest, -⟩ := step?_spec h.found.valid hs
  refine ⟨?_, ?_⟩
  · refine List.IsSuffix.trans ?_ h.suffix
    rw [hrest]
    exact List.suffix_append _ _
  · have hfound := h.found
    rw [hrest] at hfound
    rw [← List.length_append]
    exact hfound.advance

end State

/-- **What a scan knows was found by one search**, in every state of it. -/
theorem recalls_of_reached {source : Text} {st : State} (h : Reached source st) :
    st.Recalls source := by
  induction h with
  | refl => exact ⟨List.suffix_rfl, trivial⟩
  | tail _ hnext ih => exact ih.next hnext

/-! ## Searching at every token -/

/-- Scans `rest`, which starts at byte `offset` of the source, with a new search at every token. -/
def scanAfreshFrom (offset : Nat) (rest : Text) : Scan :=
  match _h : step? rest (Lookahead.unknown.resolve rest) with
  | none => ⟨[], rest⟩
  | some s =>
    let start := offset + Text.bytes s.lead
    let size := Text.bytes s.text
    let next := scanAfreshFrom (start + size) s.rest
    ⟨⟨s.lead, s.text, ⟨start, size⟩, s.kind⟩ :: next.tokens, next.tail⟩
termination_by rest.length
decreasing_by exact length_lt_of_step? _h

section Afresh

variable {offset : Nat} {rest : Text}

theorem scanAfreshFrom_of_none (h : step? rest (Lookahead.unknown.resolve rest) = none) :
    scanAfreshFrom offset rest = ⟨[], rest⟩ := by
  rw [scanAfreshFrom]
  split
  · rfl
  · rename_i s hs
    exact absurd (h.symm.trans hs) (by simp)

theorem scanAfreshFrom_of_some {s : Step}
    (h : step? rest (Lookahead.unknown.resolve rest) = some s) :
    scanAfreshFrom offset rest =
      let next := scanAfreshFrom (offset + Text.bytes s.lead + Text.bytes s.text) s.rest
      ⟨⟨s.lead, s.text, ⟨offset + Text.bytes s.lead, Text.bytes s.text⟩, s.kind⟩ :: next.tokens,
        next.tail⟩ := by
  rw [scanAfreshFrom]
  split
  · rename_i hs
    exact absurd (h.symm.trans hs) (by simp)
  · rename_i s' hs
    obtain rfl : s = s' := Option.some.inj (h.symm.trans hs)
    rfl

end Afresh

/-- **The two scans of a text give the same tokens**, if they see the same in every state. -/
theorem scanFrom_eq_afresh (offset : Nat) (look : Lookahead) (rest : Text)
    (h : ∀ st, Relation.ReflTransGen Next ⟨look, rest⟩ st → st.found = st.foundAfresh) :
    scanFrom offset look rest = scanAfreshFrom offset rest := by
  induction offset, look, rest using scanFrom.induct with
  | case1 offset look rest found hstep =>
    have hsame : found = Lookahead.unknown.resolve rest := h ⟨look, rest⟩ .refl
    rw [scanFrom_of_none hstep, scanAfreshFrom_of_none (hsame ▸ hstep)]
  | case2 offset look rest found s hstep start size ih =>
    have hsame : found = Lookahead.unknown.resolve rest := h ⟨look, rest⟩ .refl
    have hnext : Next ⟨look, rest⟩ ⟨found.advance (s.lead.length + s.text.length), s.rest⟩ :=
      .step s hstep
    have hrest := ih fun st hst => h st (.head hnext hst)
    rw [scanFrom_of_some hstep, scanAfreshFrom_of_some (hsame ▸ hstep)]
    exact congrArg (fun next : Scan => (⟨_ :: next.tokens, next.tail⟩ : Scan)) hrest

end Scan

/-- Cuts a template into tokens, with a new search for raw regions at every token. -/
def scanAfresh (source : Text) : Scan := Scan.scanAfreshFrom 0 source

/-- **A scan sees what a new search at every token sees, outside of nested tags.** In every state,
what the scan takes to be the next raw region is what a new search finds, or the text that is left
starts inside the opening tag of an element that is no raw region, in front of the opening of another
element in the same tag. What it takes to be a raw region is always one. So the tokens are those of a
scan that searches at every token, unless a token of it ends in such nested tags. -/
theorem scan_lookahead (source : Text) :
    (∀ st, Scan.Reached source st →
      (st.found = st.foundAfresh ∨ Region.InNestedTag source st.rest) ∧
        ∀ r, st.found = .ahead r → r.Valid st.rest) ∧
    (scan source = scanAfresh source ∨
      ∃ st, Scan.Reached source st ∧ Region.InNestedTag source st.rest) := by
  refine ⟨fun st hst => ⟨(Scan.recalls_of_reached hst).look.resolve_eq, fun r hr => ?_⟩, ?_⟩
  · have hvalid := (Scan.recalls_of_reached hst).found.valid
    rwa [hr] at hvalid
  · by_cases hnested : ∃ st, Scan.Reached source st ∧ Region.InNestedTag source st.rest
    · exact .inr hnested
    · refine .inl (Scan.scanFrom_eq_afresh 0 .unknown source fun st hst => ?_)
      exact (Scan.recalls_of_reached hst).look.resolve_eq.resolve_right
        fun hin => hnested ⟨st, hst, hin⟩

/-- Behind an apostrophe the search takes the tags up to the next one for an attribute, and a scan
that knows of no raw region does not see the script element in there. -/
theorem lookahead_misses_region :
    let source := "<style title=it's {{ a }}></style><script>f('{{ b }}', '>')</script>".toList
    (scan source).tokens.map Token.span = [⟨18, 7⟩, ⟨45, 7⟩] ∧
      (scanAfresh source).tokens.map Token.span = [⟨18, 7⟩, ⟨34, 34⟩] ∧
      ∃ st, Scan.Reached source st ∧ st.found ≠ st.foundAfresh := by
  intro source
  have hscan : (scan source).tokens.map Token.span = [⟨18, 7⟩, ⟨45, 7⟩] := by decide +kernel
  have hafresh : (scanAfresh source).tokens.map Token.span = [⟨18, 7⟩, ⟨34, 34⟩] := by
    decide +kernel
  refine ⟨hscan, hafresh, ?_⟩
  by_contra hno
  have hsame : scan source = scanAfresh source :=
    Scan.scanFrom_eq_afresh 0 .unknown source fun st hst =>
      by_contra fun hne => hno ⟨st, hst, hne⟩
  rw [hsame, hafresh] at hscan
  exact absurd hscan (by decide)

end TemplateFormat
