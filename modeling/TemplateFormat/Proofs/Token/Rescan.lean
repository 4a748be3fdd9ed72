import TemplateFormat.Proofs.Print.Strokes

/-!
# Reading what was printed

A text that writes the strokes of a template is cut into tokens with the same moves, if nothing else
in it can be read as a token. The literals must stay literals when white space is dropped from them:
a literal is `Inert` if neither an action nor a raw region begins in it then, and its last brace
does not come before others.

The scan of the printed text goes on token by token with that of the template. What it knows of the
next raw region is always what a new search would find, because no region is searched from inside
another token.

Results:
* `Region.find?_append_unopened`: the search passes over texts in which no tag begins.
* `Scan.step?_of_reads`: a step reads the token behind an inert literal.
* `Scan.moves_scanFrom`: the tokens of a text that writes strokes have the moves of the strokes.
-/

namespace TemplateFormat

/-- Neither an action nor a raw region begins in the literal, with `next` behind it, whatever white
space is dropped from it. -/
structure Inert (t next : Text) : Prop where
  braces : ¬ openBraces <:+: Text.solid t ++ next
  tags : Region.Unopened (Text.solid t)

instance (t next : Text) : Decidable (Inert t next) :=
  decidable_of_iff (¬ openBraces <:+: Text.solid t ++ next ∧ Region.Unopened (Text.solid t))
    ⟨fun h => ⟨h.1, h.2⟩, fun h => ⟨h.braces, h.tags⟩⟩

/-- Tokens with the same move begin with the same character. -/
theorem Token.Kind.Reads.take_one {kind kind' : Token.Kind} {t t' : Text} (h : kind.Reads t)
    (h' : kind'.Reads t') (hmove : kind.move = kind'.move) : t.take 1 = t'.take 1 := by
  have hraw (act : Action) : act.move ≠ .raw := by
    unfold Action.move
    cases act.keyword with
    | none => simp
    | some k => cases k <;> decide
  cases kind with
  | action act =>
    cases kind' with
    | action act' =>
      obtain ⟨s, rfl⟩ := ReadsAs.head h
      obtain ⟨s', rfl⟩ := ReadsAs.head h'
      rfl
    | raw => exact absurd hmove (hraw act)
  | raw =>
    cases kind' with
    | action act' => exact absurd hmove.symm (hraw act')
    | raw =>
      obtain ⟨s, rfl⟩ := IsRegion.head h
      obtain ⟨s', rfl⟩ := IsRegion.head h'
      rfl

theorem Text.infix_solid {w t : Text} (hw : IsSolid w) (h : w <:+: t) : w <:+: solid t := by
  obtain ⟨a, b, rfl⟩ := h
  have hsolid : solid w = w := List.filter_eq_self.mpr fun c hc => by simp [hw c hc]
  rw [solid_append, solid_append, hsolid]
  exact List.infix_append ..

namespace Region

theorem Unopened.of_solid {t : Text} (h : Unopened (Text.solid t)) : Unopened t :=
  fun name hname hi => h name hname (Text.infix_solid (isSolid_openTag hname) hi)

/-- No tag reaches over a brace. -/
theorem Unopened.append {s t : Text} (hs : Unopened s) (ht : Unopened ('{' :: t)) :
    Unopened (s ++ '{' :: t) := by
  have hbrace : ∀ name ∈ names, '{' ∉ '<' :: name := by decide
  intro name hname hi
  rcases infix_append_cons hi (hbrace name hname) with hi | hi
  · exact hs name hname hi
  · exact ht name hname (hi.trans (List.suffix_cons ..).isInfix)

/-- **The search passes over a text in which no tag begins**, up to a closing brace or to an angle
bracket. -/
theorem find?_append_unopened {s t : Text} (hs : Unopened s)
    (hcut : (∃ u, s = u ++ ['}']) ∨ ∃ u, t = '<' :: u) :
    find? (s ++ t) = (find? t).map (farther s.length) := by
  have hbrace : ∀ name ∈ names, '}' ∉ '<' :: name := by decide
  have hangle : ∀ name ∈ names, '<' ∉ name := by decide
  refine find?_append fun x hx hne name hname hp => ?_
  obtain ⟨r, hr⟩ := hp
  rcases List.append_eq_append_iff.mp hr with ⟨y, rfl, -⟩ | ⟨y, hy, ht⟩
  · exact hs name hname ((List.prefix_append ..).isInfix.trans hx.isInfix)
  · -- the tag would reach over the end of `s`
    rcases hcut with ⟨u, rfl⟩ | ⟨u, rfl⟩
    · rcases List.eq_nil_or_concat x with rfl | ⟨x, d, rfl⟩
      · exact hne rfl
      · obtain ⟨v, hv⟩ := hx
        rw [List.concat_eq_append, ← List.append_assoc] at hv
        obtain rfl : d = '}' := by simpa using (List.append_inj' hv rfl).2
        refine hbrace name hname ?_
        rw [hy]
        simp
    · obtain ⟨c, x, rfl⟩ := List.exists_cons_of_ne_nil hne
      cases y with
      | nil =>
        rw [List.append_nil] at hy
        exact hs name hname (hy ▸ hx.isInfix)
      | cons d y =>
        obtain ⟨rfl, -⟩ := List.cons.inj ht
        refine hangle name hname ?_
        rw [(List.cons.inj hy).2]
        simp

theorem find?_eq_none {t : Text} (h : Unopened t) : find? t = none := by
  have := find?_append (s := t) (t := []) fun x hx _ name hname hp => by
    rw [List.append_nil] at hp
    exact h name hname (hp.isInfix.trans hx.isInfix)
  rw [List.append_nil] at this
  rw [this, find?]
  rfl

end Region

namespace Scan

namespace Lookahead

/-- What is known behind a token is what a new search finds, if the search passes over the token. -/
theorem resolve_advance {s t : Text}
    (h : Region.find? (s ++ t) = (Region.find? t).map (Region.farther s.length)) :
    ((unknown.resolve (s ++ t)).advance s.length).resolve t = unknown.resolve t := by
  cases hr : Region.find? t with
  | none =>
    rw [hr] at h
    rw [resolve_of_none h, resolve_of_none hr]
    rfl
  | some r =>
    rw [hr] at h
    rw [resolve_of_some h, resolve_of_some hr]
    have hfar : ¬ (r.farther s.length).distance < s.length := by
      show ¬ r.distance + s.length < s.length
      omega
    rw [advance, if_neg hfar, Region.nearer_farther]
    rfl

end Lookahead

theorem step?_eq_action {t : Text} {look : Lookahead} {a : Found} (h : nextAction? t = some a)
    (hlook : ∀ r, look = .ahead r → a.lead.length ≤ r.distance) :
    step? t look = some (.ofAction a) := by
  have hne : ¬ t.isEmpty = true := by
    rintro hnil
    rw [List.isEmpty_iff.mp hnil] at h
    exact absurd h (by simp [nextAction?, Text.cut?, openBraces])
  unfold step?
  rw [if_neg hne, h]
  cases look with
  | unknown => rfl
  | absent => rfl
  | ahead r => simp only [if_neg (Nat.not_lt.mpr (hlook r rfl))]

theorem step?_eq_region {t : Text} {r : Region} (hne : t ≠ [])
    (h : ∀ a, nextAction? t = some a → r.distance < a.lead.length) :
    step? t (.ahead r) = some (.ofRegion t r) := by
  unfold step?
  rw [if_neg (by rwa [List.isEmpty_iff])]
  cases ha : nextAction? t with
  | none => rfl
  | some a => simp only [if_pos (h a ha)]

theorem step?_eq_none {t : Text} (h : nextAction? t = none) : step? t .absent = none := by
  unfold step?
  rw [h]
  split <;> rfl

/-- The next action begins behind a literal that has no opening braces in it, and behind the angle
bracket that follows. -/
theorem length_lt_lead_of_nextAction? {lead u : Text} {a : Found} (hlead : ¬ openBraces <:+: lead)
    (h : nextAction? (lead ++ '<' :: u) = some a) : lead.length < a.lead.length := by
  have he := nextAction?_spec h
  rw [List.append_assoc, List.append_assoc, List.append_assoc] at he
  rcases List.append_eq_append_iff.mp he with ⟨x, hx, hu⟩ | ⟨x, hx, hu⟩
  · cases x with
    | nil => exact absurd (List.cons.inj hu).1 (by decide)
    | cons c x =>
      rw [hx, List.length_append]
      exact Nat.lt_add_of_pos_right (Nat.succ_pos _)
  · match x, hx, hu with
    | [], _, hu => exact absurd (List.cons.inj hu).1 (by decide)
    | [c], _, hu => exact absurd (List.cons.inj (List.cons.inj hu).2).1 (by decide)
    | c :: d :: x, hx, hu =>
      obtain ⟨rfl, hrest⟩ := List.cons.inj hu
      obtain ⟨rfl, -⟩ := List.cons.inj hrest
      refine absurd ⟨a.lead, x, ?_⟩ hlead
      rw [hx, List.append_assoc]
      rfl

/-- **A step reads the token behind an inert literal**, and what is known of the next raw region
stays what a new search finds. -/
theorem step?_of_reads {lead p : Text} {kind : Token.Kind} (hreads : kind.Reads p)
    (hinert : Inert lead (p.take 1)) (hopen : kind ≠ .raw → Region.Unopened (Text.solid p))
    (rest : Text) :
    step? (lead ++ (p ++ rest)) (Lookahead.unknown.resolve (lead ++ (p ++ rest))) =
        some ⟨lead, p, kind, rest⟩ ∧
      ((Lookahead.unknown.resolve (lead ++ (p ++ rest))).advance (lead.length + p.length)).resolve
        rest = Lookahead.unknown.resolve rest := by
  cases kind with
  | action act =>
    obtain ⟨s, hs⟩ := ReadsAs.head hreads
    have hlead : ¬ openBraces <:+: lead ++ ['{'] := by
      intro hi
      have hsolid := Text.infix_solid isSolid_openBraces hi
      rw [Text.solid_append] at hsolid
      refine hinert.braces ?_
      rw [hs]
      exact hsolid
    obtain ⟨a, ha, hstep⟩ := nextAction?_of_readsAs hreads hlead rest
    have halead : a.lead = lead := congrArg Step.lead hstep
    have hpass : Region.find? ((lead ++ p) ++ rest) =
        (Region.find? rest).map (Region.farther (lead ++ p).length) := by
      refine Region.find?_append_unopened ?_ (Or.inl ?_)
      · have hp := (hopen (by simp)).of_solid
        rw [hs] at hp ⊢
        exact hinert.tags.of_solid.append hp
      · obtain ⟨u, hu⟩ := ReadsAs.last hreads
        exact ⟨lead ++ u, by rw [hu, List.append_assoc]⟩
    rw [← List.append_assoc] at ha ⊢
    refine ⟨?_, ?_⟩
    · rw [← hstep]
      refine step?_eq_action ha fun r hr => ?_
      rw [halead]
      cases hrest : Region.find? rest with
      | none =>
        rw [hrest] at hpass
        rw [Lookahead.resolve_of_none hpass] at hr
        exact absurd hr (by simp)
      | some r' =>
        rw [hrest] at hpass
        rw [Lookahead.resolve_of_some hpass] at hr
        obtain rfl := Lookahead.ahead.inj hr
        show lead.length ≤ r'.distance + (lead ++ p).length
        rw [List.length_append]
        omega
    · rw [← List.length_append]
      exact Lookahead.resolve_advance hpass
  | raw =>
    obtain ⟨s, hs⟩ := IsRegion.head hreads
    have hlead : ¬ openBraces <:+: lead := fun hi => hinert.braces
      ((Text.infix_solid isSolid_openBraces hi).trans (List.prefix_append ..).isInfix)
    obtain ⟨hpos, hfind⟩ := Region.find?_of_isRegion hreads rest
    have hpass : Region.find? (lead ++ (p ++ rest)) = some ⟨lead.length, p.length, hpos⟩ := by
      have happend := Region.find?_append_unopened (t := p ++ rest) hinert.tags.of_solid
        (Or.inr ⟨s ++ rest, by rw [hs]; rfl⟩)
      rw [happend, hfind]
      simp [Region.farther]
    rw [Lookahead.resolve_of_some hpass]
    refine ⟨?_, ?_⟩
    · rw [step?_eq_region (by simp [hs]) fun a ha => ?_]
      · simp [Step.ofRegion]
      · rw [hs, List.cons_append] at ha
        exact length_lt_lead_of_nextAction? hlead ha
    · rw [Lookahead.advance, if_pos (Nat.lt_add_of_pos_right hpos)]

/-- **A text that writes the strokes of a template has tokens with the same moves**, by induction on
the tokens of the template. -/
theorem moves_scanFrom {ts : List Token} {tail : Text}
    (hts : ∀ t ∈ ts, t.kind.Reads t.text ∧ Inert t.lead (t.text.take 1)) (htail : Inert tail [])
    {out : Text} (h : Writes Reprints out (strokesOf (ts.flatMap Token.glyphs ++ Glyph.literal tail)))
    (offset : Nat) {look : Lookahead} (hlook : look.resolve out = Lookahead.unknown.resolve out) :
    (scanFrom offset look out).tokens.map Token.move = ts.map Token.move := by
  induction ts generalizing out offset look with
  | nil =>
    rw [List.flatMap_nil, List.nil_append, strokesOf_literal] at h
    have hsolid := h.solid_eq
    have hbraces : ¬ openBraces <:+: out := fun hi => by
      have := Text.infix_solid isSolid_openBraces hi
      rw [hsolid] at this
      exact htail.braces (by rwa [List.append_nil])
    have hfind : Region.find? out = none :=
      Region.find?_eq_none (Region.Unopened.of_solid (by rw [hsolid]; exact htail.tags))
    have haction : nextAction? out = none := by
      rw [nextAction?, Text.cut?_eq_none hbraces]
    have hstep : step? out (look.resolve out) = none := by
      rw [hlook, Lookahead.resolve_of_none hfind]
      exact step?_eq_none haction
    rw [scanFrom_of_none hstep]
  | cons t ts ih =>
    obtain ⟨hreads, hinert⟩ := hts t List.mem_cons_self
    rw [List.flatMap_cons, Token.glyphs, List.append_assoc, List.append_assoc, strokesOf_append,
      strokesOf_literal] at h
    obtain ⟨lead, p, rest, rfl, hlead, ⟨kind, hkind, hmove, hopen⟩, hrest⟩ := h.split
    have hinert' : Inert lead (p.take 1) := by
      rw [hkind.take_one hreads hmove]
      exact ⟨hlead ▸ hinert.braces, hlead ▸ hinert.tags⟩
    obtain ⟨hstep, hnext⟩ := step?_of_reads hkind hinert' hopen rest
    rw [← hlook] at hstep hnext
    rw [scanFrom_of_some hstep, List.map_cons, List.map_cons, Token.move_eq, Token.move_eq t]
    congr 1
    exact ih (fun t' ht' => hts t' (List.mem_cons_of_mem t ht')) hrest _ hnext

end Scan

end TemplateFormat
