import TemplateFormat.Print.Action
import TemplateFormat.Proofs.Print.Lines
import TemplateFormat.Proofs.Text.Search

/-!
# Actions that read back

A text `ReadsAs` an action if it is braces around the action, and the closing braces are the first
ones after the opening braces whatever follows the text. The actions that a scan finds are such
texts. They still are with other white space where they have some, and the keyword is the same: it
is looked for at the start of a word, up to the end of the word.

What is printed for an action reads back too, unless a mark or a brace is read into it: without a
space, the statement comes next to the braces. An action is `Steady` if this cannot happen.

Results:
* `reads_scan`: the tokens of a scan read as themselves.
* `ReadsAs.respaced`: with other white space an action has the keyword that it had.
* `Action.ofInner_set`: marks and a statement that are set between braces are read from there.
* `Action.readsAs_flat`: a steady action that is printed has the keyword that it had.
-/

namespace TemplateFormat

/-! ## Reading an action -/

/-- The text is an action with braces around it, and closes with the first closing braces. -/
def ReadsAs (t : Text) (act : Action) : Prop :=
  ∃ inner, t = openBraces ++ (inner ++ closeBraces) ∧ ¬ closeBraces <:+: inner ++ ['}'] ∧
    act = .ofInner inner

namespace ReadsAs

variable {t : Text} {act : Action}

theorem head (h : ReadsAs t act) : ∃ s, t = '{' :: s := by
  obtain ⟨inner, rfl, -⟩ := h
  exact ⟨_, rfl⟩

theorem last (h : ReadsAs t act) : ∃ s, t = s ++ ['}'] := by
  obtain ⟨inner, rfl, -⟩ := h
  exact ⟨openBraces ++ (inner ++ ['}']), by simp [closeBraces]⟩

theorem isAction (h : ReadsAs t act) : IsAction t act := by
  obtain ⟨inner, rfl, -, rfl⟩ := h
  exact ⟨inner, (List.append_assoc ..).symm, rfl⟩

end ReadsAs

namespace Scan

/-- **The next action is the one that reads as itself**, behind a literal that has no opening braces
in it and does not end with one that comes before others. -/
theorem nextAction?_of_readsAs {lead t : Text} {act : Action} (h : ReadsAs t act)
    (hlead : ¬ openBraces <:+: lead ++ ['{']) (rest : Text) :
    ∃ a, nextAction? (lead ++ (t ++ rest)) = some a ∧
      Step.ofAction a = ⟨lead, t, .action act, rest⟩ := by
  obtain ⟨inner, rfl, hinner, rfl⟩ := h
  refine ⟨⟨lead, inner, rest⟩, ?_, by simp [Step.ofAction]⟩
  have hopen : Text.cut? openBraces (lead ++ (openBraces ++ (inner ++ closeBraces) ++ rest)) =
      some (lead, inner ++ (closeBraces ++ rest)) := by
    rw [Text.cut?_eq_some_iff (by decide)]
    exact ⟨by simp only [List.append_assoc], hlead⟩
  have hclose : Text.cut? closeBraces (inner ++ (closeBraces ++ rest)) = some (inner, rest) := by
    rw [Text.cut?_eq_some_iff (by decide)]
    exact ⟨rfl, hinner⟩
  unfold nextAction?
  simp only [hopen, hclose, Option.map_some]

theorem readsAs_of_nextAction? {t : Text} {a : Found} (h : nextAction? t = some a) :
    ReadsAs (openBraces ++ a.inner ++ closeBraces) (.ofInner a.inner) := by
  unfold nextAction? at h
  split at h
  · exact absurd h (by simp)
  · obtain ⟨⟨inner, rest⟩, hc, rfl⟩ := Option.map_eq_some_iff.mp h
    exact ⟨inner, List.append_assoc .., ((Text.cut?_eq_some_iff (by decide)).mp hc).2, rfl⟩

end Scan

/-- The text is read as a token of the kind, whatever follows it. -/
def Token.Kind.Reads (text : Text) : Token.Kind → Prop
  | .action act => ReadsAs text act
  | .raw => IsRegion text

namespace Scan

theorem reads_step? {rest : Text} {look : Lookahead} {s : Step} (hv : look.Valid rest)
    (h : step? rest look = some s) : s.kind.Reads s.text := by
  unfold step? at h
  split at h
  · exact absurd h (by simp)
  · split at h
    · rename_i a r ha
      obtain rfl := Option.some.inj h
      split
      · exact (Step.ofRegion_eq hv).2
      · exact readsAs_of_nextAction? ha
    · rename_i a ha _
      obtain rfl := Option.some.inj h
      exact readsAs_of_nextAction? ha
    · rename_i r _
      obtain rfl := Option.some.inj h
      exact (Step.ofRegion_eq hv).2
    · exact absurd h (by simp)

theorem reads_scanFrom (offset : Nat) (look : Lookahead) (rest : Text) (hv : look.Valid rest) :
    ∀ t ∈ (scanFrom offset look rest).tokens, t.kind.Reads t.text := by
  induction offset, look, rest using scanFrom.induct with
  | case1 offset look rest found hstep =>
    rw [scanFrom_of_none hstep]
    simp
  | case2 offset look rest found s hstep start size ih =>
    have hfound : found.Valid rest := Lookahead.valid_resolve rest hv
    have hnext : (found.advance (s.lead.length + s.text.length)).Valid s.rest := by
      have hrest := (step?_spec hfound hstep).1
      rw [← List.length_append]
      exact Lookahead.valid_advance (hrest ▸ hfound)
    rw [scanFrom_of_some hstep]
    exact List.forall_mem_cons.mpr ⟨reads_step? hfound hstep, ih hnext⟩

end Scan

/-- **The tokens of a scan read as themselves.** -/
theorem reads_scan (source : Text) : ∀ t ∈ (scan source).tokens, t.kind.Reads t.text :=
  Scan.reads_scanFrom 0 .unknown source trivial

/-! ## Other white space -/

namespace Keyword

theorem isSolid_text (k : Keyword) : Text.IsSolid k.text := by
  cases k <;> decide

theorem leading?_squeeze (t : Text) : leading? (Text.squeeze t) = leading? t := by
  have hleads (k : Keyword) : k.leads (Text.squeeze t) = k.leads t := by
    rw [leads, leads, Text.dropStart?_squeeze k.isSolid_text]
    cases Text.dropStart? k.text t with
    | none => rfl
    | some rest => exact atWordEnd_squeeze rest
  rw [leading?, leading?]
  simp only [hleads]

end Keyword

namespace Delimiter

theorem isSolid_opening (d : Delimiter) : Text.IsSolid d.opening := by
  cases d <;> decide

theorem isSolid_closing (d : Delimiter) : Text.IsSolid d.closing := by
  cases d <;> decide

/-- What the first mark found leaves, squeezed. -/
theorem findSome?_squeeze (g : Delimiter → Option Text) (t : Text) :
    (marks.findSome? fun d => ((g d).map Text.squeeze).map (d, ·)).getD (plain, Text.squeeze t) =
      (((marks.findSome? fun d => (g d).map (d, ·)).getD (plain, t)).1,
        Text.squeeze ((marks.findSome? fun d => (g d).map (d, ·)).getD (plain, t)).2) := by
  have hmap : (marks.findSome? fun d => ((g d).map Text.squeeze).map (d, ·)) =
      (marks.findSome? fun d => (g d).map (d, ·)).map fun p => (p.1, Text.squeeze p.2) := by
    rw [List.map_findSome?]
    congr 1
    funext d
    rw [Function.comp, Option.map_map, Option.map_map]
    rfl
  rw [hmap]
  cases marks.findSome? fun d => (g d).map (d, ·) <;> rfl

theorem takeOpening_squeeze (t : Text) : takeOpening (Text.squeeze t) =
    ((takeOpening t).1, Text.squeeze (takeOpening t).2) := by
  rw [takeOpening, takeOpening, ← findSome?_squeeze]
  simp only [Text.dropStart?_squeeze (isSolid_opening _)]

theorem takeClosing_squeeze (t : Text) : takeClosing (Text.squeeze t) =
    ((takeClosing t).1, Text.squeeze (takeClosing t).2) := by
  rw [takeClosing, takeClosing, ← findSome?_squeeze]
  simp only [Text.dropEnding?_squeeze (isSolid_closing _)]

end Delimiter

namespace Action

theorem statement_squeeze (inner : Text) :
    (ofInner (Text.squeeze inner)).statement = Text.squeeze (ofInner inner).statement := by
  simp only [ofInner, Delimiter.takeOpening_squeeze, ← Text.squeeze_trimStart,
    Delimiter.takeClosing_squeeze, ← Text.squeeze_trimEnd]

theorem keyword_squeeze (inner : Text) :
    (ofInner (Text.squeeze inner)).keyword = (ofInner inner).keyword := by
  show Keyword.leading? (ofInner (Text.squeeze inner)).statement = _
  rw [statement_squeeze, Keyword.leading?_squeeze]
  rfl

end Action

theorem isSolid_closeBraces : Text.IsSolid closeBraces := by decide

/-- **With other white space an action has the keyword that it had.** -/
theorem ReadsAs.respaced {t t' : Text} {act : Action} (h : ReadsAs t act)
    (ht : Text.squeeze t = Text.squeeze t') :
    ∃ act', ReadsAs t' act' ∧ act'.keyword = act.keyword := by
  obtain ⟨inner, rfl, hinner, rfl⟩ := h
  have hsqueeze : Text.squeeze (openBraces ++ (inner ++ closeBraces)) =
      openBraces ++ (Text.squeeze inner ++ closeBraces) := by
    have hopen := Text.squeeze_append_word isSolid_openBraces (by decide) [] (inner ++ closeBraces)
    have hclose := Text.squeeze_append_word isSolid_closeBraces (by decide) inner []
    rw [List.append_nil] at hclose
    rw [List.nil_append, hclose] at hopen
    simpa using hopen
  rw [hsqueeze] at ht
  obtain ⟨o, u, rfl, ho, hu⟩ := Text.squeeze_split ht.symm
  obtain ⟨inner', c, rfl, hi, hc⟩ := Text.squeeze_split hu
  rw [Text.eq_of_squeeze_eq isSolid_openBraces ho, Text.eq_of_squeeze_eq isSolid_closeBraces hc]
  refine ⟨_, ⟨inner', rfl, ?_, rfl⟩, ?_⟩
  · have hbrace (s : Text) : Text.squeeze (s ++ ['}']) = Text.squeeze s ++ ['}'] :=
      Text.squeeze_append_cons (by decide) s []
    rw [← Text.infix_squeeze isSolid_closeBraces, hbrace, hi, ← hbrace,
      Text.infix_squeeze isSolid_closeBraces]
    exact hinner
  · rw [← Action.keyword_squeeze, hi, Action.keyword_squeeze]

/-! ## Printed actions -/

/-- The characters that opening marks begin with. -/
def openers : List Char := ['-', '<', '%', '/']

/-- The characters that closing marks and braces end with. -/
def closers : List Char := ['-', '>', '%', '/', '}']

/-- White space keeps what comes before a text from being one of the characters `ds`. -/
theorem head_append_isBlank {a s : Text} {ds : List Char} (hds : Text.IsSolid ds)
    (ha : Text.isBlank a = true) (h : a = [] → ∀ d ∈ s.head?, d ∉ ds) :
    ∀ d ∈ (a ++ s).head?, d ∉ ds := by
  cases a with
  | nil => exact h rfl
  | cons c a =>
    intro d hd hmem
    obtain rfl := Option.some.inj hd
    rw [Text.isBlank_cons, hds c hmem] at ha
    exact absurd ha (by simp)

theorem last_append_isBlank {b s : Text} {ds : List Char} (hds : Text.IsSolid ds)
    (hb : Text.isBlank b = true) (h : b = [] → ∀ d ∈ s.getLast?, d ∉ ds) :
    ∀ d ∈ (s ++ b).getLast?, d ∉ ds := by
  have hrev : Text.isBlank b.reverse = true := by rwa [Text.isBlank_reverse]
  have := head_append_isBlank (s := s.reverse) hds hrev fun hnil => by
    rw [List.head?_reverse]
    exact h (List.reverse_eq_nil_iff.mp hnil)
  rwa [← List.reverse_append, List.head?_reverse] at this

namespace Delimiter

theorem takeOpening_plain {t : Text} (h : ∀ c ∈ t.head?, c ∉ openers) :
    takeOpening t = (plain, t) := by
  cases t with
  | nil => rfl
  | cons c t =>
    have hc := h c rfl
    simp only [openers, List.mem_cons, List.not_mem_nil, or_false, not_or] at hc
    obtain ⟨h1, h2, h3, h4⟩ := hc
    simp [takeOpening, marks, opening, Text.dropStart?, Ne.symm h1, Ne.symm h2, Ne.symm h3,
      Ne.symm h4]

/-- An opening mark is read before anything, and no mark before what does not begin like one. -/
theorem takeOpening_append {d : Delimiter} {t : Text}
    (h : d = plain → ∀ c ∈ t.head?, c ∉ openers) : takeOpening (d.opening ++ t) = (d, t) := by
  cases d with
  | plain => exact takeOpening_plain (h rfl)
  | trim => simp [takeOpening, marks, opening, Text.dropStart?]
  | percent => simp [takeOpening, marks, opening, Text.dropStart?]
  | angle => simp [takeOpening, marks, opening, Text.dropStart?]
  | comment => simp [takeOpening, marks, opening, Text.dropStart?]

theorem takeClosing_plain {t : Text} (h : ∀ c ∈ t.getLast?, c ∉ closers) :
    takeClosing t = (plain, t) := by
  rcases List.eq_nil_or_concat t with rfl | ⟨t, c, rfl⟩
  · rfl
  · have hc := h c (by simp)
    simp only [closers, List.mem_cons, List.not_mem_nil, or_false, not_or] at hc
    obtain ⟨h1, h2, h3, h4, -⟩ := hc
    simp [takeClosing, marks, closing, Text.dropEnding?, Text.dropStart?, Ne.symm h1, Ne.symm h2,
      Ne.symm h3, Ne.symm h4]

/-- A closing mark is read behind anything, and no mark behind what does not end like one. -/
theorem takeClosing_append {d : Delimiter} {t : Text}
    (h : d = plain → ∀ c ∈ t.getLast?, c ∉ closers) : takeClosing (t ++ d.closing) = (d, t) := by
  cases d with
  | plain =>
    rw [closing, List.append_nil]
    exact takeClosing_plain (h rfl)
  | trim => simp [takeClosing, marks, closing, Text.dropEnding?, Text.dropStart?]
  | percent => simp [takeClosing, marks, closing, Text.dropEnding?, Text.dropStart?]
  | angle => simp [takeClosing, marks, closing, Text.dropEnding?, Text.dropStart?]
  | comment => simp [takeClosing, marks, closing, Text.dropEnding?, Text.dropStart?]

end Delimiter

namespace Action

/-- The statement of an action has no white space at its ends. -/
theorem trimmed_statement (inner : Text) : (ofInner inner).statement.Trimmed := by
  have hspec := Delimiter.takeClosing_spec (Text.trimStart (Delimiter.takeOpening inner).2)
  refine ⟨Text.head_of_isPrefix (Text.trimEnd_isPrefix _) ?_, Text.last_trimEnd _⟩
  exact Text.head_of_isPrefix ⟨_, hspec.symm⟩ (Text.head_trimStart _)

/-- **Marks and a statement that are set between braces are read from there**, if neither end of the
statement looks like a mark where there is none. -/
theorem ofInner_set {o c : Delimiter} {a s b : Text} (ha : Text.isBlank a = true)
    (hb : Text.isBlank b = true) (hs : s.Trimmed) (hne : s ≠ [])
    (hopen : o = .plain → ∀ d ∈ (a ++ s).head?, d ∉ openers)
    (hclose : c = .plain → ∀ d ∈ (s ++ b).getLast?, d ∉ closers) :
    ofInner (o.opening ++ (a ++ (s ++ (b ++ c.closing)))) = ⟨o, c, s, Keyword.leading? s⟩ := by
  have hhead (r : Text) : (s ++ r).head? = s.head? := List.head?_append_of_ne_nil _ hne
  have htake : Delimiter.takeOpening (o.opening ++ (a ++ (s ++ (b ++ c.closing)))) =
      (o, a ++ (s ++ (b ++ c.closing))) := by
    refine Delimiter.takeOpening_append fun ho d hd => hopen ho d ?_
    rw [← List.append_assoc, List.head?_append_of_ne_nil _ (by simp [hne])] at hd
    exact hd
  have hstart : Text.trimStart (a ++ (s ++ (b ++ c.closing))) = (s ++ b) ++ c.closing := by
    rw [Text.trimStart_append ha (by rw [hhead]; exact hs.head), List.append_assoc]
  have hend : Text.trimEnd (s ++ b) = s := Text.trimEnd_append hb hs.last
  unfold ofInner
  simp only [htake, hstart, Delimiter.takeClosing_append hclose, hend]

/-- Nothing in an action reads as closing braces, if neither the statement nor its end does. -/
theorem not_closeBraces_set {o c : Delimiter} {a s b : Text} (ha : Text.isBlank a = true)
    (hb : Text.isBlank b = true) (hs : ¬ closeBraces <:+: s)
    (hclose : c = .plain → ∀ d ∈ (s ++ b).getLast?, d ∉ closers) :
    ¬ closeBraces <:+: (o.opening ++ (a ++ (s ++ (b ++ c.closing)))) ++ ['}'] := by
  have hstrip {p t : Text} (hp : '}' ∉ p) (hi : closeBraces <:+: p ++ t) : closeBraces <:+: t := by
    induction p with
    | nil => exact hi
    | cons d p ih =>
      rw [List.mem_cons, not_or] at hp
      have hd : d ∉ closeBraces := by simp [closeBraces, Ne.symm hp.1]
      rcases infix_append_cons (a := []) hi hd with hnil | hi
      · exact absurd hnil (by decide)
      · exact ih hp.2 hi
  have hblank {t : Text} (ht : Text.isBlank t = true) : '}' ∉ t :=
    fun hmem => absurd (Text.isBlank_iff.mp ht _ hmem) (by decide)
  have hopening : '}' ∉ o.opening := by cases o <;> decide
  have hclosing : '}' ∉ b ++ c.closing := by
    rw [List.mem_append, not_or]
    exact ⟨hblank hb, by cases c <;> decide⟩
  intro hi
  simp only [List.append_assoc] at hi
  have hbody := hstrip (hblank ha) (hstrip hopening hi)
  rw [← List.append_assoc b] at hbody
  cases hrest : b ++ c.closing with
  | cons d r =>
    rw [hrest, List.mem_cons, not_or] at hclosing
    rw [hrest, List.cons_append] at hbody
    rcases infix_append_cons hbody (by simp [closeBraces, Ne.symm hclosing.1]) with hi | hi
    · exact hs hi
    · exact absurd (hstrip hclosing.2 hi) (by decide)
  | nil =>
    -- the statement stands next to the braces, and does not end with one
    obtain ⟨rfl, hplain⟩ := List.append_eq_nil_iff.mp hrest
    have hc : c = .plain := by
      cases c with
      | plain => rfl
      | _ => exact absurd hplain (by simp [Delimiter.closing])
    rw [hrest, List.nil_append] at hbody
    obtain ⟨x, y, he⟩ := hbody
    rcases List.eq_nil_or_concat y with rfl | ⟨y, d, rfl⟩
    · rw [List.append_nil] at he
      have hlast : s = x ++ ['}'] := by
        have : s ++ ['}'] = (x ++ ['}']) ++ ['}'] := by rw [← he]; simp [closeBraces]
        exact List.append_cancel_right this
      refine hclose hc '}' ?_ (by decide)
      rw [List.append_nil, hlast]
      simp
    · rw [List.concat_eq_append, ← List.append_assoc] at he
      exact hs ⟨x, y, (List.append_inj' he rfl).1⟩

/-- No end of the statement is read as a mark or a brace when it is printed: it has a mark before it
or a space, or it begins like no mark, and so at its end. -/
structure Steady (spacing : Bool) (act : Action) : Prop where
  opening : act.opening = .plain → (spacing = true ∧ '\n' ∉ act.statement) ∨
    ∀ c ∈ act.statement.head?, c ∉ openers
  closing : act.closing = .plain → spacing = true ∨ ∀ c ∈ act.statement.getLast?, c ∉ closers

instance (spacing : Bool) (act : Action) : Decidable (act.Steady spacing) :=
  -- characters can be enumerated, so the instances for one character of a text are given
  have : Decidable (∀ c ∈ act.statement.head?, c ∉ openers) := Option.decidableForallMem _
  have : Decidable (∀ c ∈ act.statement.getLast?, c ∉ closers) := Option.decidableForallMem _
  decidable_of_iff
    ((act.opening = .plain → (spacing = true ∧ '\n' ∉ act.statement) ∨
        ∀ c ∈ act.statement.head?, c ∉ openers) ∧
      (act.closing = .plain → spacing = true ∨ ∀ c ∈ act.statement.getLast?, c ∉ closers))
    ⟨fun h => ⟨h.1, h.2⟩, fun h => ⟨h.opening, h.closing⟩⟩

/-- A statement as it is set: white space, the statement with other white space in the same places,
and white space. -/
structure Sets (padStart padEnd : Bool) (statement a s b : Text) : Prop where
  flat_eq : (statementDoc statement padStart padEnd).flat = a ++ (s ++ b)
  before : Text.isBlank a = true
  behind : Text.isBlank b = true
  trimmed : s.Trimmed
  squeeze_eq : Text.squeeze s = Text.squeeze statement
  padStart_ne : padStart = true → '\n' ∉ statement → a ≠ []
  padEnd_ne : padEnd = true → b ≠ []

/-- **A printed statement** is set between white space. -/
theorem exists_sets {statement : Text} (h : statement.Trimmed) (hne : statement ≠ [])
    (padStart padEnd : Bool) : ∃ a s b, Sets padStart padEnd statement a s b := by
  have heven := even_statementLines statement
  -- a line that is the statement up to its white space, without the white space at its ends
  have htrim {u : Text} (hu : Text.even u = Text.even statement) : ∃ x s y,
      u = x ++ (s ++ y) ∧ Text.isBlank x = true ∧ Text.isBlank y = true ∧ s.Trimmed ∧
        Text.squeeze s = Text.squeeze statement := by
    obtain ⟨x, y, hx, hy, he⟩ := Text.eq_append_trim u
    have htrimmed := Text.trimmed_trim u
    generalize Text.trim u = s at he htrimmed
    subst he
    rw [List.append_assoc] at hu ⊢
    rw [Text.even_isBlank_append hx, Text.even_append_isBlank hy] at hu
    exact ⟨x, s, y, rfl, hx, hy, htrimmed, Text.squeeze_eq_of_even_eq htrimmed h hu⟩
  have hpad (b : Bool) : Text.isBlank (if b then [' '] else []) = true := by cases b <;> rfl
  cases hlines : statementLines statement with
  | nil =>
    rw [hlines] at heven
    have hnil := Text.squeeze_eq_of_even_eq (s := []) ⟨by simp, by simp⟩ h heven
    exact absurd (Text.eq_of_squeeze_eq (by simp [Text.IsSolid]) hnil.symm) hne
  | cons first rest =>
    rw [hlines, spaced_cons, Text.even_isBlank_append (by decide)] at heven
    cases rest with
    | nil =>
      rw [spaced, List.flatMap_nil, List.append_nil] at heven
      obtain ⟨x, s, y, rfl, hx, hy, htrimmed, hsqueeze⟩ := htrim heven
      refine ⟨(if padStart then [' '] else []) ++ x, s, y ++ if padEnd then [' '] else [],
        ?_, ?_, ?_, htrimmed, hsqueeze, ?_, ?_⟩
      · unfold statementDoc
        simp [hlines]
      · rw [Text.isBlank_append, hpad, hx]
        rfl
      · rw [Text.isBlank_append, hpad, hy]
        rfl
      · rintro rfl -
        simp
      · rintro rfl
        simp
    | cons second rest =>
      obtain ⟨x, s, y, hu, hx, hy, htrimmed, hsqueeze⟩ := htrim heven
      refine ⟨x, s, y ++ [' '], ?_, hx, ?_, htrimmed, hsqueeze, ?_, ?_⟩
      · rw [← List.append_assoc s, ← List.append_assoc x, ← hu]
        unfold statementDoc
        simp [hlines, spaced, List.flatMap_map]
      · rw [Text.isBlank_append, hy]
        rfl
      · -- a statement of several lines has a line feed
        intro _ hline
        rw [statementLines, Text.lines_of_notMem hline] at hlines
        split at hlines <;> exact absurd (congrArg List.length hlines) (by simp)
      · simp

theorem statement_isInfix (inner : Text) : (ofInner inner).statement <:+: inner := by
  obtain ⟨b, b', -, -, hinner⟩ := ofInner_spec inner
  generalize ofInner inner = act at hinner
  rw [hinner]
  exact ⟨act.opening.opening ++ b, b' ++ act.closing.closing, by simp only [List.append_assoc]⟩

/-- Without a statement, two marks are printed, and nothing can be read into them. -/
theorem keyword_marks (o c : Delimiter) :
    (ofInner (o.opening ++ c.closing)).keyword = none := by
  cases o <;> cases c <;> decide

/-- **A steady action that is printed reads as an action with its keyword.** -/
theorem readsAs_flat {t : Text} {act : Action} (h : ReadsAs t act) {spacing : Bool}
    (hsteady : act.Steady spacing) :
    ∃ act', ReadsAs (act.doc spacing).flat act' ∧ act'.keyword = act.keyword := by
  obtain ⟨inner, -, hinner, rfl⟩ := h
  have htrimmed := trimmed_statement inner
  have hkeyword : (ofInner inner).keyword = Keyword.leading? (ofInner inner).statement := rfl
  have hbraces : ¬ closeBraces <:+: (ofInner inner).statement := fun hi =>
    hinner ((hi.trans (statement_isInfix inner)).trans (List.prefix_append _ _).isInfix)
  generalize ofInner inner = act at hsteady htrimmed hkeyword hbraces
  have hflat : (act.doc spacing).flat = openBraces ++ ((act.opening.opening ++
      ((statementDoc act.statement (spacing || act.opening == .trim)
        (spacing || act.closing == .trim)).flat ++ act.closing.closing)) ++ closeBraces) := by
    simp [Action.doc]
  by_cases hne : act.statement = []
  · have hempty : (statementDoc act.statement (spacing || act.opening == .trim)
        (spacing || act.closing == .trim)).flat = [] := by
      rw [hne]
      rfl
    rw [hempty, List.nil_append] at hflat
    refine ⟨_, ⟨_, hflat, ?_, rfl⟩, ?_⟩
    · cases act.opening <;> cases act.closing <;> decide
    · rw [keyword_marks, hkeyword, hne]
      rfl
  · obtain ⟨a, s, b, hsets⟩ := exists_sets htrimmed hne (spacing || act.opening == .trim)
      (spacing || act.closing == .trim)
    have hhead : s.head? = act.statement.head? := by
      rw [← Text.head?_squeeze hsets.trimmed.head, hsets.squeeze_eq,
        Text.head?_squeeze htrimmed.head]
    have hlast : s.getLast? = act.statement.getLast? := by
      rw [← Text.getLast?_squeeze hsets.trimmed.last, hsets.squeeze_eq,
        Text.getLast?_squeeze htrimmed.last]
    have hsne : s ≠ [] := by
      rintro rfl
      exact hne (List.head?_eq_none_iff.mp hhead.symm)
    have hopen : act.opening = .plain → ∀ d ∈ (a ++ s).head?, d ∉ openers := by
      intro ho
      refine head_append_isBlank (by decide) hsets.before fun ha => ?_
      rw [hhead]
      exact (hsteady.opening ho).resolve_left fun hpad =>
        hsets.padStart_ne (by rw [hpad.1]; rfl) hpad.2 ha
    have hclose : act.closing = .plain → ∀ d ∈ (s ++ b).getLast?, d ∉ closers := by
      intro hc
      refine last_append_isBlank (by decide) hsets.behind fun hb => ?_
      rw [hlast]
      exact (hsteady.closing hc).resolve_left fun hpad =>
        hsets.padEnd_ne (by rw [hpad]; rfl) hb
    rw [hsets.flat_eq, List.append_assoc a, List.append_assoc s] at hflat
    refine ⟨_, ⟨_, hflat, ?_, rfl⟩, ?_⟩
    · refine not_closeBraces_set hsets.before hsets.behind ?_ hclose
      rwa [← Text.infix_squeeze isSolid_closeBraces, hsets.squeeze_eq,
        Text.infix_squeeze isSolid_closeBraces]
    · rw [ofInner_set hsets.before hsets.behind hsets.trimmed hsne hopen hclose, hkeyword,
        ← Keyword.leading?_squeeze, hsets.squeeze_eq, Keyword.leading?_squeeze]

end Action

end TemplateFormat
