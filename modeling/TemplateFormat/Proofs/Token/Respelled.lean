import TemplateFormat.Proofs.Print.Shows
import Mathlib.Order.MinMax

/-!
# Spellings of a template

A template can be spelled in more than one way: an action may have other white space at its inner
edges, and is the same action. `Respelled s t` says that two texts differ in no other way. The rules
by which the surroundings of a node decide its layout look at raw text, inside actions as well, but
they cannot tell two spellings apart: no action starts or ends with white space, so a line feed
inside one is never the last one before a node that stands alone, nor the first one after it.

The placeholders are the same, too: the letters of a stem stand side by side in a statement or in a
literal, and never across the border of an action.

Results:
* `Respelled.append`: spellings put one after the other.
* `Respelled.aloneOnLine_eq`, `Respelled.endsWithNewLine_eq`, `Respelled.blankLineFollows_eq`: what
  the layout asks of a text.
* `Placeholder.lt_demand_iff`: which stems a text rules out.
* `Respelled.stem_eq`: the stem of the placeholders.
-/

namespace TemplateFormat

/-- The texts differ only in white space at the inner edges of actions. -/
inductive Respelled : Text → Text → Prop
  | nil : Respelled [] []
  | char (c : Char) {s t : Text} (h : Respelled s t) : Respelled (c :: s) (c :: t)
  | action {a b s t : Text} {act : Action} (ha : IsAction a act) (hb : IsAction b act)
      (h : Respelled s t) : Respelled (a ++ s) (b ++ t)

theorem IsAction.head {a : Text} {act : Action} (h : IsAction a act) :
    ∃ rest, a = '{' :: '{' :: rest := by
  obtain ⟨inner, rfl, -⟩ := h
  exact ⟨inner ++ closeBraces, rfl⟩

theorem IsAction.last {a : Text} {act : Action} (h : IsAction a act) :
    ∃ init, a = init ++ ['}'] := by
  obtain ⟨inner, rfl, -⟩ := h
  exact ⟨openBraces ++ inner ++ ['}'], by simp [closeBraces]⟩

/-! ## Ends of lines -/

theorem Text.lastLine_of_not_mem {t : Text} (h : '\n' ∉ t) : lastLine t = t := by
  rw [lastLine, List.takeWhile_eq_self_iff.mpr fun d hd => ?_, List.reverse_reverse]
  simpa using fun he : d = '\n' => h (he ▸ List.mem_reverse.mp hd)

theorem Text.lastLine_append {s : Text} (h : '\n' ∈ s) (t : Text) :
    lastLine (t ++ s) = lastLine s := by
  have hlength : ¬ (s.reverse.takeWhile (· != '\n')).length = s.reverse.length := by
    intro hlength
    rw [← List.mem_reverse, ← (List.takeWhile_prefix _).eq_of_length hlength] at h
    exact absurd (List.mem_takeWhile_imp h) (by decide)
  rw [lastLine, List.reverse_append, List.takeWhile_append, if_neg hlength, lastLine]

theorem Text.isBlank_lastLine_of_isBlank {t : Text} (h : isBlank t = true) :
    isBlank (lastLine t) = true := by
  rw [isBlank_iff] at h ⊢
  intro c hc
  rw [lastLine, List.mem_reverse] at hc
  exact h c (List.mem_reverse.mp (List.takeWhile_subset _ hc))

theorem any_newline_iff (t : Text) : t.any (· == '\n') = true ↔ '\n' ∈ t := by
  simp

/-- The last line is blank if white space is all there is, or all there is behind a line feed. -/
theorem isBlank_lastLine (t : Text) :
    Text.isBlank (Text.lastLine t) = (endsWithNewLine t || Text.isBlank t) := by
  unfold endsWithNewLine
  by_cases hmem : '\n' ∈ t
  · rw [(any_newline_iff t).mpr hmem, Bool.true_and]
    by_cases hblank : Text.isBlank t = true
    · rw [Text.isBlank_lastLine_of_isBlank hblank, Bool.true_or]
    · rw [Bool.eq_false_iff.mpr hblank, Bool.or_false]
  · rw [Bool.eq_false_iff.mpr (mt (any_newline_iff t).mp hmem), Text.lastLine_of_not_mem hmem]
    rfl

/-- A text ends with a new line if the rest does, or if the rest is white space behind a line feed.
-/
theorem endsWithNewLine_cons (c : Char) (t : Text) :
    endsWithNewLine (c :: t) = (endsWithNewLine t || (c == '\n' && Text.isBlank t)) := by
  by_cases hmem : '\n' ∈ t
  · have hcons : endsWithNewLine (c :: t) = Text.isBlank (Text.lastLine t) := by
      rw [endsWithNewLine, (any_newline_iff _).mpr (List.mem_cons_of_mem c hmem), Bool.true_and]
      exact congrArg Text.isBlank (Text.lastLine_append hmem [c])
    have hrest : endsWithNewLine t = Text.isBlank (Text.lastLine t) := by
      rw [endsWithNewLine, (any_newline_iff t).mpr hmem, Bool.true_and]
    rw [hcons, hrest]
    by_cases hblank : Text.isBlank t = true
    · rw [Text.isBlank_lastLine_of_isBlank hblank, Bool.true_or]
    · rw [Bool.eq_false_iff.mpr hblank, Bool.and_false, Bool.or_false]
  · have hrest : endsWithNewLine t = false := by
      rw [endsWithNewLine, Bool.eq_false_iff.mpr (mt (any_newline_iff t).mp hmem), Bool.false_and]
    rw [hrest, Bool.false_or]
    by_cases hc : c = '\n'
    · subst hc
      have hlast : Text.lastLine ('\n' :: t) = t := by
        rw [Text.lastLine, List.reverse_cons, List.takeWhile_append_of_pos fun d hd => ?_]
        · simp
        · simpa using fun he : d = '\n' => hmem (he ▸ List.mem_reverse.mp hd)
      rw [endsWithNewLine, hlast]
      rfl
    · have hnone : '\n' ∉ c :: t := by
        simpa using ⟨Ne.symm hc, hmem⟩
      rw [endsWithNewLine, Bool.eq_false_iff.mpr (mt (any_newline_iff _).mp hnone), Bool.false_and,
        beq_false_of_ne hc, Bool.false_and]

/-- What stands before a character that is not white space does not end the text with a new line. -/
theorem endsWithNewLine_append_cons {c : Char} (hc : isBlank c = false) (s t : Text) :
    endsWithNewLine (s ++ c :: t) = endsWithNewLine t := by
  induction s with
  | nil =>
    have hne : (c == '\n') = false := beq_false_of_ne fun he => by
      rw [he] at hc
      exact absurd hc (by decide)
    rw [List.nil_append, endsWithNewLine_cons, hne, Bool.false_and, Bool.or_false]
  | cons d s ih =>
    have hblank : Text.isBlank (s ++ c :: t) = false := by simp [hc]
    rw [List.cons_append, endsWithNewLine_cons, hblank, Bool.and_false, Bool.or_false, ih]

theorem isBlank_firstLine_cons (c : Char) (t : Text) :
    Text.isBlank (Text.firstLine (c :: t)) =
      (c == '\n' || (isBlank c && Text.isBlank (Text.firstLine t))) := by
  unfold Text.firstLine
  by_cases hc : c = '\n'
  · simp [hc]
  · rw [List.takeWhile_cons_of_pos (by simpa using hc), Text.isBlank_cons, beq_false_of_ne hc,
      Bool.false_or]

/-! ## What the layout asks of a text -/

namespace Respelled

variable {s t s' t' : Text}

theorem refl : ∀ t : Text, Respelled t t
  | [] => .nil
  | c :: t => .char c (refl t)

theorem symm (h : Respelled s t) : Respelled t s := by
  induction h with
  | nil => exact .nil
  | char c _ ih => exact .char c ih
  | action ha hb _ ih => exact .action hb ha ih

/-- **Spellings put one after the other.** -/
theorem append (h : Respelled s t) (h' : Respelled s' t') : Respelled (s ++ s') (t ++ t') := by
  induction h with
  | nil => exact h'
  | char c _ ih => exact .char c ih
  | action ha hb _ ih =>
    rw [List.append_assoc, List.append_assoc]
    exact .action ha hb ih

theorem of_isAction {a b : Text} {act : Action} (ha : IsAction a act) (hb : IsAction b act) :
    Respelled a b := by
  have h := action ha hb nil
  rwa [List.append_nil, List.append_nil] at h

theorem isBlank_eq (h : Respelled s t) : Text.isBlank s = Text.isBlank t := by
  induction h with
  | nil => rfl
  | char c _ ih => rw [Text.isBlank_cons, Text.isBlank_cons, ih]
  | action ha hb _ _ =>
    obtain ⟨a, rfl⟩ := ha.head
    obtain ⟨b, rfl⟩ := hb.head
    rfl

/-- **Whether a closing action starts a line**: an action does not end with white space. -/
theorem endsWithNewLine_eq (h : Respelled s t) : endsWithNewLine s = endsWithNewLine t := by
  induction h with
  | nil => rfl
  | char c h ih => rw [endsWithNewLine_cons, endsWithNewLine_cons, ih, h.isBlank_eq]
  | action ha hb _ ih =>
    obtain ⟨a, rfl⟩ := ha.last
    obtain ⟨b, rfl⟩ := hb.last
    have hbrace : isBlank '}' = false := by decide
    rw [List.append_assoc, List.append_assoc]
    exact ((endsWithNewLine_append_cons hbrace a _).trans ih).trans
      (endsWithNewLine_append_cons hbrace b _).symm

theorem isBlank_firstLine_eq (h : Respelled s t) :
    Text.isBlank (Text.firstLine s) = Text.isBlank (Text.firstLine t) := by
  induction h with
  | nil => rfl
  | char c _ ih => rw [isBlank_firstLine_cons, isBlank_firstLine_cons, ih]
  | action ha hb _ _ =>
    obtain ⟨a, rfl⟩ := ha.head
    obtain ⟨b, rfl⟩ := hb.head
    rfl

/-- **Whether a node has a line of its own.** -/
theorem aloneOnLine_eq (h : Respelled s t) (h' : Respelled s' t') :
    aloneOnLine s s' = aloneOnLine t t' := by
  rw [aloneOnLine, aloneOnLine, isBlank_lastLine, isBlank_lastLine, h.endsWithNewLine_eq,
    h.isBlank_eq, h'.isBlank_firstLine_eq]

/-! ### What follows a node -/

/-- Dropping characters stops at an action. -/
theorem dropWhile {q : Char → Bool} (hq : q '{' = false) (h : Respelled s t) :
    Respelled (s.dropWhile q) (t.dropWhile q) := by
  induction h with
  | nil => exact .nil
  | char c h ih =>
    rw [List.dropWhile_cons, List.dropWhile_cons]
    split
    · exact ih
    · exact .char c h
  | action ha hb h _ =>
    have hstop {a : Text} {act : Action} (ha : IsAction a act) (s : Text) :
        (a ++ s).dropWhile q = a ++ s := by
      obtain ⟨a, rfl⟩ := ha.head
      exact List.dropWhile_cons_of_neg (by simp [hq])
    rw [hstop ha, hstop hb]
    exact .action ha hb h

theorem head?_eq (h : Respelled s t) : s.head? = t.head? := by
  cases h with
  | nil => rfl
  | char c _ => rfl
  | action ha hb _ =>
    obtain ⟨a, rfl⟩ := ha.head
    obtain ⟨b, rfl⟩ := hb.head
    rfl

theorem startsWith_openBraces (h : Respelled s t)
    (hs : Text.startsWith openBraces s = true) : Text.startsWith openBraces t = true := by
  cases h with
  | nil => exact hs
  | @char c s t h =>
    obtain ⟨rest, hrest⟩ := Option.isSome_iff_exists.mp hs
    obtain ⟨rfl, rfl⟩ := List.cons.inj (Text.dropStart?_eq_some.mp hrest)
    obtain ⟨t, rfl⟩ := List.head?_eq_some_iff.mp h.head?_eq.symm
    rfl
  | action ha hb _ =>
    obtain ⟨b, rfl⟩ := hb.head
    rfl

/-- A line end is no part of an action. -/
theorem rel_afterLineEnd? (h : Respelled s t) :
    Option.Rel Respelled (afterLineEnd? s) (afterLineEnd? t) := by
  have hdrop := h.dropWhile (q := isSpace) (by decide)
  unfold afterLineEnd?
  generalize s.dropWhile isSpace = u at hdrop
  generalize t.dropWhile isSpace = v at hdrop
  cases hdrop with
  | nil => exact .none
  | char c h =>
    by_cases hfeed : c = '\n'
    · subst hfeed
      exact .some h
    · by_cases hreturn : c = '\r'
      · subst hreturn
        -- a carriage return ends a line with the line feed behind it, and no action starts with one
        cases h with
        | nil => exact .none
        | char d h =>
          by_cases hd : d = '\n'
          · subst hd
            exact .some h
          · simp [hd]
        | action ha hb _ =>
          obtain ⟨a, rfl⟩ := ha.head
          obtain ⟨b, rfl⟩ := hb.head
          exact .none
      · simp [hfeed, hreturn]
  | action ha hb _ =>
    obtain ⟨a, rfl⟩ := ha.head
    obtain ⟨b, rfl⟩ := hb.head
    exact .none

/-- **Whether a blank line and an action follow.** -/
theorem blankLineFollows_eq (h : Respelled s t) : blankLineFollows s = blankLineFollows t := by
  have hbind : Option.Rel Respelled ((afterLineEnd? s).bind afterLineEnd?)
      ((afterLineEnd? t).bind afterLineEnd?) := by
    have hrel := h.rel_afterLineEnd?
    generalize afterLineEnd? s = u at hrel
    generalize afterLineEnd? t = v at hrel
    cases hrel with
    | none => exact .none
    | some h => exact h.rel_afterLineEnd?
  unfold blankLineFollows
  generalize (afterLineEnd? s).bind afterLineEnd? = u at hbind
  generalize (afterLineEnd? t).bind afterLineEnd? = v at hbind
  cases hbind with
  | none => rfl
  | some h =>
    have hrest := h.dropWhile (q := isBlank) (by decide)
    exact Bool.eq_iff_iff.mpr ⟨hrest.startsWith_openBraces, hrest.symm.startsWith_openBraces⟩

end Respelled

/-! ## Placeholders -/

namespace Placeholder

/-- **Which stems a text rules out**: exactly the ones that occur in it. -/
theorem lt_demand_iff {n : Nat} {t : Text} :
    n < demand t ↔ base ++ List.replicate n 'x' <:+: t := by
  constructor
  · intro h
    induction t with
    | nil => exact absurd h (Nat.not_lt_zero n)
    | cons c t ih =>
      rw [demand] at h
      split at h
      · rename_i rest hrest
        rcases lt_max_iff.mp h with hlt | hlt
        · rw [Text.dropStart?_eq_some.mp hrest]
          have hrun : rest.takeWhile (· == 'x') =
              List.replicate (rest.takeWhile (· == 'x')).length 'x' :=
            List.eq_replicate_of_mem fun c hc => by simpa using List.mem_takeWhile_imp hc
          have hprefix : List.replicate n 'x' <+: rest := by
            refine List.IsPrefix.trans ?_ (List.takeWhile_prefix (· == 'x'))
            rw [hrun]
            exact List.prefix_replicate_iff.mpr ⟨by simpa using Nat.le_of_lt_succ hlt, by simp⟩
          exact ((List.prefix_append_right_inj base).mpr hprefix).isInfix
        · exact (ih hlt).trans (List.suffix_cons c t).isInfix
      · exact (ih h).trans (List.suffix_cons c t).isInfix
  · rintro ⟨pre, post, rfl⟩
    have h := lt_demand pre post n
    rwa [← List.append_assoc] at h

/-- Letters of stems are not in what stands before them without such letters. -/
theorem infix_of_clear_append {p w t : Text} (hp : ∀ c ∈ p, c ∈ letters) (hne : p ≠ [])
    (hw : ∀ c ∈ w, c ∉ letters) (h : p <:+: w ++ t) : p <:+: t := by
  induction w with
  | nil => exact h
  | cons c w ih =>
    have hc := hw c List.mem_cons_self
    refine ih (fun d hd => hw d (List.mem_cons_of_mem c hd)) ?_
    rcases infix_append_cons (a := []) h fun hm => hc (hp c hm) with h | h
    · exact absurd (List.infix_nil.mp h) hne
    · exact h

/-- Letters of stems are not in what stands behind them without such letters. -/
theorem infix_of_append_clear {p w t : Text} (hp : ∀ c ∈ p, c ∈ letters) (hne : p ≠ [])
    (hw : ∀ c ∈ w, c ∉ letters) (h : p <:+: t ++ w) : p <:+: t := by
  rw [← List.reverse_infix] at h ⊢
  rw [List.reverse_append] at h
  exact infix_of_clear_append (fun c hc => hp c (List.mem_reverse.mp hc))
    (List.reverse_ne_nil_iff.mpr hne) (fun c hc => hw c (List.mem_reverse.mp hc)) h

/-- **Letters of stems that stand side by side in an action** stand in its statement. -/
theorem infix_statement {p a : Text} {act : Action} (hp : ∀ c ∈ p, c ∈ letters) (hne : p ≠ [])
    (ha : IsAction a act) : p <:+: a ↔ p <:+: act.statement := by
  obtain ⟨inner, rfl, rfl⟩ := ha
  obtain ⟨b, b', hb, hb', hinner⟩ := Action.ofInner_spec inner
  generalize Action.ofInner inner = act at hinner
  have hblank {b : Text} (hb : Text.isBlank b = true) : ∀ c ∈ b, c ∉ letters :=
    fun c hc => not_mem_letters_of_isBlank (Text.isBlank_iff.mp hb c hc)
  have ha : openBraces ++ inner ++ closeBraces = (openBraces ++ act.opening.opening ++ b) ++
      (act.statement ++ (b' ++ (act.closing.closing ++ closeBraces))) := by
    rw [hinner]
    simp only [List.append_assoc]
  rw [ha]
  constructor
  · intro h
    refine infix_of_append_clear hp hne ?_ (infix_of_clear_append hp hne ?_ h)
    · exact List.forall_mem_append.mpr ⟨hblank hb', act.closing.clear_closing⟩
    · exact List.forall_mem_append.mpr ⟨act.opening.clear_opening, hblank hb⟩
  · intro h
    exact h.trans ⟨_, _, List.append_assoc ..⟩

end Placeholder

namespace Respelled

open Placeholder

variable {s t : Text}

theorem prefix_letters {p : Text} (hp : ∀ c ∈ p, c ∈ letters) (h : Respelled s t)
    (hs : p <+: s) : p <+: t := by
  induction h generalizing p with
  | nil => exact hs
  | char c _ ih =>
    rcases List.prefix_cons_iff.mp hs with rfl | ⟨q, rfl, hq⟩
    · exact List.nil_prefix
    · exact (List.prefix_cons_inj c).mpr (ih (fun d hd => hp d (List.mem_cons_of_mem c hd)) hq)
  | action ha _ _ _ =>
    obtain ⟨a, rfl⟩ := ha.head
    rcases List.prefix_cons_iff.mp hs with rfl | ⟨q, rfl, -⟩
    · exact List.nil_prefix
    · exact absurd (hp '{' List.mem_cons_self) (by decide)

/-- Letters of stems stand side by side in both spellings or in none. -/
theorem infix_letters {p : Text} (hp : ∀ c ∈ p, c ∈ letters) (hne : p ≠ []) (h : Respelled s t)
    (hs : p <:+: s) : p <:+: t := by
  induction h with
  | nil => exact hs
  | char c h ih =>
    rcases List.infix_cons_iff.mp hs with hs | hs
    · exact (prefix_letters hp (.char c h) hs).isInfix
    · exact (ih hs).trans (List.suffix_cons c _).isInfix
  | @action a b s t act ha hb _ ih =>
    have hsplit : p <:+: a ∨ p <:+: s := by
      obtain ⟨init, rfl⟩ := ha.last
      rw [List.append_assoc] at hs
      rcases infix_append_cons hs fun hm => absurd (hp '}' hm) (by decide) with h | h
      · exact .inl (h.trans (List.prefix_append init ['}']).isInfix)
      · exact .inr h
    rcases hsplit with h | h
    · have hstatement := (infix_statement hp hne ha).mp h
      exact ((infix_statement hp hne hb).mpr hstatement).trans (List.prefix_append b t).isInfix
    · exact (ih h).trans (List.suffix_append b t).isInfix

/-- **Two spellings of a template have the same placeholders.** -/
theorem stem_eq (h : Respelled s t) : stem s = stem t := by
  have hle {s t : Text} (h : Respelled s t) : demand s ≤ demand t := by
    refine le_of_forall_lt fun n hn => ?_
    rw [lt_demand_iff] at hn ⊢
    refine infix_letters (fun c hc => ?_) (by simp [base]) h hn
    rcases List.mem_append.mp hc with hc | hc
    · exact List.mem_append_left ['x'] hc
    · rw [List.eq_of_mem_replicate hc]
      decide
  rw [stem, stem, le_antisymm (hle h) (hle h.symm)]

end Respelled

end TemplateFormat
