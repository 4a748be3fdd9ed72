import TemplateFormat.Proofs.Doc.Ends
import TemplateFormat.Proofs.Doc.Spread
import TemplateFormat.Proofs.Doc.Within

/-!
# Lines that are known from the items

A line that a literal break begins has no indentation, so its characters are the texts up to the
next break. If that is a forced break, the line is ended there as it is; only an ordinary break
behind two blank lines is left out. `Known` is what can be told of the output from the items printed
so far, and `Known.lines` are the lines that are ended as they are known. Nothing of this depends on
indentation or on which groups are broken.

Results:
* `Known.lines_append`: the known lines of items one after the other.
* `Known.sublist_shown`: the known lines behind literal breaks.
* `Known.Le.lines`: who knows more knows more lines.
* `Sure.append`, `Sure.of_normals`: lines that items end whatever is printed before.
* `Known.Tells.write`, `Known.Tells.lineBreak`: a text or a line break keeps what is known true.
* `Doc.sublist_lines_render`: the known lines of a document are lines of the output, in their order.
-/

namespace TemplateFormat

/-- What is known of the output from the items printed so far. -/
structure Known where
  /-- Something other than spaces and tabs has been printed. -/
  started : Bool
  /-- The characters of the current line, where they are known. -/
  line : Option Text
  /-- Something other than spaces and tabs is on the current line. -/
  full : Bool
  /-- The line before the current one is not blank. -/
  backed : Bool

/-- Something in the text is neither a space nor a tab. -/
def Text.inks (t : Text) : Bool := t.any fun c => !isSpace c

namespace Known

/-- Nothing is printed. -/
def start : Known := ⟨false, some [], false, false⟩

/-- What is known behind an item. -/
def next (k : Known) : Item → Known
  | .text t => ⟨k.started || t.inks, k.line.map (· ++ t), k.full || t.inks, k.backed⟩
  | .line kind => ⟨k.started, if k.started && kind = .literal then some [] else none, false,
      k.full && kind.isForced⟩

/-- The line break is known to end the current line. -/
def ends (k : Known) : Line → Bool
  | .soft | .normal => false
  | .hard => k.full || k.backed
  | .verbatim | .literal => k.started

/-- The line that an item ends, if it is known. -/
def ended (k : Known) : Item → List Text
  | .text _ => []
  | .line kind => if k.ends kind then k.line.toList else []

/-- What is known behind items. -/
def after (k : Known) (is : List Item) : Known := is.foldl next k

/-- The lines that items end, as far as they are known. -/
def lines (k : Known) : List Item → List Text
  | [] => []
  | i :: is => k.ended i ++ (k.next i).lines is

/-- The known lines, with the current one. -/
def shown (k : Known) (is : List Item) : List Text := k.lines is ++ (k.after is).line.toList

variable {k : Known} {is js : List Item}

theorem after_cons (k : Known) (i : Item) (is : List Item) :
    k.after (i :: is) = (k.next i).after is := rfl

theorem after_append (k : Known) (is js : List Item) :
    k.after (is ++ js) = (k.after is).after js := List.foldl_append ..

/-- **The known lines of items one after the other.** -/
theorem lines_append (k : Known) (is js : List Item) :
    k.lines (is ++ js) = k.lines is ++ (k.after is).lines js := by
  induction is generalizing k with
  | nil => rfl
  | cons i is ih => rw [List.cons_append, lines, lines, ih, List.append_assoc, after_cons]

theorem lines_concat (k : Known) (is : List Item) (i : Item) :
    k.lines (is ++ [i]) = k.lines is ++ (k.after is).ended i := by
  rw [lines_append, lines, lines, List.append_nil]

theorem started_after (h : k.started = true) (is : List Item) : (k.after is).started = true := by
  induction is generalizing k with
  | nil => exact h
  | cons i is ih =>
    refine ih ?_
    cases i with
    | text t => simp [next, h]
    | line kind => exact h

/-- **Known lines behind literal breaks**: each of these ends the line before it. -/
theorem sublist_shown {α : Type} {f : α → List Item} {g : α → List Text} {xs : List α}
    (h : ∀ x ∈ xs, ∀ j : Known, j.line = some [] → (g x).Sublist (j.shown (f x)))
    (hk : k.started = true) :
    (k.line.toList ++ xs.flatMap g).Sublist
      (k.shown (xs.flatMap fun x => .line .literal :: f x)) := by
  induction xs generalizing k with
  | nil => simp [shown, lines, after]
  | cons x xs ih =>
    have hended : k.ended (.line .literal) = k.line.toList := if_pos hk
    have hline : (k.next (.line .literal)).line = some [] := by simp [next, hk]
    have hx := h x List.mem_cons_self _ hline
    have hxs := ih (fun y hy => h y (List.mem_cons_of_mem x hy))
      (started_after (k := k.next (.line .literal)) hk (f x))
    rw [shown] at hx hxs ⊢
    rw [List.flatMap_cons, List.flatMap_cons, List.cons_append, lines, hended, lines_append,
      after_cons, after_append, List.append_assoc, List.append_assoc]
    have hboth := hx.append (List.Sublist.refl (xs.flatMap g))
    rw [List.append_assoc] at hboth
    exact (List.Sublist.refl _).append (hboth.trans ((List.Sublist.refl _).append hxs))

/-- A literal break ends the current line. -/
theorem shown_sublist_literal (hk : k.started = true) (is js : List Item) :
    (k.shown is).Sublist (k.lines (is ++ .line .literal :: js)) := by
  have hended : (k.after is).ended (.line .literal) = (k.after is).line.toList :=
    if_pos (started_after hk is)
  rw [shown, lines_append, lines, hended]
  exact (List.Sublist.refl _).append (List.sublist_append_left _ _)

/-- A hard break ends the current line, if it is not blank or the line before it is not. -/
theorem shown_sublist_hard (h : (k.after is).full = true ∨ (k.after is).backed = true)
    (js : List Item) : (k.shown is).Sublist (k.lines (is ++ .line .hard :: js)) := by
  have hended : (k.after is).ended (.line .hard) = (k.after is).line.toList :=
    if_pos (Bool.or_eq_true_iff.mpr h)
  rw [shown, lines_append, lines, hended]
  exact (List.Sublist.refl _).append (List.sublist_append_left _ _)

/-! ## Knowing more -/

/-- What is known in `j` is known in `k`. -/
structure Le (j k : Known) : Prop where
  started : j.started = true → k.started = true
  line : ∀ t, j.line = some t → k.line = some t
  full : j.full = true → k.full = true
  backed : j.backed = true → k.backed = true

namespace Le

variable {j : Known}

theorem next (h : j.Le k) (i : Item) : (j.next i).Le (k.next i) := by
  obtain ⟨hstarted, hline, hfull, hbacked⟩ := h
  cases i with
  | text t =>
    refine ⟨fun hs => ?_, fun x hx => ?_, fun hf => ?_, hbacked⟩
    · exact Bool.or_eq_true_iff.mpr ((Bool.or_eq_true_iff.mp hs).imp_left hstarted)
    · obtain ⟨y, hy, rfl⟩ := Option.map_eq_some_iff.mp hx
      exact Option.map_eq_some_iff.mpr ⟨y, hline y hy, rfl⟩
    · exact Bool.or_eq_true_iff.mpr ((Bool.or_eq_true_iff.mp hf).imp_left hfull)
  | line kind =>
    refine ⟨hstarted, fun x hx => ?_, fun hf => absurd hf (by simp [Known.next]), fun hb => ?_⟩
    · by_cases hs : j.started = true
      · simpa [Known.next, hs, hstarted hs] using hx
      · simp [Known.next, hs] at hx
    · rw [Known.next, Bool.and_eq_true] at hb ⊢
      exact ⟨hfull hb.1, hb.2⟩

theorem ended (h : j.Le k) (i : Item) : (j.ended i).Sublist (k.ended i) := by
  cases i with
  | text t => exact List.nil_sublist _
  | line kind =>
    by_cases hj : j.ends kind = true
    · have hk : k.ends kind = true := by
        cases kind with
        | soft => exact hj
        | normal => exact hj
        | hard => exact Bool.or_eq_true_iff.mpr ((Bool.or_eq_true_iff.mp hj).imp h.full h.backed)
        | verbatim => exact h.started hj
        | literal => exact h.started hj
      rw [Known.ended, Known.ended, if_pos hj, if_pos hk]
      cases hline : j.line with
      | none => exact List.nil_sublist _
      | some t => rw [h.line t hline]
    · rw [Known.ended, if_neg hj]
      exact List.nil_sublist _

/-- **Who knows more knows more lines.** -/
theorem lines (h : j.Le k) (is : List Item) : (j.lines is).Sublist (k.lines is) := by
  induction is generalizing j k with
  | nil => exact List.Sublist.refl _
  | cons i is ih => exact (h.ended i).append (ih (h.next i))

end Le

/-- A normal break ends no known line, and leaves less known. -/
theorem normals {a : List Item} (ha : ∀ i ∈ a, i = .line .normal) (k : Known) :
    k.lines a = [] ∧ (k.after a).Le k := by
  induction a generalizing k with
  | nil => exact ⟨rfl, id, fun _ h => h, id, id⟩
  | cons i a ih =>
    rw [List.forall_mem_cons] at ha
    obtain ⟨rfl, ha⟩ := ha
    obtain ⟨hlines, hle⟩ := ih ha (k.next (.line .normal))
    have hnext : (k.next (.line .normal)).Le k := by
      refine ⟨id, fun t ht => ?_, fun hf => ?_, fun hb => ?_⟩
      · simp [next] at ht
      · simp [next] at hf
      · simp [next, Line.isForced] at hb
    refine ⟨hlines, fun hs => hnext.started (hle.started hs), fun t ht => ?_, fun hf => ?_,
      fun hb => hnext.backed (hle.backed hb)⟩
    · exact hnext.line t (hle.line t ht)
    · exact hnext.full (hle.full hf)

end Known

/-- The items end the lines `ls`, whatever is printed before. -/
def Sure (ls : List Text) (is : List Item) : Prop := ∀ k : Known, ls.Sublist (k.lines is)

namespace Sure

variable {ls ms : List Text} {is js : List Item}

theorem nil (is : List Item) : Sure [] is := fun _ => List.nil_sublist _

theorem append (h : Sure ls is) (h' : Sure ms js) : Sure (ls ++ ms) (is ++ js) := by
  intro k
  rw [Known.lines_append]
  exact (h k).append (h' _)

theorem left (h : Sure ls js) (is : List Item) : Sure ls (is ++ js) := (nil is).append h

theorem right (h : Sure ls is) (js : List Item) : Sure ls (is ++ js) := by
  have := h.append (nil js)
  rwa [List.append_nil] at this

/-- What each part ends, all of them end. -/
theorem flatMap {α : Type} {f : α → List Item} {g : α → List Text} {xs : List α}
    (h : ∀ x ∈ xs, Sure (g x) (f x)) : Sure (xs.flatMap g) (xs.flatMap f) := by
  induction xs with
  | nil => exact nil _
  | cons x xs ih =>
    rw [List.forall_mem_cons] at h
    exact h.1.append (ih h.2)

/-- Normal breaks at both ends end no line. -/
theorem of_normals {a b : List Item} (ha : ∀ i ∈ a ++ b, i = .line .normal)
    (h : Sure ls (a ++ (is ++ b))) : Sure ls is := by
  rw [List.forall_mem_append] at ha
  intro k
  have hk := h k
  rw [Known.lines_append, Known.lines_append, (Known.normals ha.1 k).1, (Known.normals ha.2 _).1,
    List.nil_append, List.append_nil] at hk
  exact hk.trans ((Known.normals ha.1 k).2.lines is)

end Sure

namespace Known

variable {k : Known} {is js : List Item}

/-! ## What is known is true -/

section Truth

open Render

variable {u t : Text} {kept : List Text}

/-- What is known tells the truth about the printed text `u`, and the lines `kept` are among its
lines that are ended, up to white space at their ends. -/
structure Tells (k : Known) (kept : List Text) (u : Text) : Prop where
  started : k.started = true → u.inks = true
  line : ∀ t, k.line = some t → (Text.lines u).getLast? = some t
  full : k.full = true → ∃ l, (Text.lines u).getLast? = some l ∧ l.inks = true
  backed : k.backed = true → ∃ m, (Text.lines u).dropLast.getLast? = some m ∧ m ≠ []
  kept : (kept.map Text.trimEnd).Sublist ((Text.lines u).dropLast.map Text.trimEnd)

theorem tells_start : Tells .start [] [] where
  started h := absurd h (by decide)
  line t h := h
  full h := absurd h (by decide)
  backed h := absurd h (by decide)
  kept := List.nil_sublist _

theorem exists_last (u : Text) : ∃ ls l, Text.lines u = ls ++ [l] := by
  obtain ⟨ls, l, h⟩ := (List.eq_nil_or_concat (Text.lines u)).resolve_left (Text.lines_ne_nil u)
  exact ⟨ls, l, by rw [h, List.concat_eq_append]⟩

theorem inks_append (s t : Text) : Text.inks (s ++ t) = (s.inks || t.inks) := List.any_append

/-- **A text goes on the current line.** -/
theorem Tells.write (h : Tells k kept u) (ht : '\n' ∉ t) :
    Tells (k.next (.text t)) kept (u ++ t) := by
  obtain ⟨ls, l, hu⟩ := exists_last u
  have hut := Text.lines_append_of_notMem hu ht
  obtain ⟨hstarted, hline, hfull, hbacked, hkept⟩ := h
  rw [hu, List.getLast?_concat] at hline hfull
  rw [hu, List.dropLast_concat] at hbacked hkept
  refine ⟨fun hs => ?_, fun x hx => ?_, fun hf => ?_, fun hb => ?_, ?_⟩
  · rw [inks_append, Bool.or_eq_true]
    exact (Bool.or_eq_true_iff.mp hs).imp_left hstarted
  · obtain ⟨y, hy, rfl⟩ := Option.map_eq_some_iff.mp hx
    rw [hut, List.getLast?_concat, Option.some.inj (hline y hy)]
  · refine ⟨l ++ t, by rw [hut, List.getLast?_concat], ?_⟩
    rw [inks_append, Bool.or_eq_true]
    refine (Bool.or_eq_true_iff.mp hf).imp_left fun hf => ?_
    obtain ⟨m, hm, hinks⟩ := hfull hf
    rwa [Option.some.inj hm]
  · rw [hut, List.dropLast_concat]
    exact hbacked hb
  · rw [hut, List.dropLast_concat]
    exact hkept

/-- Spaces and tabs behind a text. -/
theorem inks_spaces {b : Text} (hb : ∀ c ∈ b, isSpace c = true) : b.inks = false := by
  rw [Text.inks, List.any_eq_false]
  intro c hc
  simp [hb c hc]

/-- The printed text without the spaces and tabs at its end, and its lines. -/
theorem exists_settled (o : Output) : ∃ ls l b, (∀ c ∈ b, isSpace c = true) ∧
    o.chars.reverse = o.settled.reverse ++ b ∧ Text.lines o.settled.reverse = ls ++ [l] ∧
      Text.lines o.chars.reverse = ls ++ [l ++ b] := by
  obtain ⟨ls, l, hlines⟩ := exists_last o.settled.reverse
  have hspaces : ∀ c ∈ (o.chars.takeWhile isSpace).reverse, isSpace c = true :=
    fun c hc => List.mem_takeWhile_imp (List.mem_reverse.mp hc)
  have hsplit : o.chars.reverse = o.settled.reverse ++ (o.chars.takeWhile isSpace).reverse := by
    rw [Output.settled, ← List.reverse_append, List.takeWhile_append_dropWhile]
  refine ⟨ls, l, _, hspaces, hsplit, hlines, ?_⟩
  rw [hsplit]
  exact Text.lines_append_of_notMem hlines fun hmem => absurd (hspaces _ hmem) (by decide)

/-- Behind a blank line the last two lines are empty. -/
theorem lines_of_endsBlank {t : Text} (h : Output.endsBlank t = true) :
    ∃ ls, Text.lines t.reverse = ls ++ [[]] ++ [[]] := by
  unfold Output.endsBlank at h
  split at h
  · rename_i rest
    refine ⟨Text.lines rest.reverse, ?_⟩
    rw [List.reverse_cons, List.reverse_cons, List.append_assoc]
    exact (Text.lines_append rest.reverse ['\n']).trans
      (List.append_assoc _ [[]] [[]]).symm
  · exact absurd h (by decide)

/-- **A line feed** ends the current line. -/
theorem Tells.lineFeed {o : Output} {kind : Line} {b : Text}
    (h : Tells k kept o.chars.reverse) (hb : ∀ c ∈ b, isSpace c = true)
    (hliteral : kind = .literal → b = []) :
    Tells (k.next (.line kind)) (kept ++ k.ended (.line kind))
      (o.settled.reverse ++ '\n' :: b) := by
  obtain ⟨ls, l, e, he, hsplit, hsettled, hlines⟩ := exists_settled o
  have hnew : Text.lines (o.settled.reverse ++ '\n' :: b) = ls ++ [l] ++ [b] := by
    rw [Text.lines_append, hsettled,
      Text.lines_of_notMem fun hmem => absurd (hb _ hmem) (by decide)]
  obtain ⟨hstarted, hline, hfull, hbacked, hkept⟩ := h
  rw [hsplit, inks_append, inks_spaces he, Bool.or_false] at hstarted
  rw [hlines, List.getLast?_concat] at hline hfull
  rw [hlines, List.dropLast_concat] at hkept
  refine ⟨fun hs => ?_, fun t ht => ?_, fun hf => absurd hf (by simp [next]), fun hb => ?_, ?_⟩
  · rw [inks_append, hstarted hs]
    rfl
  · rw [hnew, List.getLast?_concat]
    by_cases hk : (k.started && kind = .literal) = true
    · simp only [next, hk, if_true, Option.some.injEq] at ht
      rw [Bool.and_eq_true, decide_eq_true_eq] at hk
      rw [hliteral hk.2, ht]
    · simp [next, hk] at ht
  · rw [hnew, List.dropLast_concat]
    refine ⟨l, List.getLast?_concat, ?_⟩
    rintro rfl
    obtain ⟨m, hm, hinks⟩ := hfull (Bool.and_eq_true_iff.mp hb).1
    rw [← Option.some.inj hm, List.nil_append, inks_spaces he] at hinks
    exact absurd hinks (by decide)
  · rw [hnew, List.dropLast_concat, List.map_append, List.map_append]
    refine hkept.append ?_
    rw [ended]
    split
    · cases ht : k.line with
      | none => exact List.nil_sublist _
      | some t =>
        rw [Option.toList, ← Option.some.inj (hline t ht)]
        have hblank : Text.isBlank e = true :=
          Text.isBlank_iff.mpr fun c hc => isBlank_of_isSpace (he c hc)
        rw [List.map_singleton, List.map_singleton, Text.trimEnd_append_isBlank hblank]
    · exact List.nil_sublist _

/-- **A line break that is not known to end the line**: the lines before it stay. -/
theorem Tells.notEnded {v : Text} {kind : Line} (h : Tells k kept u)
    (hlines : (Text.lines v).dropLast = (Text.lines u).dropLast)
    (hinks : u.inks = true → v.inks = true)
    (hends : k.ends kind = false) (hliteral : (k.started && kind = .literal) = false)
    (hfull : (k.full && kind.isForced) = false) :
    Tells (k.next (.line kind)) (kept ++ k.ended (.line kind)) v where
  started hs := hinks (h.started hs)
  line t ht := absurd ht (by simp [next, hliteral])
  full hf := absurd hf (by simp [next])
  backed hb := absurd hb (by simp [next, hfull])
  kept := by
    rw [hlines, ended, hends, if_neg (by decide), List.append_nil]
    exact h.kept

/-- Nothing is known to be on the current line if it is blank. -/
theorem Tells.full_eq_false {ls : List Text} {b : Text} (h : Tells k kept u)
    (hu : Text.lines u = ls ++ [b]) (hb : ∀ c ∈ b, isSpace c = true) : k.full = false := by
  refine Bool.eq_false_iff.mpr fun hf => ?_
  obtain ⟨m, hm, hinks⟩ := h.full hf
  rw [hu, List.getLast?_concat] at hm
  rw [← Option.some.inj hm, inks_spaces hb] at hinks
  exact absurd hinks (by decide)

/-- At the start a line break prints nothing. -/
theorem Tells.newline_of_unsettled {o : Output} (h : Tells k kept o.chars.reverse)
    (hnil : o.settled = []) (kind : Line) :
    Tells (k.next (.line kind)) (kept ++ k.ended (.line kind)) [] := by
  obtain ⟨ls, l, b, hb, hsplit, hsettled, hlines⟩ := exists_settled o
  rw [hnil] at hsplit hsettled
  have hnone : Text.inks o.chars.reverse = false := by
    rw [hsplit]
    exact inks_spaces hb
  have hstarted : k.started = false :=
    Bool.eq_false_iff.mpr fun hs => absurd (h.started hs) (by simp [hnone])
  obtain ⟨rfl, hl⟩ := List.append_inj' (show [] ++ [[]] = ls ++ [l] from hsettled) rfl
  rw [← List.singleton_inj.mp hl, List.nil_append] at hlines
  have hfull := h.full_eq_false (hlines.trans (List.nil_append _).symm) hb
  have hbacked : k.backed = false := by
    refine Bool.eq_false_iff.mpr fun hs => ?_
    obtain ⟨m, hm, -⟩ := h.backed hs
    rw [hlines] at hm
    exact absurd hm (by simp)
  refine h.notEnded ?_ (fun hinks => absurd (hnone.symm.trans hinks) (by decide)) ?_
    (by simp [hstarted]) (by simp [hfull])
  · rw [hlines]
    rfl
  · cases kind <;> simp [ends, hstarted, hfull, hbacked]

/-- Behind two blank lines an ordinary break adds no line feed. -/
theorem Tells.newline_of_endsBlank {o : Output} {kind : Line} {b : Text}
    (h : Tells k kept o.chars.reverse) (hb : ∀ c ∈ b, isSpace c = true)
    (hend : Output.endsBlank o.settled = true) (hliteral : kind ≠ .literal)
    (hverbatim : kind ≠ .verbatim) :
    Tells (k.next (.line kind)) (kept ++ k.ended (.line kind)) (o.settled.reverse ++ b) := by
  obtain ⟨ls, l, e, he, hsplit, hsettled, hlines⟩ := exists_settled o
  obtain ⟨ms, hms⟩ := lines_of_endsBlank hend
  obtain ⟨rfl, hl⟩ := List.append_inj' (hsettled.symm.trans hms) rfl
  obtain rfl := List.singleton_inj.mp hl
  have hfull := h.full_eq_false hlines he
  have hbacked : k.backed = false := by
    refine Bool.eq_false_iff.mpr fun hs => ?_
    obtain ⟨m, hm, hne⟩ := h.backed hs
    rw [hlines, List.dropLast_concat, List.getLast?_concat] at hm
    exact hne (Option.some.inj hm).symm
  have hnew := Text.lines_append_of_notMem hsettled fun hmem => absurd (hb _ hmem) (by decide)
  refine h.notEnded ?_ (fun hinks => ?_) ?_ (by simp [hliteral]) (by simp [hfull])
  · rw [hnew, hlines, List.dropLast_concat, List.dropLast_concat]
  · rw [hsplit, inks_append, inks_spaces he, Bool.or_false] at hinks
    rw [inks_append, hinks]
    rfl
  · cases kind <;> simp_all [ends]

/-- **A new line.** No line feed is added at the start, and none behind two blank lines if the break
is an ordinary one. -/
theorem Tells.newline {o : Output} {kind : Line} (page : Page) (levels : Nat) (collapse : Bool)
    (h : Tells k kept o.chars.reverse) (hliteral : kind = .literal → levels = 0)
    (hcollapse : collapse = true → kind ≠ .literal ∧ kind ≠ .verbatim) :
    Tells (k.next (.line kind)) (kept ++ k.ended (.line kind))
      (o.newline page levels collapse).chars.reverse := by
  have hspaces : ∀ c ∈ (page.indentation levels).reverse, isSpace c = true :=
    fun c hc => isSpace_of_mem_indentation (List.mem_reverse.mp hc)
  by_cases hnil : o.settled = []
  · have hchars : (o.newline page levels collapse).chars = [] := by
      unfold Output.newline
      rw [show o.chars.dropWhile isSpace = [] from hnil]
    rw [hchars]
    exact h.newline_of_unsettled hnil kind
  · rw [newline_of_settled page levels collapse hnil]
    by_cases hend : (collapse && Output.endsBlank o.settled) = true
    · rw [if_pos hend, List.reverse_append]
      rw [Bool.and_eq_true] at hend
      obtain ⟨hne, hne'⟩ := hcollapse hend.1
      exact h.newline_of_endsBlank hspaces hend.2 hne hne'
    · rw [if_neg hend, List.reverse_append, List.reverse_cons, List.append_assoc]
      refine h.lineFeed hspaces fun hkind => ?_
      rw [hliteral hkind]
      simp [Page.indentation]

/-- **A line break keeps what is known true.** -/
theorem Tells.lineBreak {o : Output} (page : Page) (indent : Nat) (mode : Mode) (kind : Line)
    (h : Tells k kept o.chars.reverse) :
    Tells (k.next (.line kind)) (kept ++ k.ended (.line kind))
      (Render.lineBreak page indent mode kind o).chars.reverse := by
  unfold Render.lineBreak
  split
  · exact h.notEnded rfl id rfl (by simp) (by simp [Line.isForced])
  · obtain ⟨ls, l, hlines⟩ := exists_last o.chars.reverse
    have hnew := Text.lines_append_of_notMem hlines (t := [' ']) (by decide)
    rw [Output.write, List.reverse_append, List.reverse_reverse]
    refine h.notEnded ?_ (fun hinks => ?_) rfl (by simp) (by simp [Line.isForced])
    · rw [hnew, hlines, List.dropLast_concat, List.dropLast_concat]
    · rw [inks_append, hinks]
      rfl
  · exact h.newline page 0 false (fun _ => rfl) (by simp)
  · exact h.newline page indent false (by simp) (by simp)
  · rename_i hliteral hverbatim _ _
    exact h.newline page indent true (fun hkind => absurd hkind hliteral)
      fun _ => ⟨hliteral, hverbatim⟩

end Truth

end Known

open Known Render in
/-- **The known lines of a document are lines of the output**, in their order, up to white space at
their ends. -/
theorem Doc.sublist_lines_render (page : Page) {d : Doc}
    (htexts : ∀ t, .text t ∈ d.items → '\n' ∉ t) :
    ((Known.start.lines d.items).map Text.trimEnd).Sublist
      ((Text.lines (d.render page)).map Text.trimEnd) := by
  have hstack : stackItems [⟨0, .broken, d.propagate⟩] = d.items := by
    rw [stackItems, List.flatMap_singleton, items_propagate]
  have hrun : Tells (Known.start.after ([] ++ d.items)) (Known.start.lines ([] ++ d.items))
      (run page [⟨0, .broken, d.propagate⟩] ⟨[], 0⟩).chars.reverse := by
    rw [← hstack]
    refine run_items (P := fun is o => Tells (Known.start.after is) (Known.start.lines is)
      o.chars.reverse) page (fun {is o t} ht h => ?_) (fun {is o kind} indent mode h => ?_)
      tells_start
    · rw [hstack] at ht
      rw [lines_concat, after_append, Output.write, List.reverse_append, List.reverse_reverse]
      have hnext := h.write (htexts t ht)
      rwa [← List.append_nil (Known.start.lines is)] at hnext
    · rw [lines_concat, after_append]
      exact h.lineBreak page indent mode kind
  rw [List.nil_append] at hrun
  obtain ⟨ls, l, b, hb, -, hsettled, hlines⟩ :=
    exists_settled (run page [⟨0, .broken, d.propagate⟩] ⟨[], 0⟩)
  have hrender : Text.lines (d.render page) = ls ++ [l] := hsettled
  have hkept := hrun.kept
  rw [hlines, List.dropLast_concat] at hkept
  rw [hrender, List.map_append]
  exact hkept.trans (List.sublist_append_left _ _)

end TemplateFormat
