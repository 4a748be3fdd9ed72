import TemplateFormat.Doc.Render
import TemplateFormat.Proofs.Doc.Flat
import TemplateFormat.Proofs.Placeholder
import TemplateFormat.Proofs.Text.Solid

/-!
# Laying out changes white space only

The output of the renderer is compared with what the document prints on one line. Both are kept
with the latest character first, as the renderer keeps its output. `Follows a b` says that `b`
has the characters of `a` up to white space, and that no two of them stand side by side in `b`
that do not in `a`: a line break parts characters and never brings them together.

The renderer takes white space off the end of a line before a line break. This brings nothing
together, since a line feed comes next, the output was empty, or it ends with a blank line.

Results:
* `follows_newline`: a new line parts what stands before it from what comes.
* `follows_step`, `follows_run`: a step of the renderer, and so a run, keeps to the line of the
  stack.
* `solid_render`: without white space, the output is the line of the document.
* `free_render`: a stem that does not occur in the line of the document does not occur in the
  output.
-/

namespace TemplateFormat

namespace Render

/-- The text `b` has the characters of `a` up to white space, and its words are in `a`; a word at
the start of `b` is at the start of `a`. -/
structure Follows (a b : Text) : Prop where
  solid : Text.solid b = Text.solid a
  word : ∀ w, Text.IsSolid w → w <:+: b → w <:+: a
  edge : ∀ w, Text.IsSolid w → w <+: b → w <+: a

variable {a b : Text}

theorem follows_refl (a : Text) : Follows a a := ⟨rfl, fun _ _ h => h, fun _ _ h => h⟩

theorem Follows.cons (h : Follows a b) (c : Char) : Follows (c :: a) (c :: b) := by
  have hedge : ∀ w, Text.IsSolid w → w <+: c :: b → w <+: c :: a := by
    intro w hw hp
    rcases List.prefix_cons_iff.mp hp with rfl | ⟨v, rfl, hv⟩
    · exact List.nil_prefix
    · have := h.edge v (fun d hd => hw d (List.mem_cons_of_mem c hd)) hv
      exact List.cons_prefix_cons.mpr ⟨rfl, this⟩
  refine ⟨?_, fun w hw hi => ?_, hedge⟩
  · have := h.solid
    unfold Text.solid at this ⊢
    rw [List.filter_cons, List.filter_cons, this]
  · rcases List.infix_cons_iff.mp hi with hp | hi
    · exact (hedge w hw hp).isInfix
    · exact (h.word w hw hi).trans (List.suffix_cons c a).isInfix

theorem Follows.append (h : Follows a b) (t : Text) : Follows (t ++ a) (t ++ b) := by
  induction t with
  | nil => exact h
  | cons c t ih => exact ih.cons c

/-- No word starts where white space does. -/
theorem eq_nil_of_isPrefix {w t : Text} (hw : Text.IsSolid w) (ht : Text.StartsBlank t)
    (h : w <+: t) : w = [] := by
  cases w with
  | nil => rfl
  | cons c w =>
    obtain ⟨rest, rfl⟩ := h
    have hc := ht c rfl
    rw [hw c List.mem_cons_self] at hc
    exact absurd hc (by decide)

/-- White space that only the line has, where the output has some already. -/
theorem Follows.cons_blank (h : Follows a b) {c : Char} (hc : isBlank c = true)
    (hb : Text.StartsBlank b) : Follows (c :: a) b := by
  refine ⟨?_, fun w hw hi => ?_, fun w hw hp => ?_⟩
  · rw [Text.solid_cons_of_blank hc]
    exact h.solid
  · exact (h.word w hw hi).trans (List.suffix_cons c a).isInfix
  · rw [eq_nil_of_isPrefix hw hb hp]
    exact List.nil_prefix

/-- A word does not reach into white space before it. -/
theorem infix_of_blank_append {w x r : Text} (hw : Text.IsSolid w) (hx : Text.isBlank x = true)
    (h : w <:+: x ++ r) : w <:+: r := by
  induction x with
  | nil => exact h
  | cons c x ih =>
    rw [Text.isBlank_cons, Bool.and_eq_true] at hx
    rcases List.infix_cons_iff.mp h with hp | hi
    · rw [eq_nil_of_isPrefix hw (Text.startsBlank_cons hx.1 _) hp]
      exact List.nil_infix
    · exact ih hx.2 hi

/-- White space `s` at the start is replaced by other white space `x`. -/
theorem Follows.replace_blank {s r x : Text} (h : Follows a (s ++ r)) (hs : Text.isBlank s = true)
    (hx : Text.isBlank x = true) (hstart : Text.StartsBlank (x ++ r)) : Follows a (x ++ r) := by
  refine ⟨?_, fun w hw hi => ?_, fun w hw hp => ?_⟩
  · have := h.solid
    rw [Text.solid_append, Text.solid_of_isBlank hs] at this
    rw [Text.solid_append, Text.solid_of_isBlank hx, this]
  · have hr := infix_of_blank_append hw hx hi
    exact h.word w hw (hr.trans (List.suffix_append s r).isInfix)
  · rw [eq_nil_of_isPrefix hw hstart hp]
    exact List.nil_prefix

/-! ## Line breaks -/

theorem isBlank_indentation (page : Page) (levels : Nat) :
    Text.isBlank (page.indentation levels) = true := by
  rw [Text.isBlank_iff]
  intro c hc
  unfold Page.indentation at hc
  split at hc <;> rw [List.eq_of_mem_replicate hc] <;> decide

theorem isBlank_takeWhile_isSpace (t : Text) : Text.isBlank (t.takeWhile isSpace) = true :=
  Text.isBlank_iff.mpr fun _ hc => isBlank_of_isSpace (List.mem_takeWhile_imp hc)

theorem eq_newline_of_endsBlank {c : Char} {cs : Text} (h : Output.endsBlank (c :: cs) = true) :
    c = '\n' := by
  unfold Output.endsBlank at h
  split at h
  · rename_i heq
    exact (List.cons.inj heq).1
  · exact absurd h (by decide)

/-- **A new line parts** what stands before it from what comes. -/
theorem follows_newline {out : Output} (page : Page) (indent : Nat) (collapse : Bool)
    (h : Follows a out.chars) : Follows a (out.newline page indent collapse).chars ∧
      Text.StartsBlank (out.newline page indent collapse).chars := by
  have hs := isBlank_takeWhile_isSpace out.chars
  have hi := isBlank_indentation page indent
  rw [← List.takeWhile_append_dropWhile (p := isSpace) (l := out.chars)] at h
  unfold Output.newline
  split
  · rename_i hrest
    rw [hrest] at h
    have hstart : Text.StartsBlank ([] ++ []) := by simp [Text.StartsBlank]
    exact ⟨h.replace_blank hs rfl hstart, hstart⟩
  · rename_i c cs hrest
    rw [hrest] at h
    by_cases hend : (collapse && Output.endsBlank (c :: cs)) = true
    · -- no line feed is added: the output ends with one
      have hc : c = '\n' := by
        rw [Bool.and_eq_true] at hend
        exact eq_newline_of_endsBlank hend.2
      have hstart : Text.StartsBlank (page.indentation indent ++ c :: cs) := by
        rw [hc]
        exact Text.startsBlank_append (Text.startsBlank_of_isBlank hi)
          (Text.startsBlank_cons (by decide) cs)
      simp only [hend, if_true]
      exact ⟨h.replace_blank hs hi hstart, hstart⟩
    · have hx : Text.isBlank (page.indentation indent ++ ['\n']) = true := by
        rw [Text.isBlank_append, hi]
        rfl
      have hstart : Text.StartsBlank (page.indentation indent ++ ['\n'] ++ c :: cs) := by
        rw [List.append_assoc]
        exact Text.startsBlank_append (Text.startsBlank_of_isBlank hi)
          (Text.startsBlank_cons (by decide) (c :: cs))
      have hfollows := h.replace_blank hs hx hstart
      rw [List.append_assoc] at hstart hfollows
      simp only [hend]
      exact ⟨hfollows, hstart⟩

/-- A line break is white space in the output where it is in the line. -/
theorem follows_lineBreak {out : Output} (page : Page) (indent : Nat) (mode : Mode) (kind : Line)
    (h : Follows a out.chars) :
    Follows ((Item.line kind).flat.reverse ++ a) (lineBreak page indent mode kind out).chars := by
  have hbreak (levels : Nat) (collapse : Bool) :
      Follows ((Item.line kind).flat.reverse ++ a) (out.newline page levels collapse).chars := by
    obtain ⟨hnew, hstart⟩ := follows_newline page levels collapse h
    cases kind with
    | soft => exact hnew
    | normal => exact hnew.cons_blank (by decide) hstart
    | hard => exact hnew.cons_blank (by decide) hstart
    | verbatim => exact hnew.cons_blank (by decide) hstart
    | literal => exact hnew.cons_blank (by decide) hstart
  unfold lineBreak
  split
  · exact h
  · exact h.append [' ']
  · exact hbreak 0 false
  · exact hbreak indent false
  · exact hbreak indent true

/-! ## Runs -/

/-- The documents of a stack on one line. -/
def stackFlat (stack : List Command) : Text := stack.flatMap fun c => c.doc.flat

theorem stackFlat_commands (indent : Nat) (mode : Mode) (ds : List Doc) (rest : List Command) :
    stackFlat (commands indent mode ds ++ rest) = ds.flatMap Doc.flat ++ stackFlat rest := by
  rw [stackFlat, List.flatMap_append, commands, List.flatMap_map]
  rfl

/-- **A step prints the line of what it takes off the stack.** -/
theorem follows_step {out : Output} (page : Page) (c : Command) (rest : List Command)
    (h : Follows a out.chars) : ∃ printed,
      stackFlat (c :: rest) = printed ++ stackFlat (step page c rest out).1 ∧
        Follows (printed.reverse ++ a) (step page c rest out).2.chars := by
  obtain ⟨indent, mode, doc⟩ := c
  rw [stackFlat, List.flatMap_cons]
  show ∃ printed, doc.flat ++ stackFlat rest = _ ∧ _
  cases doc with
  | empty => exact ⟨[], by rw [Doc.flat_empty]; rfl, h⟩
  | text t => exact ⟨t, by rw [Doc.flat_text]; rfl, h.append t.reverse⟩
  | concat ds =>
    refine ⟨[], ?_, h⟩
    rw [Doc.flat_concat, step, stackFlat_commands]
    rfl
  | indent d =>
    refine ⟨[], ?_, h⟩
    rw [Doc.flat, Doc.items_indent]
    rfl
  | group d broken =>
    refine ⟨[], ?_, h⟩
    rw [Doc.flat_group]
    rfl
  | line kind =>
    refine ⟨(Item.line kind).flat, ?_, follows_lineBreak page indent mode kind h⟩
    rw [Doc.flat_line]
    rfl

/-- **A run prints the line of the stack**, by induction on its steps. -/
theorem follows_run (page : Page) (stack : List Command) (out : Output) (h : Follows a out.chars) :
    Follows ((stackFlat stack).reverse ++ a) (run page stack out).chars := by
  fun_induction run page stack out generalizing a with
  | case1 out => exact h
  | case2 out c rest next =>
    rename_i ih
    obtain ⟨printed, hflat, hstep⟩ := follows_step page c rest h
    rw [hflat, List.reverse_append, List.append_assoc]
    exact ih hstep

end Render

namespace Doc

open Render

/-- The output, the latest character first, follows the line of the document. -/
theorem follows_render (page : Page) (d : Doc) :
    Follows d.flat.reverse (run page [⟨0, .broken, d.propagate⟩] ⟨[], 0⟩).chars := by
  have h := follows_run page [⟨0, .broken, d.propagate⟩] ⟨[], 0⟩ (follows_refl [])
  rw [List.append_nil, stackFlat, List.flatMap_singleton, flat_propagate] at h
  exact h

/-- **Without white space, the output is the line of the document.** -/
theorem solid_render (page : Page) (d : Doc) : Text.solid (d.render page) = Text.solid d.flat := by
  have h := (follows_render page d).solid
  show Text.solid (List.reverse (List.dropWhile isSpace _)) = _
  generalize (run page [⟨0, .broken, d.propagate⟩] ⟨[], 0⟩).chars = chars at h ⊢
  rw [← List.takeWhile_append_dropWhile (p := isSpace) (l := chars), Text.solid_append,
    Text.solid_of_isBlank (isBlank_takeWhile_isSpace chars), List.nil_append] at h
  rw [Text.solid_reverse, h, ← Text.solid_reverse, List.reverse_reverse]

/-- **A stem that does not occur in the line of the document does not occur in the output.** -/
theorem free_render {source : Text} (page : Page) {d : Doc} (h : Placeholder.Free source d.flat) :
    Placeholder.Free source (d.render page) := by
  intro hstem
  have hsolid : Text.IsSolid (Placeholder.stem source).reverse := fun c hc =>
    Placeholder.isSolid_stem source c (List.mem_reverse.mp hc)
  have hchars : (Placeholder.stem source).reverse <:+:
      (run page [⟨0, .broken, d.propagate⟩] ⟨[], 0⟩).chars := by
    have hrev := List.reverse_infix.mpr hstem
    unfold render at hrev
    rw [List.reverse_reverse] at hrev
    exact hrev.trans (List.dropWhile_suffix isSpace).isInfix
  exact h (List.reverse_infix.mp ((follows_render page d).word _ hsolid hchars))

end Doc

end TemplateFormat
