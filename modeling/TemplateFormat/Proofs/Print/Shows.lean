import TemplateFormat.Print.Action
import TemplateFormat.Print.Verbatim
import TemplateFormat.Proofs.Doc.Flat
import TemplateFormat.Proofs.Placeholder
import TemplateFormat.Proofs.Token.Cover

/-!
# Printed text

A document `Shows` a text if on one line it has the characters of the text up to white space, and
the stem of placeholders does not occur in it. This holds of the documents of single tokens:
source text that is kept as it stands, and actions with their statements set in new spaces and
lines.

Results:
* `shows_verbatim`, `shows_keptText`: kept source text.
* `Action.ofInner_spec`: what stands between the braces of an action is its marks and its
  statement, with white space between them.
* `shows_action`: a printed action.
-/

namespace TemplateFormat

open Placeholder

/-- The document has the characters of the text up to white space, and not the stem. -/
structure Shows (source : Text) (d : Doc) (t : Text) : Prop where
  solid : Text.solid d.flat = Text.solid t
  free : Free source d.flat

variable {source : Text}

theorem Shows.of_flat_eq {d d' : Doc} {t : Text} (h : Shows source d t) (he : d'.flat = d.flat) :
    Shows source d' t :=
  ⟨he ▸ h.solid, he ▸ h.free⟩

theorem Shows.group {d : Doc} {t : Text} (h : Shows source d t) (broken : Bool) :
    Shows source (.group d broken) t :=
  h.of_flat_eq (Doc.flat_group d broken)

/-! ## Lines -/

/-- Lines, each after a space. -/
def spaced (ls : List Text) : Text := ls.flatMap (' ' :: ·)

theorem solid_spaced (ls : List Text) : Text.solid (spaced ls) = (ls.map Text.solid).flatten := by
  induction ls with
  | nil => rfl
  | cons l ls ih =>
    rw [spaced, List.flatMap_cons, List.cons_append, Text.solid_cons_of_blank (by decide),
      Text.solid_append, List.map_cons, List.flatten_cons, ← ih]
    rfl

theorem startsClear_spaced (ls : List Text) : StartsClear (spaced ls) := by
  cases ls with
  | nil => simp [spaced, StartsClear]
  | cons l ls =>
    intro c hc
    obtain rfl := Option.some.inj hc
    decide

theorem free_spaced : ∀ {ls : List Text}, (∀ l ∈ ls, Free source l) → Free source (spaced ls)
  | [], _ => free_nil
  | l :: ls, h => by
    have hl := h l List.mem_cons_self
    have hls := free_spaced fun m hm => h m (List.mem_cons_of_mem l hm)
    exact free_cons (by decide) (free_append hl hls (Or.inr (startsClear_spaced ls)))

/-! ## Source text as it stands -/

theorem dedent_suffix (width : Nat) (t : Text) : dedent width t <:+ t := by
  fun_induction dedent width t with
  | case1 width c t hc ih => exact ih.trans (List.suffix_cons c t)
  | case2 width c t hc => exact List.suffix_rfl
  | case3 => exact List.suffix_rfl

theorem solid_dedent (width : Nat) (t : Text) : Text.solid (dedent width t) = Text.solid t := by
  fun_induction dedent width t with
  | case1 width c t hc ih => rw [ih, Text.solid_cons_of_blank (isBlank_of_isSpace hc)]
  | case2 width c t hc => rfl
  | case3 => rfl

theorem flat_verbatim (before : Text) {text first : Text} {rest : List Text}
    (h : Text.lines text = first :: rest) : ∃ width, (verbatim before text).flat =
      Text.trimEnd first ++ spaced (rest.map fun line => dedent width (Text.trimEnd line)) := by
  refine ⟨((Text.lastLine before).takeWhile isSpace).length, ?_⟩
  unfold verbatim
  simp only [h]
  rw [Doc.flat_join, List.flatMap_cons, Doc.flat_ofText, spaced, List.flatMap_map,
    List.flatMap_assoc]
  congr 2
  funext line
  simp [Doc.flat_line, Item.flat]

/-- **Source text that is kept** has its lines, up to white space. -/
theorem shows_verbatim (before : Text) {text : Text} (h : Free source text) :
    Shows source (verbatim before text) text := by
  obtain ⟨first, rest, hlines⟩ := List.exists_cons_of_ne_nil (Text.lines_ne_nil text)
  obtain ⟨width, hflat⟩ := flat_verbatim before hlines
  have hfree : ∀ l ∈ Text.lines text, Free source l :=
    fun l hl => h.of_isInfix (Text.line_isInfix hl)
  rw [hlines] at hfree
  refine ⟨?_, ?_⟩
  · rw [hflat, Text.solid_append, Text.solid_trimEnd, solid_spaced, List.map_map,
      ← Text.solid_lines text, hlines, List.map_cons, List.flatten_cons]
    congr 3
    funext line
    exact (solid_dedent width _).trans (Text.solid_trimEnd line)
  · rw [hflat]
    refine free_append ?_ (free_spaced fun l hl => ?_) (Or.inr (startsClear_spaced _))
    · exact (hfree first List.mem_cons_self).of_isInfix (Text.trimEnd_isInfix first)
    · obtain ⟨line, hline, rfl⟩ := List.mem_map.mp hl
      exact (hfree line (List.mem_cons_of_mem first hline)).of_isInfix
        ((dedent_suffix width _).isInfix.trans (Text.trimEnd_isInfix line))

@[simp] theorem flat_keptBlankLine (after : Text) : (keptBlankLine after).flat = [] := by
  unfold keptBlankLine
  split <;> simp

/-- A line break that keeps a blank line shows nothing. -/
theorem Shows.join_keptBlankLine {d : Doc} {t : Text} (h : Shows source d t) (after : Text) :
    Shows source (.join [d, keptBlankLine after]) t := by
  refine h.of_flat_eq ?_
  rw [Doc.flat_join, List.flatMap_cons, List.flatMap_singleton, flat_keptBlankLine, List.append_nil]

/-- A line break at the end shows nothing. -/
theorem Shows.join_hardline {d : Doc} {t : Text} (h : Shows source d t) :
    Shows source (.join [d, .hardline]) t := by
  have hflat : (Doc.join [d, .hardline]).flat = [] ++ (d.flat ++ [' ']) := by simp
  refine ⟨?_, ?_⟩
  · rw [hflat, List.nil_append, Text.solid_append, h.solid]
    exact List.append_nil _
  · rw [hflat]
    exact free_between_blank rfl rfl h.free

theorem shows_keptText (before after : Text) {text : Text} (h : Free source text) :
    Shows source (keptText before text after) text :=
  (shows_verbatim before h).join_keptBlankLine after

/-! ## Statements -/

/-- Leaving out an empty line at the end loses no character. -/
theorem solid_dropLast (ls : List Text) : ((if ls.getLast? = some [] then ls.dropLast else ls).map
    Text.solid).flatten = (ls.map Text.solid).flatten := by
  by_cases h : ls.getLast? = some []
  · conv_rhs => rw [← List.dropLast_append_getLast? [] h]
    rw [if_pos h, List.map_append, List.flatten_append, List.map_singleton,
      List.flatten_singleton, Text.solid_nil, List.append_nil]
  · rw [if_neg h]

theorem mem_of_mem_dropLast {l : Text} {ls : List Text}
    (h : l ∈ if ls.getLast? = some [] then ls.dropLast else ls) : l ∈ ls := by
  split at h
  · exact List.mem_of_mem_dropLast h
  · exact h

/-- Changing lines only in their white space loses no character. -/
theorem solid_map {trim : Text → Text} (h : ∀ l, Text.solid (trim l) = Text.solid l)
    (ls : List Text) : ((ls.map trim).map Text.solid).flatten = (ls.map Text.solid).flatten := by
  rw [List.map_map]
  congr 2
  funext l
  exact h l

theorem solid_statementLines (statement : Text) :
    ((statementLines statement).map Text.solid).flatten = Text.solid statement := by
  rw [statementLines, solid_map Text.solid_trim, solid_dropLast, Text.solid_lines]

theorem free_statementLines {statement : Text} (h : Free source statement) :
    ∀ l ∈ statementLines statement, Free source l := by
  intro l hl
  obtain ⟨line, hline, rfl⟩ := List.mem_map.mp hl
  exact (h.of_isInfix (Text.line_isInfix (mem_of_mem_dropLast hline))).of_isInfix
    (Text.trim_isInfix line)

/-- **A printed statement** has its lines, up to white space. -/
theorem shows_statementDoc (padStart padEnd : Bool) {statement : Text} (h : Free source statement) :
    Shows source (statementDoc statement padStart padEnd) statement := by
  have hsolid := solid_statementLines statement
  have hfree := free_statementLines h
  unfold statementDoc
  split
  · rename_i hlines
    rw [hlines] at hsolid
    exact ⟨by rw [Doc.flat_empty]; exact hsolid, by rw [Doc.flat_empty]; exact free_nil⟩
  · rename_i line hlines
    rw [hlines, List.map_singleton, List.flatten_singleton] at hsolid
    have hline := hfree line (hlines ▸ List.mem_singleton_self line)
    have hpad (b : Bool) : Text.isBlank (if b then [' '] else []) = true := by
      cases b <;> rfl
    have hflat : (Doc.join [.ofText (if padStart then [' '] else []), .ofText line,
        .ofText (if padEnd then [' '] else [])]).flat =
          (if padStart then [' '] else []) ++ (line ++ if padEnd then [' '] else []) := by
      simp
    refine ⟨?_, hflat ▸ free_between_blank (hpad padStart) (hpad padEnd) hline⟩
    rw [hflat, ← hsolid, Text.solid_append, Text.solid_append,
      Text.solid_of_isBlank (hpad padStart), Text.solid_of_isBlank (hpad padEnd), List.nil_append,
      List.append_nil]
  · rename_i first rest _ hlines
    rw [hlines, List.map_cons, List.flatten_cons] at hsolid
    rw [hlines] at hfree
    have hrest := free_spaced fun l hl => hfree l (List.mem_cons_of_mem first hl)
    have hflat : (Doc.join (.ofText first :: rest.map (fun line =>
        .nest (.join [.hardline, .ofText line])) ++ [.hardline])).flat =
          [] ++ ((first ++ spaced rest) ++ [' ']) := by
      simp [spaced, List.flatMap_map]
    have hbody : Free source (first ++ spaced rest) :=
      free_append (hfree first List.mem_cons_self) hrest (Or.inr (startsClear_spaced rest))
    refine ⟨?_, hflat ▸ free_between_blank rfl rfl hbody⟩
    rw [hflat, List.nil_append, Text.solid_append, Text.solid_append, solid_spaced, hsolid]
    exact List.append_nil _

/-! ## Actions -/

namespace Delimiter

theorem takeOpening_spec (t : Text) : t = (takeOpening t).1.opening ++ (takeOpening t).2 := by
  unfold takeOpening
  cases h : marks.findSome? fun d => (Text.dropStart? d.opening t).map (d, ·) with
  | none => rfl
  | some p =>
    obtain ⟨d, -, hd⟩ := List.exists_of_findSome?_eq_some h
    obtain ⟨rest, hrest, rfl⟩ := Option.map_eq_some_iff.mp hd
    exact Text.dropStart?_eq_some.mp hrest

theorem takeClosing_spec (t : Text) : t = (takeClosing t).2 ++ (takeClosing t).1.closing := by
  unfold takeClosing
  cases h : marks.findSome? fun d => (Text.dropEnding? d.closing t).map (d, ·) with
  | none => exact (List.append_nil t).symm
  | some p =>
    obtain ⟨d, -, hd⟩ := List.exists_of_findSome?_eq_some h
    obtain ⟨rest, hrest, rfl⟩ := Option.map_eq_some_iff.mp hd
    exact Text.dropEnding?_eq_some.mp hrest

theorem clear_opening (d : Delimiter) : ∀ c ∈ openBraces ++ d.opening, c ∉ letters := by
  cases d <;> simp [openBraces, opening, letters]

theorem clear_closing (d : Delimiter) : ∀ c ∈ d.closing ++ closeBraces, c ∉ letters := by
  cases d <;> simp [closeBraces, closing, letters]

end Delimiter

/-- **What stands between the braces** is the marks and the statement, with white space between. -/
theorem Action.ofInner_spec (inner : Text) : ∃ b b',
    Text.isBlank b = true ∧ Text.isBlank b' = true ∧ inner = (ofInner inner).opening.opening ++
      (b ++ ((ofInner inner).statement ++ (b' ++ (ofInner inner).closing.closing))) := by
  have hopen := Delimiter.takeOpening_spec inner
  obtain ⟨b, hb, hstart⟩ := Text.eq_append_trimStart (Delimiter.takeOpening inner).2
  have hclose := Delimiter.takeClosing_spec (Text.trimStart (Delimiter.takeOpening inner).2)
  obtain ⟨b', hb', hend⟩ := Text.eq_append_trimEnd
    (Delimiter.takeClosing (Text.trimStart (Delimiter.takeOpening inner).2)).2
  refine ⟨b, b', hb, hb', ?_⟩
  rw [hend, List.append_assoc] at hclose
  rw [hclose] at hstart
  rw [hstart] at hopen
  exact hopen

/-- **A printed action** has its marks and its statement, up to white space. -/
theorem shows_action {text : Text} {act : Action} (h : IsAction text act) (hfree : Free source text)
    (spacing : Bool) : Shows source (act.doc spacing) text := by
  obtain ⟨inner, rfl, rfl⟩ := h
  obtain ⟨b, b', hb, hb', hinner⟩ := Action.ofInner_spec inner
  generalize Action.ofInner inner = act at hinner
  have hstatement : act.statement <:+: openBraces ++ inner ++ closeBraces := by
    rw [hinner]
    exact ⟨openBraces ++ act.opening.opening ++ b, b' ++ act.closing.closing ++ closeBraces,
      by simp only [List.append_assoc]⟩
  have hshows := shows_statementDoc (spacing || act.opening == .trim)
    (spacing || act.closing == .trim) (hfree.of_isInfix hstatement)
  have hflat : (act.doc spacing).flat = (openBraces ++ act.opening.opening) ++
      ((statementDoc act.statement (spacing || act.opening == .trim)
        (spacing || act.closing == .trim)).flat ++ (act.closing.closing ++ closeBraces)) := by
    simp [Action.doc]
  refine ⟨?_, ?_⟩
  · rw [hflat, hinner]
    simp only [Text.solid_append, hshows.solid, Text.solid_of_isBlank hb, Text.solid_of_isBlank hb',
      List.nil_append, List.append_assoc]
  · rw [hflat]
    exact free_between act.opening.clear_opening act.closing.clear_closing hshows.free

end TemplateFormat
