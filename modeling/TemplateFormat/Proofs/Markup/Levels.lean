import TemplateFormat.Proofs.Doc.Render
import TemplateFormat.Proofs.Doc.Within
import TemplateFormat.Proofs.Markup.Layout

/-!
# Lines at their levels

The layout of markup is a sequence of lines, each a text behind a line break at an indentation of
its own. A line that is not blank ends with no white space, so the break after it starts a new line
and takes nothing off: each line is printed as it is, behind the indentation of its level.

Results:
* `Render.run_nestBy`: nesting adds to the indentation.
* `Render.run_lineDocs`: what the lines after the first print.
* `Doc.render_lineDocs`: what lines at their levels print.
-/

namespace TemplateFormat

namespace Doc

theorem propagate_nestBy {d : Doc} (h : d.propagate = d) (levels : Nat) :
    (nestBy levels d).propagate = nestBy levels d := by
  induction levels with
  | zero => exact h
  | succ levels ih =>
    rw [nestBy, nest]
    split
    · rw [propagate]
    · rw [propagate, ih]

theorem isEmpty_of_items_ne_nil {d : Doc} (h : d.items ≠ []) : d.isEmpty = false :=
  Bool.eq_false_iff.mpr fun he => h ((isEmpty_iff_items d).mp he)

end Doc

namespace Render

theorem run_nestBy (page : Page) {d : Doc} (hd : d.items ≠ []) (levels indent : Nat) (mode : Mode)
    (rest : List Command) (o : Output) : run page (⟨indent, mode, d.nestBy levels⟩ :: rest) o =
      run page (⟨indent + levels, mode, d⟩ :: rest) o := by
  induction levels generalizing indent with
  | zero => rfl
  | succ levels ih =>
    have hsome : (d.nestBy levels).isEmpty = false :=
      Doc.isEmpty_of_items_ne_nil (by rwa [Doc.items_nestBy])
    rw [Doc.nestBy, Doc.nest, if_neg (by simp [hsome]), run_cons]
    exact (ih (indent + 1)).trans (by rw [Nat.add_assoc, Nat.add_comm 1])

/-- The latest character is not white space. -/
def Inked (cs : Text) : Prop := ∃ c rest, cs = c :: rest ∧ isBlank c = false

theorem Inked.append {s : Text} (h : Inked s) (cs : Text) : Inked (s ++ cs) := by
  obtain ⟨c, rest, rfl, hc⟩ := h
  exact ⟨c, rest ++ cs, rfl, hc⟩

theorem Inked.ne_nil {t : Text} (h : Inked t.reverse) : t ≠ [] := by
  rintro rfl
  obtain ⟨c, rest, hnil, -⟩ := h
  exact absurd hnil (by simp)

/-- A line break after a line that is not blank is never left out. -/
theorem newline_of_inked (page : Page) (levels : Nat) {o : Output} (h : Inked o.chars) :
    (o.newline page levels true).chars = page.indentation levels ++ '\n' :: o.chars := by
  obtain ⟨c, cs, hchars, hc⟩ := h
  have hsettled : o.settled = o.chars := by
    rw [Output.settled, hchars]
    exact List.dropWhile_cons_of_neg (by simp [isSpace_eq_false hc])
  have hfull : Output.endsBlank o.chars = false := by
    refine Bool.eq_false_iff.mpr fun hb => ?_
    rw [hchars] at hb
    rw [eq_newline_of_endsBlank hb] at hc
    exact absurd hc (by decide)
  rw [newline_of_settled page levels true (by rw [hsettled, hchars]; exact List.cons_ne_nil _ _),
    hsettled, hfull]
  rfl

open Markup.Layout (lineDoc)

theorem run_lineDoc (page : Page) (level : Nat) {t : Text} (ht : t ≠ []) (rest : List Command)
    (o : Output) : run page (⟨0, .broken, lineDoc level t⟩ :: rest) o =
      run page rest ((o.newline page level true).write t) := by
  have hitems : (Doc.join [.hardline, .ofText t]).items ≠ [] := by
    simp [Doc.hardline]
  have hparts : ([Doc.hardline, .ofText t].filter fun d => !d.isEmpty) = [.hardline, .text t] := by
    simp [Doc.ofText, Doc.hardline, Doc.isEmpty, ht]
  rw [lineDoc, run_nestBy page hitems, Nat.zero_add, run_join, hparts]
  show run page (⟨level, .broken, .hardline⟩ :: ⟨level, .broken, .text t⟩ :: rest) o = _
  rw [run_cons]
  exact run_cons page _ _ _

/-- **Lines at their levels**, by induction on the lines. -/
theorem run_lineDocs (page : Page) (rest : List Command) {ps : List (Nat × Text)}
    (hps : ∀ p ∈ ps, Inked p.2.reverse) {o : Output}
    (ho : Inked o.chars) : ∃ o',
      run page (commands 0 .broken (ps.map fun p => lineDoc p.1 p.2) ++ rest) o = run page rest o' ∧
        o'.chars = (ps.flatMap fun p => '\n' :: (page.indentation p.1 ++ p.2)).reverse ++ o.chars ∧
          Inked o'.chars := by
  induction ps generalizing o with
  | nil => exact ⟨o, rfl, rfl, ho⟩
  | cons p ps ih =>
    have hp := hps p List.mem_cons_self
    obtain ⟨o', hrun, hchars, hinked⟩ := ih (fun q hq => hps q (List.mem_cons_of_mem p hq))
      (o := (o.newline page p.1 true).write p.2) (hp.append _)
    refine ⟨o', ?_, ?_, hinked⟩
    · rw [← hrun]
      exact run_lineDoc page p.1 hp.ne_nil _ o
    · rw [hchars]
      show _ ++ (p.2.reverse ++ (o.newline page p.1 true).chars) = _
      rw [newline_of_inked page p.1 ho]
      simp [indentation_reverse]

end Render

namespace Doc

open Render
open Markup.Layout (lineDoc)

theorem propagate_lineDoc (level : Nat) (t : Text) : (lineDoc level t).propagate = lineDoc level t := by
  refine propagate_nestBy (propagate_join fun d hd => ?_) level
  rcases List.mem_cons.mp hd with rfl | hd
  · rw [hardline, propagate]
  · rw [List.mem_singleton.mp hd]
    exact propagate_ofText t

theorem isEmpty_lineDoc (level : Nat) (t : Text) : (lineDoc level t).isEmpty = false :=
  isEmpty_of_items_ne_nil (by rw [Markup.Layout.items_lineDoc]; exact List.cons_ne_nil _ _)

/-- A line, further lines at their levels, and a line break. -/
def lineDocs (t : Text) (ps : List (Nat × Text)) : List Doc :=
  ofText t :: ((ps.map fun p => lineDoc p.1 p.2) ++ [hardline])

theorem forall_mem_lineDocs {P : Doc → Prop} {t : Text} {ps : List (Nat × Text)} (htext : P (ofText t))
    (hline : ∀ level t, P (lineDoc level t)) (hbreak : P hardline) : ∀ d ∈ lineDocs t ps, P d := by
  intro d hd
  rcases List.mem_cons.mp hd with rfl | hd
  · exact htext
  · rcases List.mem_append.mp hd with hd | hd
    · obtain ⟨p, -, rfl⟩ := List.mem_map.mp hd
      exact hline p.1 p.2
    · rw [List.mem_singleton.mp hd]
      exact hbreak

/-- **What lines at their levels print**: the first without indentation, and a line feed at the end.
-/
theorem render_lineDocs (page : Page) {t : Text} (ht : Inked t.reverse) {ps : List (Nat × Text)}
    (hps : ∀ p ∈ ps, Inked p.2.reverse) :
    (join (lineDocs t ps)).render page =
      t ++ ((ps.flatMap fun p => '\n' :: (page.indentation p.1 ++ p.2)) ++ ['\n']) := by
  have htext : ofText t = text t := if_neg (by simpa using ht.ne_nil)
  have hplain : (join (lineDocs t ps)).propagate = join (lineDocs t ps) :=
    propagate_join (forall_mem_lineDocs (propagate_ofText t) propagate_lineDoc
      (by rw [hardline, propagate]))
  have hall : (lineDocs t ps).filter (fun d => !d.isEmpty) = lineDocs t ps :=
    List.filter_eq_self.mpr (forall_mem_lineDocs (by simp [htext, isEmpty, ht.ne_nil])
      (fun level t => by rw [isEmpty_lineDoc]; rfl) rfl)
  obtain ⟨o, hrun, hchars, hinked⟩ := run_lineDocs page [⟨0, .broken, hardline⟩] hps
    (o := (⟨[], 0⟩ : Output).write t) (ht.append [])
  have hwhole : run page [⟨0, .broken, (join (lineDocs t ps)).propagate⟩] ⟨[], 0⟩ =
      o.newline page 0 true := by
    have hcommands : commands 0 .broken (lineDocs t ps) = ⟨0, .broken, text t⟩ ::
        (commands 0 .broken (ps.map fun p => lineDoc p.1 p.2) ++ [⟨0, .broken, hardline⟩]) := by
      simp [commands, lineDocs, htext]
    rw [hplain, run_join, hall, List.append_nil, hcommands]
    refine (run_cons page _ _ _).trans (hrun.trans ?_)
    rw [run_cons]
    show run page [] (o.newline page 0 true) = _
    rw [run]
  have hout : (o.newline page 0 true).chars = '\n' :: o.chars := by
    rw [newline_of_inked page 0 hinked]
    simp [Page.indentation]
  rw [render]
  simp only [hwhole, hout, hchars]
  rw [List.dropWhile_cons_of_neg (by decide)]
  simp [Output.write]

end Doc

end TemplateFormat
