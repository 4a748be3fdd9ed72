import TemplateFormat.Format
import TemplateFormat.Proofs.Doc.Render
import TemplateFormat.Proofs.Print.Node

/-!
# Formatting changes white space only, and fails only where reading does

A template that can be read is printed without a failure (`Printer.printed_tree`), its document
has the characters of the template up to white space, and laying the document out adds and drops
white space only. The stem of placeholders is in neither, so the last check of the output never
fails.

Results:
* `prints_layout`, `format_of_parse`: a template that can be read is formatted.
* `format_solid`: without white space, the output is the template.
* `format_eq_parse`: formatting succeeds exactly where reading does, with the error of reading
  otherwise, and no node is kept as written because of a failure.
-/

namespace TemplateFormat

open Placeholder PrintM

theorem Text.isInfix_of_contains {pattern t : Text} (h : Text.contains pattern t = true) :
    pattern <:+: t :=
  contains_iff.mp h

variable {σ : Type} {source : Text} {tree : Tree}

/-- What is printed for a template, laid out. -/
def layout (formatter : MarkupFormatter σ) (settings : Settings) (tree : Tree) : Text :=
  ((Printer.ofTree tree settings formatter).treeDoc tree).render settings.toPage

/-- **Printing a template that can be read succeeds**, and no placeholder is left. -/
theorem prints_layout (settings : Settings) (h : parse source = .ok tree) :
    Prints (formatWith (Markup.html (σ := σ)) settings source)
        (layout (Markup.html (σ := σ)) settings tree) ∧
      Text.solid (layout (Markup.html (σ := σ)) settings tree) = Text.solid source ∧
        Free source (layout (Markup.html (σ := σ)) settings tree) := by
  have hplaced := parse_placed h
  obtain ⟨hprints, hshows⟩ := Printer.printed_tree
    (p := Printer.ofTree tree settings (Markup.html (σ := σ))) ⟨hplaced.stem_eq, rfl⟩ hplaced
  have hfree : Free source (layout (Markup.html (σ := σ)) settings tree) :=
    Doc.free_render _ hshows.free
  refine ⟨?_, ?_, hfree⟩
  · unfold formatWith
    rw [h]
    refine hprints.bind ?_
    have hcheck : ¬ Text.contains tree.stem (layout (Markup.html (σ := σ)) settings tree) = true := by
      rw [hplaced.stem_eq]
      exact fun hc => hfree (Text.isInfix_of_contains hc)
    unfold layout at hcheck
    simp only [hcheck]
    exact prints_pure _
  · rw [layout, Doc.solid_render, hshows.solid]

/-- **A template that can be read is formatted**: printing succeeds, and no placeholder is left. -/
theorem prints_formatWith (settings : Settings) (h : parse source = .ok tree) : ∃ out,
    Prints (σ := σ) (formatWith Markup.html settings source) out ∧
      Text.solid out = Text.solid source ∧ Free source out :=
  ⟨_, prints_layout settings h⟩

/-- What a template that can be read is formatted to. -/
theorem format_of_parse (settings : Settings) (h : parse source = .ok tree) :
    format settings source = .ok (layout (Markup.html (σ := Unit)) settings tree) := by
  obtain ⟨visits, hrun, -⟩ := (prints_layout settings h).1 { markup := () }
  rw [format, hrun]

/-- A template that cannot be read is not formatted, and nothing is printed. -/
theorem run_formatWith_error (settings : Settings) {e : FormatError} (h : parse source = .error e)
    (session : Session σ) :
    (formatWith Markup.html settings source).run.run session = (.error e, session) := by
  unfold formatWith
  rw [h]
  rfl

/-- **Formatting changes white space only.** -/
theorem format_solid {settings : Settings} {source out : Text}
    (h : format settings source = .ok out) : Text.solid out = Text.solid source := by
  unfold format at h
  cases hp : parse source with
  | error e =>
    rw [run_formatWith_error settings hp] at h
    exact absurd h (by simp)
  | ok tree =>
    obtain ⟨out', hprints, hsolid, -⟩ := prints_formatWith settings hp
    obtain ⟨visits, hrun, -⟩ := hprints { markup := () }
    rw [hrun] at h
    obtain rfl : out' = out := Except.ok.inj h
    exact hsolid

/-- Markup, an action and a block with two branches: white space is added and the line moved. -/
theorem format_solid_branches : ∃ out,
    format {} "<p>{{a}}\n {{if b}}x {{else}}y{{end}}</p>".toList = .ok out ∧
      out = "<p>{{ a }}\n  {{ if b }}x {{ else }}y{{ end }}</p>\n".toList ∧
      Text.solid out = Text.solid "<p>{{a}}\n {{if b}}x {{else}}y{{end}}</p>".toList := by
  have hok : (format {} "<p>{{a}}\n {{if b}}x {{else}}y{{end}}</p>".toList).toOption =
      some "<p>{{ a }}\n  {{ if b }}x {{ else }}y{{ end }}</p>\n".toList := by decide +kernel
  cases h : format {} "<p>{{a}}\n {{if b}}x {{else}}y{{end}}</p>".toList with
  | error e =>
    rw [h] at hok
    exact absurd hok (by simp [Except.toOption])
  | ok out =>
    rw [h] at hok
    exact ⟨out, rfl, Option.some.inj hok, format_solid h⟩

/-- **Formatting fails only where reading does.** It succeeds exactly for the templates that can
be read and fails with the error of reading for all others. Whether failures are contained or
not, no node is kept as written because of one: no placeholder is lost or doubled in any
container, and none is left in the output. -/
theorem format_eq_parse (settings : Settings) (source : Text) :
    ((∃ out, format settings source = .ok out) ↔ ∃ tree, parse source = .ok tree) ∧
      (∀ e, parse source = .error e → format settings source = .error e) ∧
      (∀ out, format settings source = .ok out → Text.contains (stem source) out = false) ∧
      ∀ v ∈ ((formatWith Markup.html settings source).run.run { markup := () }).2.visits,
        v.failure = none := by
  unfold format
  cases hp : parse source with
  | error e =>
    rw [run_formatWith_error settings hp]
    refine ⟨⟨by simp, by simp⟩, fun e' he => ?_, by simp, by simp⟩
    rw [Except.error.inj he]
  | ok tree =>
    obtain ⟨out, hprints, -, hfree⟩ := prints_formatWith settings hp
    obtain ⟨visits, hrun, hvisits⟩ := hprints { markup := () }
    rw [hrun]
    refine ⟨⟨fun _ => ⟨tree, rfl⟩, fun _ => ⟨out, rfl⟩⟩, by simp, fun out' hout => ?_, ?_⟩
    · obtain rfl : out = out' := Except.ok.inj hout
      rw [Bool.eq_false_iff]
      exact fun hc => hfree (Text.isInfix_of_contains hc)
    · intro v hv
      rw [List.append_nil] at hv
      exact hvisits v hv

end TemplateFormat
