import TemplateFormat.Proofs.Format
import TemplateFormat.Proofs.Token.Rescan

/-!
# Formatting keeps the structure

What is printed for a template writes the strokes of the template (`Printer.writes_render`), and is
read back token by token (`Scan.moves_scanFrom`): so the output can be read, and its tree has the
shape of the template's tree. This holds of templates in which nothing is read otherwise where white
space is dropped. The formatter does not see to that itself: a brace at the end of a body comes next
to the closing action (`shape_lost`).

Results:
* `moves_layout`: the tokens of the output have the moves of the tokens of the template.
* `format_shape`: the output can be read, with the same shape.
* `format_again`: a second run succeeds, and changes white space only.
-/

namespace TemplateFormat

/-- No token of the template is read otherwise, and none is read where there was none, if white
space is dropped. -/
structure Scan.Steady (spacing : Bool) (s : Scan) : Prop where
  tokens : ∀ t ∈ s.tokens, t.kind.Steady spacing t.text
  leads : ∀ t ∈ s.tokens, Inert t.lead (t.text.take 1)
  tail : Inert s.tail []

instance (spacing : Bool) (s : Scan) : Decidable (s.Steady spacing) :=
  decidable_of_iff
    ((∀ t ∈ s.tokens, t.kind.Steady spacing t.text) ∧
      (∀ t ∈ s.tokens, Inert t.lead (t.text.take 1)) ∧ Inert s.tail [])
    ⟨fun h => ⟨h.1, h.2.1, h.2.2⟩, fun h => ⟨h.tokens, h.leads, h.tail⟩⟩

variable {settings : Settings} {source out : Text} {tree : Tree}

/-- The glyphs of a steady template are sound. -/
theorem sound_glyphs {spacing : Bool} (h : (scan source).Steady spacing) :
    ∀ g ∈ (scan source).tokens.flatMap Token.glyphs ++ Glyph.literal (scan source).tail,
      g.Sound spacing := by
  have hliteral (t : Text) : ∀ g ∈ Glyph.literal t, g.Sound spacing := by
    intro g hg
    obtain ⟨c, -, rfl⟩ := List.mem_map.mp hg
    trivial
  intro g hg
  rcases List.mem_append.mp hg with hg | hg
  · obtain ⟨t, ht, hg⟩ := List.mem_flatMap.mp hg
    rcases List.mem_append.mp hg with hg | hg
    · exact hliteral t.lead g hg
    · rw [List.mem_singleton.mp hg]
      exact ⟨reads_scan source t ht, h.tokens t ht⟩
  · exact hliteral _ g hg

/-- **The tokens of the output have the moves of the tokens of the template.** -/
theorem moves_layout {σ : Type} (h : parse source = .ok tree)
    (hsteady : (scan source).Steady settings.bracketSpacing) :
    (scan (layout (Markup.html (σ := σ)) settings tree)).tokens.map Token.move =
      (scan source).tokens.map Token.move := by
  have hplaced := parse_placed h
  obtain ⟨hglyphs, htail⟩ := parse_glyphs h
  have hwrites := Printer.writes_render
    (p := Printer.ofTree tree settings (Markup.html (σ := σ))) ⟨hplaced.stem_eq, rfl⟩ hplaced
    (by
      rw [Container.glyphs, Container.ofTree, hglyphs, htail]
      exact sound_glyphs hsteady) settings.toPage
  rw [Container.glyphs, Container.ofTree, hglyphs, htail] at hwrites
  exact Scan.moves_scanFrom (fun t ht => ⟨reads_scan source t ht, hsteady.leads t ht⟩) hsteady.tail
    hwrites 0 rfl

theorem eq_ok_of_toOption {ε α : Type} {x : Except ε α} {a : α} (h : x.toOption = some a) :
    x = .ok a := by
  cases x with
  | error e => exact absurd h (by simp [Except.toOption])
  | ok b => exact congrArg Except.ok (Option.some.inj h)

/-- A template that is formatted was read, and its tree was laid out. -/
theorem exists_parse_of_format (h : format settings source = .ok out) :
    ∃ tree, parse source = .ok tree ∧ out = layout (Markup.html (σ := Unit)) settings tree := by
  cases hp : parse source with
  | error e =>
    rw [format, run_formatWith_error settings hp] at h
    exact absurd h (by simp)
  | ok tree =>
    rw [format_of_parse settings hp] at h
    exact ⟨tree, rfl, (Except.ok.inj h).symm⟩

/-- **Formatting keeps the structure.** The output of a template in which nothing is read otherwise
where white space is dropped can be read, and has the same nesting of blocks by keyword, the same
chains and branches, and the same actions and raw regions in the same order. -/
theorem format_shape (h : format settings source = .ok out)
    (hsteady : (scan source).Steady settings.bracketSpacing) : ∃ tree tree',
      parse source = .ok tree ∧ parse out = .ok tree' ∧ tree'.shape = tree.shape := by
  obtain ⟨tree, hparse, rfl⟩ := exists_parse_of_format h
  obtain ⟨tree', hout, hshape⟩ := (shape_eq_iff hparse).mpr (moves_layout hparse hsteady)
  exact ⟨tree, tree', hparse, hout, hshape⟩

/-- A block in a chain, a raw region, and white space next to actions. -/
theorem format_shape_nested : ∃ tree tree',
    parse "<p>{{if a}}\n {{with b}}x {{end}}{{else}}{{c}}{{end}}<style>{{d}}</style>".toList =
        .ok tree ∧
      parse ("<p>{{ if a }}\n  {{ with b }}x {{ end }}\n{{ else }}\n  {{ c }}\n{{ end }}" ++
        "<style>{{d}}</style>\n").toList = .ok tree' ∧
      tree'.shape = tree.shape := by
  have h : format {}
      "<p>{{if a}}\n {{with b}}x {{end}}{{else}}{{c}}{{end}}<style>{{d}}</style>".toList =
        .ok ("<p>{{ if a }}\n  {{ with b }}x {{ end }}\n{{ else }}\n  {{ c }}\n{{ end }}" ++
          "<style>{{d}}</style>\n").toList := eq_ok_of_toOption (by decide +kernel)
  exact format_shape h (by decide +kernel)

/-- **The structure can be lost.** The white space between the brace and the closing action is
dropped, so the braces of the action come one character earlier, and no keyword is read in it: the
block of the output is not closed. -/
theorem shape_lost : ∃ out,
    format {} "{{ if x }}\n\x7b {{ end }}".toList = .ok out ∧ out = "{{ if x }}\x7b{{ end }}\n".toList ∧
      (∃ tree, parse "{{ if x }}\n\x7b {{ end }}".toList = .ok tree) ∧
        ∀ tree, parse out ≠ .ok tree := by
  have hformat : format {} "{{ if x }}\n\x7b {{ end }}".toList =
      .ok "{{ if x }}\x7b{{ end }}\n".toList := eq_ok_of_toOption (by decide +kernel)
  have hout : (parse "{{ if x }}\x7b{{ end }}\n".toList).toOption.isNone = true := by decide +kernel
  obtain ⟨tree, hparse, -⟩ := exists_parse_of_format hformat
  refine ⟨_, hformat, rfl, ⟨tree, hparse⟩, fun tree' hp => ?_⟩
  rw [hp] at hout
  exact absurd hout (by simp [Except.toOption])

/-! ## Formatting again -/

/-- **A second run succeeds, and changes white space only**, if nothing in the template is read
otherwise where white space is dropped. -/
theorem format_again (h : format settings source = .ok out)
    (hsteady : (scan source).Steady settings.bracketSpacing) :
    ∃ out', format settings out = .ok out' ∧ Text.solid out' = Text.solid out := by
  obtain ⟨tree, hparse, rfl⟩ := exists_parse_of_format h
  obtain ⟨tree', hout, -⟩ := (shape_eq_iff hparse).mpr (moves_layout hparse hsteady)
  exact ⟨_, format_of_parse settings hout, (prints_layout (σ := Unit) settings hout).2.1⟩

end TemplateFormat
