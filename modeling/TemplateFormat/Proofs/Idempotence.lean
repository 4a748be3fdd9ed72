import TemplateFormat.Proofs.Print.Alike
import TemplateFormat.Proofs.Print.Regular
import TemplateFormat.Proofs.Structure
import TemplateFormat.Proofs.Tree.Clear

/-!
# Formatting again

The output of a template is read back as nodes that echo the nodes of the template: its actions are
printed the same, its containers have the same rows. So a second run prints what the first one
printed. This holds of templates that keep their structure, if nothing in them is kept as written:
no raw region, no pragma and no preformatted element.

Results:
* `Placeholder.stem_congr`: texts with the same patterns have the same stem.
* `exists_reread`: what the output of a template is read back as.
* `Reread.unplaced_eq`: the output is read as that, up to places.
* `format_idem`: a second run changes nothing.
* `format_pre_grows`: in preformatted text, it does.
-/

namespace TemplateFormat

open Placeholder (stem)

/-! ## Stems and pragmas -/

theorem Pragma.pattern_word : Pattern word := by
  refine ⟨by decide, fun c hc => ?_, by decide, by decide, fun c hc => ?_, fun c hc => ?_⟩
  · have hall : word.all (fun c => !isBlank c) = true := by decide
    simpa using List.all_eq_true.mp hall c hc
  · have hhead : word.head? = some 'p' := by decide
    obtain rfl := Option.some.inj (hhead.symm.trans hc)
    decide
  · have hlast : word.getLast? = some 'e' := by decide
    obtain rfl := Option.some.inj (hlast.symm.trans hc)
    decide

namespace Placeholder

theorem pattern_base (k : Nat) : Pattern (base ++ List.replicate k 'x') := by
  have hmem : ∀ c ∈ base ++ List.replicate k 'x', c ∈ letters := by
    intro c hc
    rcases List.mem_append.mp hc with hc | hc
    · exact List.mem_append_left ['x'] hc
    · rw [List.eq_of_mem_replicate hc]
      decide
  have hsigns : ∀ c ∈ letters, c ∉ signs := by simp [letters, signs]
  refine ⟨by simp [base], fun c hc => isBlank_of_mem_letters (hmem c hc), fun h => ?_, fun h => ?_,
    fun c hc => hsigns c (hmem c (List.mem_of_mem_head? hc)),
    fun c hc => hsigns c (hmem c (List.mem_of_mem_getLast? hc))⟩
  · exact absurd (hmem _ h) (by decide)
  · exact absurd (hmem _ h) (by decide)

/-- **Texts with the same patterns have the same stem.** -/
theorem stem_congr {s t : Text} (h : ∀ p, Pattern p → (p <:+: s ↔ p <:+: t)) :
    stem s = stem t := by
  have hdemand : demand s = demand t := by
    refine Nat.le_antisymm (Nat.le_of_not_lt fun hlt => ?_) (Nat.le_of_not_lt fun hlt => ?_)
    · exact Nat.lt_irrefl _ (lt_demand_iff.mpr ((h _ (pattern_base _)).mp (lt_demand_iff.mp hlt)))
    · exact Nat.lt_irrefl _ (lt_demand_iff.mpr ((h _ (pattern_base _)).mpr (lt_demand_iff.mp hlt)))
  rw [stem, stem, hdemand]

end Placeholder

/-! ## Shapes -/

namespace Node

variable {spacing : Bool}

mutual

/-- What is read back has the same shape. -/
theorem Echoes.shape_eq : ∀ {n m : Node}, n.Echoes spacing m → m.shape = n.shape
  | .action _ _ _, m, h => by
    obtain ⟨info', t', act', rfl, -⟩ := h
    rw [shape, shape]
  | .raw _ _, _, h => h.elim
  | .block _ _ _, m, h => by
    obtain ⟨info', frame', children', rfl, -, hframe, -, hchildren⟩ := h
    rw [shape, shape, hframe.keyword, EchoesAll.shape_eq hchildren]
  | .chain _ _, m, h => by
    obtain ⟨info', branches', rfl, -, -, hbranches⟩ := h
    rw [shape, shape, EchoesAll.shape_eq hbranches]

theorem EchoesAll.shape_eq : ∀ {ns ms : List Node}, EchoesAll spacing ns ms →
    shapeAll ms = shapeAll ns
  | [], _, h => by rw [show _ = [] from h]
  | _ :: _, _, h => by
    obtain ⟨m, ms', rfl, hm, hms⟩ := h
    rw [shapeAll, shapeAll, Echoes.shape_eq hm, EchoesAll.shape_eq hms]

end

mutual

/-- What is read back has the same numbers. -/
theorem Echoes.order_eq : ∀ {n m : Node}, n.Echoes spacing m → m.order = n.order
  | .action _ _ _, m, h => by
    obtain ⟨info', t', act', rfl, hid, -⟩ := h
    rw [order, order, hid]
  | .raw _ _, _, h => h.elim
  | .block _ frame _, m, h => by
    obtain ⟨info', frame', children', rfl, hid, hframe, -, hchildren⟩ := h
    have hstop : frame'.stop.map Leaf.id = frame.stop.map Leaf.id := by
      obtain ⟨hnone, hnone'⟩ | ⟨l, l', hs, hs', hl⟩ := hframe.stop_cases
      · rw [hnone, hnone']
      · rw [hs, hs', Option.map_some, Option.map_some, hl.id_eq]
    rw [order, order, hid, hframe.start.id_eq, EchoesAll.order_eq hchildren, hstop]
  | .chain _ _, m, h => by
    obtain ⟨info', branches', rfl, hid, -, hbranches⟩ := h
    rw [order, order, hid, EchoesAll.order_eq hbranches]

theorem EchoesAll.order_eq : ∀ {ns ms : List Node}, EchoesAll spacing ns ms →
    orderAll ms = orderAll ns
  | [], _, h => by rw [show _ = [] from h]
  | _ :: _, _, h => by
    obtain ⟨m, ms', rfl, hm, hms⟩ := h
    rw [orderAll, orderAll, Echoes.order_eq hm, EchoesAll.order_eq hms]

end

end Node

/-! ## The nodes of a template -/

open Node Glyph

/-- No markup in the template opens a preformatted element. -/
def Tree.Unformatted (tree : Tree) : Prop :=
  ∀ l ∈ tree.unsorted, ∀ c ∈ l.entry.container?, Markup.Html.Unformatted (c.aliased tree.stem)

instance (tree : Tree) : Decidable tree.Unformatted :=
  inferInstanceAs (Decidable (∀ l ∈ tree.unsorted, ∀ c ∈ l.entry.container?, _))

variable {settings : Settings} {source out : Text} {tree : Tree}

/-- The glyphs of tokens that are actions, behind inert literals. -/
theorem settled_tokens {ts : List Token} {tail : Text}
    (hts : ∀ t ∈ ts, Inert t.lead ['{'] ∧ ∃ act, t.kind = .action act ∧ act.Legible t.text)
    (htail : Inert tail []) : Settled [] (ts.flatMap Token.glyphs ++ literal tail) := by
  induction ts with
  | nil =>
    rw [List.flatMap_nil, List.nil_append, settled_tail]
    exact htail
  | cons t ts ih =>
    obtain ⟨⟨hlead, hact⟩, hts⟩ := List.forall_mem_cons.mp hts
    rw [List.flatMap_cons, Token.glyphs, List.append_assoc, List.append_assoc, settled_literal]
    exact ⟨hlead, hact, ih hts⟩

/-- The glyphs of a steady template without raw regions are settled. -/
theorem settled_scan {spacing : Bool} (h : (scan source).Steady spacing)
    (hraw : ∀ t ∈ (scan source).tokens, t.kind ≠ .raw) :
    Settled [] ((scan source).tokens.flatMap Token.glyphs ++ literal (scan source).tail) := by
  refine settled_tokens (fun t ht => ?_) h.tail
  have hreads := reads_scan source t ht
  have hsteady := h.tokens t ht
  have hlead := h.leads t ht
  cases hkind : t.kind with
  | raw => exact absurd hkind (hraw t ht)
  | action act =>
    rw [hkind] at hreads hsteady
    obtain ⟨s, hs⟩ := ReadsAs.head hreads
    rw [hs] at hlead
    exact ⟨hlead, act, rfl, hreads, hsteady.2⟩

/-- What a template is read as, if its glyphs are settled. -/
structure Readable (c : Container) : Prop where
  legible : LegibleAll c.children
  entire : ∀ n ∈ c.children, n.Entire
  quiet : Node.Quiet c.tail [] c.children

/-- **A template with settled glyphs** is read as legible nodes. -/
theorem readable_of_settled (h : parse source = .ok tree)
    (hsettled : Settled [] (glyphsAll tree.children ++ literal tree.tail)) :
    Readable (.ofTree tree) := by
  obtain ⟨hformed, hwhole⟩ := parse_formed h
  obtain ⟨hlegible, hleads, htail⟩ := legible_of_settled_children (formedAll_iff.mpr hformed) hwhole
    (parse_placed h).children hsettled
  have hentire : ∀ n ∈ tree.children, n.Entire := fun n hn =>
    (hwhole n hn).entire (hformed n hn) (legibleAll_iff.mp hlegible n hn)
  exact ⟨hlegible, hentire, hleads, settled_tail.mp htail⟩

/-- The glyphs of legible nodes are settled. -/
theorem Readable.settled {c : Container} (h : Readable c) :
    Settled [] (glyphsAll c.children ++ literal c.tail) :=
  settled_children h.legible h.quiet.leads h.entire (settled_tail.mpr h.quiet.tail)

/-- What is read back for legible nodes is legible. -/
theorem Readable.of_echoes {spacing : Bool} {c c' : Container} (h : Readable c)
    (hechoes : List.Forall₂ (Echoes spacing) c.children c'.children)
    (hrows : rows c'.children c'.tail = rows c.children c.tail) : Readable c' := by
  refine ⟨(echoesAll_iff.mpr hechoes).legible h.legible, fun m hm => ?_,
    h.quiet.of_rows hechoes.length_eq.symm hrows⟩
  obtain ⟨n, hn, hnm⟩ := exists_left_of_mem hechoes m hm
  exact hnm.entire (h.entire n hn)

/-- What is printed for a template in which nothing is kept as written. -/
theorem layout_eq_render (h : parse source = .ok tree) (hclear : ClearAll tree.children) :
    layout (Markup.html (σ := Unit)) settings tree = Doc.render settings.toPage
      (templateDoc settings.bracketSpacing (stem source) (.ofTree tree)) := by
  have hplaced := parse_placed h
  have hsource : tree.Placed (Printer.ofTree tree settings (Markup.html (σ := Unit))).source := by
    rw [show (Printer.ofTree tree settings (Markup.html (σ := Unit))).source = tree.source from rfl,
      hplaced.source_eq]
    exact hplaced
  rw [layout, Printer.treeDoc_eq_sheets hsource (formedAll_iff.mpr (parse_formed h).formed) hclear,
    ← hplaced.stem_eq]
  rfl

/-- **A steady template without preformatted elements is regular.** -/
theorem Readable.regular {spacing : Bool} (hread : Readable (.ofTree tree))
    (h : parse source = .ok tree)
    (hsteady : (scan source).Steady spacing) (hplain : tree.Unformatted) :
    (Container.ofTree tree).Regular source (stem source) [] ∧
      RegularAll source (stem source) spacing tree.children := by
  obtain ⟨hglyphs, -⟩ := parse_glyphs h
  have hentry : ∀ l ∈ tree.unsorted, l.entry.Plain source := fun l hl c hc => by
    refine ⟨parse_stands h ((Tree.listing_perm tree).mem_iff.mpr hl) hc, ?_⟩
    rw [← (parse_placed h).stem_eq]
    exact hplain l hl c hc
  rw [Tree.unsorted, List.forall_mem_cons] at hentry
  obtain ⟨hstands, hunformatted⟩ := hentry.1 _ rfl
  refine ⟨Quiet.regular hread.quiet hread.entire hstands hunformatted,
    hread.legible.regular 0 (fun g hg => ?_) hentry.2⟩
  rw [show (Container.ofTree tree).children = tree.children from rfl, hglyphs] at hg
  exact sound_glyphs hsteady g (List.mem_append_left _ hg)

/-! ## The second run -/

/-- **What the output is read back as**: legible nodes that echo the template, have the same shape
and numbers, and are printed the same. -/
structure Reread (settings : Settings) (source out : Text) (tree : Tree)
    (c : Container) : Prop where
  readable : Readable c
  text : c.text = out
  shape : shapeAll c.children = shapeAll tree.children
  order : orderAll c.children = orderAll tree.children
  infix_iff : ∀ p, Pattern p → (p <:+: out ↔ p <:+: source)
  again : ∀ span, Doc.render settings.toPage (templateDoc settings.bracketSpacing (stem source)
    ⟨c.children, c.tail, span⟩) = out

/-- A template in which nothing is read otherwise where white space is dropped, and nothing is kept
as written, can be read back. -/
theorem exists_reread (h : parse source = .ok tree)
    (hsteady : (scan source).Steady settings.bracketSpacing)
    (hraw : ∀ t ∈ (scan source).tokens, t.kind ≠ .raw) (hpragma : ¬ Pragma.word <:+: source)
    (hplain : tree.Unformatted) :
    ∃ c, Reread settings source (layout (Markup.html (σ := Unit)) settings tree) tree c := by
  obtain ⟨hglyphs, htail⟩ := parse_glyphs h
  have hread := readable_of_settled h (by
    rw [hglyphs, htail]
    exact settled_scan hsteady hraw)
  obtain ⟨hregular, hchildren⟩ := hread.regular h hsteady hplain
  obtain ⟨ns, tail, hechoes, hrows, htext, hagain⟩ :=
    exists_template_again hregular hchildren settings.toPage
  rw [← layout_eq_render h (parse_clear h hpragma hraw)] at htext hagain
  have hall := echoesAll_iff.mpr hechoes
  have hread' : Readable ⟨ns, tail, default⟩ := hread.of_echoes hechoes hrows
  refine ⟨⟨ns, tail, default⟩, hread', htext, hall.shape_eq, hall.order_eq, fun p hp => ?_, hagain⟩
  rw [← htext, ← (parse_placed h).spelled]
  exact infix_content_congr hp hread.legible hread'.legible hread.entire hread'.entire hrows
    (EchoesAll.infix_iff hp hall hread.legible)

namespace Reread

variable {c : Container}

/-- A scan of the output finds the glyphs of what it is read back as. -/
theorem glyphs_scan (h : Reread settings source out tree c) :
    (scan out).tokens.flatMap Token.glyphs ++ literal (scan out).tail =
      glyphsAll c.children ++ literal c.tail := by
  have htext : (glyphsAll c.children ++ literal c.tail).flatMap Glyph.text = out := by
    rw [List.flatMap_append, ← spellAll_eq_glyphs, text_literal]
    exact h.text
  have hscan := Glyph.glyphs_scan h.readable.settled
  rwa [htext] at hscan

/-- Nothing in the output is kept as written. -/
theorem clear (h : Reread settings source out tree c) (hpragma : ¬ Pragma.word <:+: source)
    {tree' : Tree} (hout : parse out = .ok tree') : ClearAll tree'.children := by
  refine parse_clear hout (mt (h.infix_iff _ Pragma.pattern_word).mp hpragma) fun t ht hraw => ?_
  have hmem : Glyph.token t.text t.kind ∈ glyphsAll c.children ++ literal c.tail := by
    rw [← h.glyphs_scan]
    exact List.mem_append_left _ (List.mem_flatMap.mpr ⟨t, ht, by simp [Token.glyphs]⟩)
  obtain ⟨act, hact, -⟩ := h.readable.settled.exists_action _ _ hmem
  exact absurd (hact.symm.trans hraw) (by simp)

/-- **The output is read as these nodes**, up to places: they have the same shape, glyphs and
numbers. -/
theorem unplaced_eq (h : Reread settings source out tree c) (hparse : parse source = .ok tree)
    {tree' : Tree} (hout : parse out = .ok tree') (hshape : tree'.shape = tree.shape) :
    unplacedAll tree'.children = unplacedAll c.children ∧ tree'.tail = c.tail := by
  have hglyphs : glyphsAll tree'.children ++ literal tree'.tail =
      glyphsAll c.children ++ literal c.tail := by
    rw [← h.glyphs_scan, (parse_glyphs hout).1, (parse_glyphs hout).2]
  have hread := readable_of_settled hout (by rw [hglyphs]; exact h.readable.settled)
  have hshapes : shapeAll tree'.children = shapeAll c.children := by
    rw [h.shape, shapeAll_eq_map, shapeAll_eq_map]
    exact hshape
  obtain ⟨k, hk⟩ := parse_order hparse
  obtain ⟨k', hk'⟩ := parse_order hout
  -- the numbers of both begin one list
  have hnumbers : orderAll tree'.children ++ List.range' (1 + k') k =
      orderAll c.children ++ List.range' (1 + k) k' := by
    rw [h.order, hk, hk', List.range'_append_1, List.range'_append_1, Nat.add_comm]
  obtain ⟨hnodes, htail, -⟩ := unplacedAll_eq hread.legible h.readable.legible hshapes hread.entire
    h.readable.entire hglyphs hnumbers
  have hstops : Stops [] := trivial
  exact ⟨hnodes, (literal_append_inj hstops hstops (congrArg (· ++ []) htail)).1⟩

end Reread

/-- **Formatting again changes nothing**, if nothing in the template is read otherwise where white
space is dropped, and nothing is kept as written: there is no raw region, no pragma, and no
preformatted element. -/
theorem format_idem (h : format settings source = .ok out)
    (hsteady : (scan source).Steady settings.bracketSpacing)
    (hraw : ∀ t ∈ (scan source).tokens, t.kind ≠ .raw) (hpragma : ¬ Pragma.word <:+: source)
    (hplain : ∀ tree, parse source = .ok tree → tree.Unformatted) :
    format settings out = .ok out := by
  obtain ⟨tree, hparse, rfl⟩ := exists_parse_of_format h
  obtain ⟨c, hc⟩ := exists_reread hparse hsteady hraw hpragma (hplain tree hparse)
  obtain ⟨tree', hout, hshape⟩ := (shape_eq_iff hparse).mpr (moves_layout hparse hsteady)
  obtain ⟨hnodes, htail⟩ := hc.unplaced_eq hparse hout hshape
  have hdoc (stem : Text) : templateDoc settings.bracketSpacing stem (.ofTree tree') =
      templateDoc settings.bracketSpacing stem ⟨c.children, c.tail, default⟩ := by
    rw [← templateDoc_unplaced c.children, ← hnodes, ← htail]
    exact (templateDoc_unplaced tree'.children tree'.tail tree'.span).symm
  rw [format_of_parse settings hout, layout_eq_render hout (hc.clear hpragma hout), hdoc,
    Placeholder.stem_congr hc.infix_iff, hc.again]

/-- A chain that the first run breaks, with a statement of two lines and a blank line in a branch.
-/
theorem format_idem_chain :
    format {} ("<ul><li>{{ if a }}\n  <b>x</b>\n{{ else }}\n  \x7b\x7bc\n    d\n  \x7d\x7d\n\n  " ++
      "{{ y }} z\n{{ end }}</li></ul>\n").toList =
        .ok ("<ul><li>{{ if a }}\n  <b>x</b>\n{{ else }}\n  \x7b\x7bc\n    d\n  \x7d\x7d\n\n  " ++
          "{{ y }} z\n{{ end }}</li></ul>\n").toList := by
  have h : format {} ("<ul><li>{{if a}}\n<b>x</b>{{else}}\x7b\x7bc\nd\x7d\x7d\n\n{{y}} z" ++
      "{{end}}</li></ul>").toList =
      .ok ("<ul><li>{{ if a }}\n  <b>x</b>\n{{ else }}\n  \x7b\x7bc\n    d\n  \x7d\x7d\n\n  " ++
        "{{ y }} z\n{{ end }}</li></ul>\n").toList := eq_ok_of_toOption (by decide +kernel)
  have hplain : (parse ("<ul><li>{{if a}}\n<b>x</b>{{else}}\x7b\x7bc\nd\x7d\x7d\n\n{{y}} z" ++
      "{{end}}</li></ul>").toList).toOption.all fun tree => decide tree.Unformatted := by
    decide +kernel
  refine format_idem h (by decide +kernel) (by decide +kernel) (by decide +kernel)
    fun tree hparse => ?_
  rw [hparse] at hplain
  exact of_decide_eq_true hplain

/-- **A second run can change the output.** In preformatted text the line feeds of the template are
printed, and the break that keeps a blank line before the second action comes on top of them. -/
theorem format_pre_grows : ∃ out out',
    format {} "<pre>\n{{ x }}\n\n{{ x }}\n</pre>\n".toList = .ok out ∧
      format {} out = .ok out' ∧ out' = "<pre>\n{{ x }}\n\n\n\n{{ x }}\n</pre>\n".toList ∧
        out' ≠ out := by
  have hfirst : format {} "<pre>\n{{ x }}\n\n{{ x }}\n</pre>\n".toList =
      .ok "<pre>\n{{ x }}\n\n\n{{ x }}\n</pre>\n".toList := eq_ok_of_toOption (by decide +kernel)
  have hsecond : format {} "<pre>\n{{ x }}\n\n\n{{ x }}\n</pre>\n".toList =
      .ok "<pre>\n{{ x }}\n\n\n\n{{ x }}\n</pre>\n".toList := eq_ok_of_toOption (by decide +kernel)
  exact ⟨_, _, hfirst, hsecond, rfl, by decide⟩

end TemplateFormat
