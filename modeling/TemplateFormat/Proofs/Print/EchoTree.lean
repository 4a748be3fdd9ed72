import TemplateFormat.Proofs.Print.EchoBroken

/-!
# Nodes that are printed twice

Where a node is printed, a group that fits goes on the line, and the group that is read back goes on
the line too, since its text is as long. A group that does not fit goes over lines, and so does the
one that is read back: the line break before its closing action marks it. So a node is printed the
second time as it was the first time, wherever it stands (`Node.reprints`), and so is the content of
a template.

Results:
* `Node.reprints`: what is read back for a node is printed the same.
* `Node.exists_template_again`: what is read back for the content of a template.
-/

namespace TemplateFormat

open Doc Render

namespace Node

variable {page : Page} {source stem : Text} {spacing : Bool} {n m : Node} {ns ms : List Node}
  {info : Info} {frame : Frame} {children branches : List Node}

/-! ## Groups -/

/-- A group that fits is written on the line. -/
theorem print_group_of_fits {d : Doc} {broken : Bool} (h : (Doc.group d broken).forcesBreak = false)
    {after : Int → Bool} {o : Output} (hfit : after (page.room o.column - d.flat.length) = true)
    (levels : Nat) : printThen page levels .broken (Doc.group d broken).propagate after o =
      o.write d.flat := by
  have hforces := h
  rw [forcesBreak, Bool.or_eq_false_iff] at hforces
  have hd := straight_of_unforced d.propagate (by rw [forcesBreak_propagate]; exact hforces.2)
  rw [flat_propagate] at hd
  have hfits : fitsThen .flat d.propagate after (page.room o.column) = true := by rwa [hd.fits]
  show printThen page levels (modeThen .broken (broken || d.forcesBreak)
    (fitsThen .flat d.propagate after (page.room o.column))) d.propagate after o = _
  rw [hforces.1, hforces.2, hfits]
  exact congrFun (hd.print page levels after) o

/-- A group that is marked, or does not fit, is in broken mode. -/
theorem print_group_of_broken {d : Doc} {broken : Bool} {after : Int → Bool} {o : Output}
    (h : (Doc.group d broken).forcesBreak = true ∨ after (page.room o.column - d.flat.length) =
    false)
    (levels : Nat) : printThen page levels .broken (Doc.group d broken).propagate after o =
      printThen page levels .broken d.propagate after o := by
  show printThen page levels (modeThen .broken (broken || d.forcesBreak)
    (fitsThen .flat d.propagate after (page.room o.column))) d.propagate after o = _
  by_cases hforces : (Doc.group d broken).forcesBreak = true
  · rw [forcesBreak] at hforces
    rw [hforces]
    rfl
  · obtain hfit := h.resolve_left hforces
    rw [Bool.not_eq_true, forcesBreak, Bool.or_eq_false_iff] at hforces
    have hd := straight_of_unforced d.propagate (by rw [forcesBreak_propagate]; exact hforces.2)
    rw [flat_propagate] at hd
    have hfits : fitsThen .flat d.propagate after (page.room o.column) = false := by rwa [hd.fits]
    rw [hforces.1, hforces.2, hfits]
    rfl

/-- What is read back for a group is a group. -/
theorem Echoes.exists_group {d : Doc} {broken : Bool} (h : n.Echoes spacing m) (he : n.Entire)
    (hsheet : n.sheet spacing stem = .group d broken) :
    ∃ d' broken', m.sheet spacing stem = .group d' broken' := by
  cases n with
  | action info t act =>
    have hrigid := act.rigid_doc spacing
    rw [sheet] at hsheet
    rw [hsheet] at hrigid
    exact absurd hrigid Bool.false_ne_true
  | raw info t => exact h.elim
  | block info frame children =>
    obtain ⟨info', frame', children', rfl, -, hframe, -⟩ := h
    rw [sheet_block, hframe.branch, he.2]
    exact ⟨_, _, rfl⟩
  | chain info branches =>
    obtain ⟨info', branches', rfl, -⟩ := h
    exact ⟨_, _, sheet_chain ..⟩

/-- The node is read back where the first one was printed over lines, and goes over these lines
again. -/
structure EchoesBroken (page : Page) (spacing : Bool) (stem : Text) (levels : Nat)
    (after : Int → Bool) (o : Output) (n : Node) (d : Doc) (m : Node) (d' : Doc) : Prop where
  echoes : n.Echoes spacing m
  sheet_eq : m.sheet spacing stem = .group d' true
  chars : (printThen page levels .broken d.propagate after o).chars = m.text.reverse ++ o.chars
  again : printThen page levels .broken d'.propagate after o =
    printThen page levels .broken d.propagate after o

/-- **A group that is printed twice**: on one line, or over lines. -/
theorem reprints_group {d : Doc} {broken : Bool} (hsheet : n.sheet spacing stem = .group d broken)
    (he : n.Entire)
    (hflat : (n.sheet spacing stem).forcesBreak = false → ∃ m, EchoesFlat spacing stem n m)
    (hbroken : ∀ levels after o, ∃ m d', EchoesBroken page spacing stem levels after o n d m d') :
    Reprints page spacing stem n := by
  refine ⟨fun levels after o => ?_, fun m hm => hm.fits_eq he, fun m hm => hm.ends he⟩
  by_cases hline : (n.sheet spacing stem).forcesBreak = false ∧
      after (page.room o.column - d.flat.length) = true
  · obtain ⟨hforces, hfit⟩ := hline
    obtain ⟨m, hm⟩ := hflat hforces
    obtain ⟨d', broken', hsheet'⟩ := hm.echoes.exists_group he hsheet
    have hforces' := hm.unforced
    have htext := hm.text_eq
    have hflat' := hm.flat_eq
    rw [hsheet] at hforces htext hflat'
    rw [hsheet'] at hforces' hflat'
    rw [flat_group] at htext hflat'
    rw [flat_group] at hflat'
    refine ⟨m, hm.echoes, ?_, ?_⟩
    · rw [hsheet, print_group_of_fits hforces hfit, htext]
      rfl
    · rw [hsheet, hsheet', print_group_of_fits hforces hfit,
        print_group_of_fits hforces' (by rwa [hflat']), hflat']
  · have hlines : (Doc.group d broken).forcesBreak = true ∨
        after (page.room o.column - d.flat.length) = false := by
      rw [hsheet] at hline
      grind
    obtain ⟨m, d', hm⟩ := hbroken levels after o
    refine ⟨m, hm.echoes, ?_, ?_⟩
    · rw [hsheet, print_group_of_broken hlines, hm.chars]
    · rw [hsheet, hm.sheet_eq, print_group_of_broken hlines, print_group_of_broken (.inl rfl),
        hm.again]

/-! ## Nodes -/

/-- **An action is printed twice alike.** -/
theorem reprints_action {t : Text} {act : Action}
    (h : (action info t act).Regular source stem spacing) :
    Reprints page spacing stem (action info t act) := by
  have hsheet (info : Info) (t : Text) (act : Action) :
      ((action info t act).sheet spacing stem).propagate = act.doc spacing := by
    rw [sheet, propagate_of_rigid _ (act.rigid_doc spacing)]
  refine ⟨fun levels after o => ?_, fun m hm => hm.fits_eq trivial, fun m hm => hm.ends trivial⟩
  obtain ⟨t', act', hact, hchars⟩ := exists_rewritten h.reads h.steady page levels
  refine ⟨action info t' act', ⟨info, t', act', rfl, rfl, hact⟩, ?_, ?_⟩
  · rw [hsheet, hchars]
    rfl
  · rw [hsheet, hsheet, hact.same.print]

/-- **A block is printed twice alike**, if its children are. -/
theorem reprints_block (h : (block info frame children).Regular source stem spacing)
    (he : (block info frame children).Entire)
    (ih : ∀ n ∈ children, Reprints page spacing stem n) :
    Reprints page spacing stem (block info frame children) := by
  have hsheet (info : Info) {f : Frame} (hf : f.branch = false) (ns : List Node) :
      (block info f ns).sheet spacing stem =
        .group (inside spacing stem info f ns) (endsWithNewLine (f.content ns)) := by
    rw [sheet_block, hf]
    rfl
  refine reprints_group (hsheet info he.2 children) he (exists_flat h) fun levels after o => ?_
  obtain ⟨info', frame', children', hblock⟩ := exists_broken_block h ih levels after o
  refine ⟨_, inside spacing stem info' frame' children', hblock.echoes, ?_, hblock.chars,
    hblock.again⟩
  obtain ⟨_, _, _, hblock', -, hframe, -⟩ := hblock.echoes
  obtain ⟨-, rfl, -⟩ := Node.block.inj hblock'
  rw [hsheet info' (hframe.branch.trans he.2), hblock.endsWithNewLine]

/-! ## Chains -/

/-- The node is a block over lines. -/
def StartsLine (n : Node) : Prop :=
  ∃ info frame children, n = block info frame children ∧ endsWithNewLine (frame.content children) =
  true

theorem chainBreaks_of_startsLine (hne : ns ≠ []) (h : ∀ n ∈ ns, n.StartsLine) :
    Printer.chainBreaks ns = true := by
  obtain ⟨init, last, rfl⟩ := (List.eq_nil_or_concat ns).resolve_left hne
  obtain ⟨info, frame, children, rfl, hline⟩ := h last (by simp)
  rw [Printer.chainBreaks, List.concat_eq_append, List.getLast?_concat]
  exact hline

/-- If the node is a block, its children are printed twice alike. -/
def ReprintsInside (page : Page) (spacing : Bool) (stem : Text) (n : Node) : Prop :=
  ∀ info frame children, n = block info frame children → ∀ c ∈ children,
  Reprints page spacing stem c

/-- The documents of branches. -/
def branchDocs (spacing : Bool) (stem : Text) (ns : List Node) : List Doc :=
  ns.map fun n => (n.sheet spacing stem).propagate

/-- The branches are read back where the first ones were printed over lines, and go over these lines
again. -/
structure BranchesBroken (page : Page) (spacing : Bool) (stem : Text) (levels : Nat)
    (after : Int → Bool) (o : Output) (ns ms : List Node) : Prop where
  echoes : List.Forall₂ (Echoes spacing) ns ms
  leads : ∀ m ∈ ms, m.info.lead = []
  lines : ∀ m ∈ ms, m.StartsLine
  chars : (printAllThen page levels .broken (branchDocs spacing stem ns) after o).chars =
    (spellAll ms).reverse ++ o.chars
  fits : fitsAllThen .broken (branchDocs spacing stem ms) after =
    fitsAllThen .broken (branchDocs spacing stem ns) after
  again : printAllThen page levels .broken (branchDocs spacing stem ms) after o =
    printAllThen page levels .broken (branchDocs spacing stem ns) after o

/-- **The branches of a chain over lines**, by induction on the branches. -/
theorem exists_broken_branches (h : RegularAll source stem spacing ns)
    (hbranch : ∀ n ∈ ns, ∃ first last, n.IsBranch first last)
    (ih : ∀ n ∈ ns, n.ReprintsInside page spacing stem) (levels : Nat) (after : Int → Bool)
    (o : Output) :
    ∃ ms, BranchesBroken page spacing stem levels after o ns ms := by
  induction ns generalizing o with
  | nil => exact ⟨[], .nil, by simp, by simp, rfl, rfl, rfl⟩
  | cons n ns ih' =>
    obtain ⟨hn, hns⟩ := h
    obtain ⟨⟨first, last, hn'⟩, hbranches⟩ := List.forall_mem_cons.mp hbranch
    obtain ⟨ihn, ihs⟩ := List.forall_mem_cons.mp ih
    cases n with
    | block info frame children =>
      obtain ⟨info', frame', children', hblock⟩ := exists_broken_block hn (ihn _ _ _ rfl) levels
        (fitsAllThen .broken (branchDocs spacing stem ns) after) o
      obtain ⟨ms, hms⟩ := ih' hns hbranches ihs
        (printThen page levels .broken ((block info frame children).sheet spacing stem).propagate
          (fitsAllThen .broken (branchDocs spacing stem ns) after) o)
      have hsheet (info : Info) {f : Frame} (hf : f.branch = true) (ns : List Node) :
          (block info f ns).sheet spacing stem = inside spacing stem info f ns := by
        rw [sheet_block, if_pos hf]
      have hframe : frame'.branch = true := by
        obtain ⟨_, _, _, hblock', -, hframe, -⟩ := hblock.echoes
        obtain ⟨-, rfl, -⟩ := Node.block.inj hblock'
        exact hframe.branch.trans hn'.1
      have hsheet' : ((block info' frame' children').setLead []).sheet spacing stem =
          (block info' frame' children').sheet spacing stem := sheet_setLead ..
      refine ⟨(block info' frame' children').setLead [] :: ms,
        .cons (hblock.echoes.setLead []) hms.echoes,
        List.forall_mem_cons.mpr ⟨lead_setLead .., hms.leads⟩,
        List.forall_mem_cons.mpr ⟨⟨_, _, _, rfl, hblock.endsWithNewLine⟩, hms.lines⟩, ?_, ?_, ?_⟩
      · refine hms.chars.trans ?_
        rw [hsheet info hn'.1, hblock.chars, spellAll, lead_setLead, text_setLead]
        simp
      · show fitsThen .broken
            (((block info' frame' children').setLead []).sheet spacing stem).propagate
            (fitsAllThen .broken (branchDocs spacing stem ms) after) = _
        rw [hms.fits, hsheet', hblock.echoes.fits_block_eq]
        rfl
      · show printAllThen page levels .broken (branchDocs spacing stem ms) after
          (printThen page levels .broken
            (((block info' frame' children').setLead []).sheet spacing stem).propagate
            (fitsAllThen .broken (branchDocs spacing stem ms) after) o) = _
        rw [hms.fits, hsheet', hsheet info' hframe, hblock.again, ← hsheet info hn'.1, hms.again]
        rfl
    | _ => exact hn'.elim

/-- **A chain is printed twice alike**, if the children of its branches are. -/
theorem reprints_chain (h : (chain info branches).Regular source stem spacing)
    (ih : ∀ n ∈ branches, n.ReprintsInside page spacing stem) :
    Reprints page spacing stem (chain info branches) := by
  have hchain := h.1
  refine reprints_group (sheet_chain ..) hchain (exists_flat h) fun levels after o => ?_
  obtain ⟨ms, hms⟩ := exists_broken_branches h.2.2 (fun n hn => hchain.isBranch hn) ih levels after
    o
  have hprint (ns : List Node) :
      printThen page levels .broken (Doc.join (ns.map (sheet spacing stem))).propagate after =
        printAllThen page levels .broken (branchDocs spacing stem ns) after := by
    rw [(same_join_propagate _).print, printThen, branchDocs, List.map_map]
    rfl
  have hne : ms ≠ [] := by
    rintro rfl
    obtain ⟨first, mid, last, rfl, -⟩ := hchain
    exact absurd hms.echoes.length_eq (by simp)
  refine ⟨chain info ms, _, ⟨info, ms, rfl, rfl, hms.leads, echoesAll_iff.mpr hms.echoes⟩,
    by rw [sheet_chain, chainBreaks_of_startsLine hne hms.lines], ?_, ?_⟩
  · rw [hprint, hms.chars]
    rfl
  · rw [hprint, hprint, hms.again]

/-! ## Trees -/

mutual

/-- **What is read back for a node is printed the same**, and so it is for the children of a branch,
by induction on the node. -/
theorem reprints : ∀ {n : Node}, n.Regular source stem spacing →
    (n.Entire → Reprints page spacing stem n) ∧ n.ReprintsInside page spacing stem
  | .action _ _ _, h => ⟨fun _ => reprints_action h, fun _ _ _ heq => Node.noConfusion heq⟩
  | .raw _ _, h => h.elim
  | .block _ _ children, h => by
    have ih : ∀ n ∈ children, Reprints page spacing stem n := fun n hn =>
      (reprintsAll h.2.2.2 n hn).1 (h.2.2.1.entire n hn)
    refine ⟨fun he => reprints_block h he ih, fun _ _ _ heq => ?_⟩
    obtain ⟨-, -, rfl⟩ := Node.block.inj heq
    exact ih
  | .chain _ _, h => ⟨fun _ => reprints_chain h fun n hn => (reprintsAll h.2.2 n hn).2,
      fun _ _ _ heq => Node.noConfusion heq⟩

/-- What is read back for nodes is printed the same. -/
theorem reprintsAll : ∀ {ns : List Node}, RegularAll source stem spacing ns → ∀ n ∈ ns,
    (n.Entire → Reprints page spacing stem n) ∧ n.ReprintsInside page spacing stem
  | [], _ => fun _ hn => absurd hn List.not_mem_nil
  | _ :: _, h => List.forall_mem_cons.mpr ⟨reprints h.1, reprintsAll h.2⟩

end

end Node

/-! ## Templates -/

/-- The document of a template with the content `c`. -/
def templateDoc (spacing : Bool) (stem : Text) (c : Container) : Doc :=
  .join [containerDoc stem false c (Node.inPlaceAll [] c.tail [] c.children
    (Node.sheetAll spacing stem c.children)), .hardline]

/-- There is nothing to print in white space. -/
theorem containerDoc_of_isBlank {stem : Text} {c : Container}
    (h : Text.isBlank (c.aliased stem) = true)
    (hplain : Markup.Html.Unformatted (c.aliased stem)) (docs : List Doc) :
    containerDoc stem false c docs = .empty := by
  obtain ⟨put, -, hput, hformat⟩ := Markup.Html.exists_formatLines hplain
  rw [Text.rows_replace_crlf, Text.rows_of_isBlank h] at hput
  obtain rfl : put = none := by
    cases put with
    | none => rfl
    | some x => exact absurd hput (List.cons_ne_nil _ _)
  rw [containerDoc, Markup.Html.format_of_newline (by simp), hformat]
  rfl

theorem render_eq (page : Page) (d : Doc) : Doc.render page (.join [d, .hardline]) =
    (((printThen page 0 .broken d.propagate atBreak ⟨[], 0⟩).newline page 0 true).chars.dropWhile
      isSpace).reverse := by
  rw [Doc.render]
  show (((run page [⟨0, .broken, (Doc.join [d, .hardline]).propagate⟩] ⟨[], 0⟩).chars.dropWhile
    isSpace).reverse) = _
  rw [run_eq_stackPrint, stackPrint, stackPrint, (Node.same_join_propagate _).print]
  rfl

namespace Node

variable {page : Page} {source stem : Text} {spacing : Bool}

/-- No line break is kept at the end of a template. -/
theorem keeps_eq_false {ns : List Node} {tail : Text} {first : Word} {rest : List Row}
    (hquiet : Quiet tail [] ns) (hrows : rows ns tail = (false, first) :: rest.map Row.flush)
    (alone : Nat → Bool) (tight : Bool) :
    (lastWord first rest).keeps (fun i => blankLineFollows (afterAt tail [] ns i)) alone tight =
    false := by
  rw [Word.keeps]
  split
  · rename_i i hlast
    have hi : i + 1 = ns.length :=
      eq_of_lastWord (rowSlots_of_rows (c := ⟨ns, tail, default⟩) hrows) hlast
    have hn := List.getElem?_eq_getElem (l := ns) (i := i) (by omega)
    refine Bool.and_eq_false_iff.mpr (.inl (Bool.eq_false_iff.mpr fun hkept => ?_))
    obtain ⟨_, _, _, _, _, _, hend⟩ := exists_of_kept hquiet (.inr rfl) hn hkept
    exact absurd (hend hi).1 (by decide)
  · rfl

/-- **What is read back for the content of a template** is printed the same. -/
theorem exists_template_again {c : Container} (hc : c.Regular source stem [])
    (hchildren : RegularAll source stem spacing c.children) (page : Page) : ∃ ns tail,
      List.Forall₂ (Echoes spacing) c.children ns ∧ rows ns tail = c.word.rows ∧
        spellAll ns ++ tail = Doc.render page (templateDoc spacing stem c) ∧
        ∀ span, Doc.render page (templateDoc spacing stem ⟨ns, tail, span⟩) =
          Doc.render page (templateDoc spacing stem c) := by
  by_cases hne : c.word.rows = []
  · have hblank := isBlank_of_rows hc hne
    have hnil : c.children = [] := Container.children_eq_nil hblank
    have hempty : Text.isBlank ((⟨[], [], default⟩ : Container).aliased stem) = true := rfl
    have hdoc : Doc.render page (templateDoc spacing stem c) = [] := by
      rw [templateDoc, containerDoc_of_isBlank hblank hc.plain, render_eq]
      rfl
    refine ⟨[], [], by rw [hnil]; exact .nil, by rw [hne]; rfl, ?_, fun span => ?_⟩
    · rw [hdoc]
      rfl
    · rw [hdoc, templateDoc, containerDoc_of_isBlank, render_eq]
      · rfl
      · rfl
      · refine (Markup.Html.formatLines_congr hc.plain ?_).1
        rw [Text.rows_replace_crlf, Text.rows_replace_crlf, Text.rows_of_isBlank hblank]
        rfl
  obtain ⟨first, rest, hrows, hlaid⟩ := exists_laid hc.keys hc.fresh hc.plain hne
  have hprint (c' : Container) (hkeys : c'.keys stem = c.keys stem)
      (hword : c'.word.rows = c.word.rows)
      (hentire : ∀ n ∈ c'.children, n.Entire) :
      Doc.render page (templateDoc spacing stem c') =
        ((((printRows page 0 (fun i => ((inPlaceAll [] c'.tail [] c'.children
          (sheetAll spacing stem c'.children)).getD i .empty).propagate) 0 first rest
            ⟨[], 0⟩).newline page 0 true).chars.dropWhile isSpace).reverse) := by
    have hlen : (c.keys stem).length = c'.children.length := by
      rw [← hkeys]
      exact List.length_map _
    have hdoc := (hlaid c' _ hkeys hword fun i hi => closed_sheets spacing stem
      hentire [] c'.tail [] (hlen ▸ hi)).1
    rw [templateDoc, render_eq, print_laid hdoc]
  obtain ⟨t, tight, levels', o', hchars, hinked, hsettles, hagain⟩ := exists_children_again
    page hrows (fun n hn => (reprintsAll hchildren n hn).1 (hc.entire n hn))
      (fun i => fitsThen .flat (sheetAt spacing stem c.children i) atBreak) 0 0 ⟨[], 0⟩
  have hfinal : ((o'.newline page 0 true).chars.dropWhile isSpace).reverse = t ++ ['\n'] := by
    have hindent : page.indentation 0 = [] := by
      rw [Page.indentation]
      split <;> simp
    rw [newline_of_inked page 0 hinked, hchars, hindent, List.nil_append,
      List.dropWhile_cons_of_neg (by decide)]
    simp
  have hout : Doc.render page (templateDoc spacing stem c) = t ++ ['\n'] := by
    rw [hprint c rfl rfl hc.entire, print_children hc.quiet (.inr rfl) hc.entire hrows
      (flatAt_self _) hsettles, keeps_eq_false hc.quiet hrows]
    exact hfinal
  obtain ⟨ns, tail, -, hns, hrows', htext, hsettles'⟩ := hagain [] ['\n'] rfl rfl
  refine ⟨ns, tail, hns, hrows', htext.trans hout.symm, fun span => ?_⟩
  have hentire : ∀ m ∈ ns, m.Entire := fun m hm => by
    obtain ⟨n, hn, hnm⟩ := exists_left_of_mem hns m hm
    exact hnm.entire (hc.entire n hn)
  have hquiet := hc.quiet.of_rows hns.length_eq.symm hrows'
  rw [hprint ⟨ns, tail, span⟩ (placeholder_eq hns stem) hrows' hentire,
    print_children hquiet (.inr rfl) hentire
    (hrows'.trans hrows) (flatAt_of_echoes hns) hsettles',
    keeps_eq_false hquiet (hrows'.trans hrows),
    hout]
  exact hfinal

end Node

end TemplateFormat
