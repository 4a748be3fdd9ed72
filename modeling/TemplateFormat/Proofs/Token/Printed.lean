import TemplateFormat.Proofs.Doc.Steps
import TemplateFormat.Proofs.Token.Rescan

/-!
# Printed actions are read back

An action whose statement is one line is printed on one line: braces, the opening mark, a space, the
statement, a space, the closing mark, braces. With the spaces there, no end of the statement is read
as a mark and no brace of it as a closing one, so a scan of the printed text finds the action again,
and nothing else.

A document without line breaks is printed as its texts, one after the other.

Results:
* `Render.run_of_unbroken`, `Doc.render_of_unbroken`: documents without line breaks.
* `Action.flat_doc`: what is printed for an action on one line.
* `Scan.scan_of_readsAs`: a text that reads as an action is one token.
* `scan_render_action`: a scan of a printed action finds the action.
-/

namespace TemplateFormat

/-! ## Documents without line breaks -/

namespace Render

/-- **Documents without line breaks are written on the line**, by induction on the steps. -/
theorem run_of_unbroken (page : Page) (stack : List Command) (out : Output)
    (h : ∀ kind, Item.line kind ∉ stackItems stack) :
    run page stack out = out.write (stackFlat stack) := by
  fun_induction run page stack out with
  | case1 out => rfl
  | case2 out c rest next ih =>
    obtain ⟨indent, mode, doc⟩ := c
    have hitems : stackItems (⟨indent, mode, doc⟩ :: rest) = doc.items ++ stackItems rest := rfl
    have hflat : stackFlat (⟨indent, mode, doc⟩ :: rest) = doc.flat ++ stackFlat rest := rfl
    rw [hitems] at h
    rw [hflat]
    cases doc with
    | empty =>
      rw [Doc.items_empty] at h
      rw [Doc.flat_empty]
      exact ih h
    | text t =>
      rw [Doc.flat_text, write_append]
      exact ih fun kind hk => h kind (List.mem_append_right _ hk)
    | concat ds =>
      rw [Doc.items_concat, ← stackItems_commands indent mode] at h
      rw [Doc.flat_concat, ← stackFlat_commands indent mode]
      exact ih h
    | indent d =>
      rw [Doc.items_indent] at h
      exact ih h
    | group d broken =>
      rw [Doc.items_group] at h
      rw [Doc.flat_group]
      exact ih h
    | line kind =>
      refine absurd ?_ (h kind)
      simp

end Render

/-- **A document without line breaks** is printed as it is on one line, without spaces at its end.
-/
theorem Doc.render_of_unbroken (page : Page) {d : Doc} (h : ∀ kind, Item.line kind ∉ d.items) :
    d.render page = Text.trimEndBy isSpace d.flat := by
  have hrun := Render.run_of_unbroken page [⟨0, .broken, d.propagate⟩] ⟨[], 0⟩ (by
    rw [Render.stackItems, List.flatMap_singleton, items_propagate]
    exact h)
  rw [Render.stackFlat, List.flatMap_singleton, flat_propagate] at hrun
  unfold render
  rw [hrun, Render.Output.write, List.append_nil, Text.trimEndBy]

/-! ## An action on one line -/

namespace Action

/-- **An action on one line**: its marks and its statement, with spaces between them. -/
theorem flat_doc {act : Action} (htrimmed : act.statement.Trimmed) (hne : act.statement ≠ [])
    (hline : '\n' ∉ act.statement) : (act.doc true).flat = openBraces ++
      ((act.opening.opening ++ ([' '] ++ (act.statement ++ ([' '] ++ act.closing.closing)))) ++
        closeBraces) := by
  have hlines : statementLines act.statement = [act.statement] := by
    have hlast : ([act.statement] : List Text).getLast? ≠ some [] := by simpa using hne
    rw [statementLines, Text.lines_of_notMem hline, if_neg hlast, List.map_singleton,
      Text.trim_of_trimmed htrimmed]
  simp [Action.doc, statementDoc, hlines]

theorem unbroken_doc {act : Action} (hline : '\n' ∉ act.statement) (kind : Line) :
    Item.line kind ∉ (act.doc true).items := by
  have htext (t : Text) : Item.line kind ∉ (Doc.text t).items := by
    cases t with
    | nil => simp [Doc.items_text_nil]
    | cons c t => simp [Doc.items_text (List.cons_ne_nil c t)]
  have hstatement (padStart padEnd : Bool) :
      Item.line kind ∉ (statementDoc act.statement padStart padEnd).items := by
    unfold statementDoc
    rw [statementLines, Text.lines_of_notMem hline]
    by_cases hnil : act.statement = []
    · simp [hnil]
    · simp [hnil, Doc.items_ofText, htext]
  simp [Action.doc, Doc.items_ofText, htext, hstatement]

/-- **An action that is printed on one line reads as itself.** -/
theorem readsAs_flat_doc {t : Text} {act : Action} (h : ReadsAs t act) (hne : act.statement ≠ [])
    (hline : '\n' ∉ act.statement) : ReadsAs (act.doc true).flat act := by
  obtain ⟨inner, -, hinner, rfl⟩ := h
  have htrimmed := trimmed_statement inner
  have hkeyword : (ofInner inner).keyword = Keyword.leading? (ofInner inner).statement := rfl
  have hbraces : ¬ closeBraces <:+: (ofInner inner).statement := fun hi =>
    hinner ((hi.trans (statement_isInfix inner)).trans (List.prefix_append _ _).isInfix)
  generalize ofInner inner = act at hne hline htrimmed hkeyword hbraces
  have hopen : act.opening = .plain → ∀ d ∈ ([' '] ++ act.statement).head?, d ∉ openers :=
    fun _ => head_append_isBlank (by decide) (by decide) (by simp)
  have hclose : act.closing = .plain → ∀ d ∈ (act.statement ++ [' ']).getLast?, d ∉ closers :=
    fun _ => last_append_isBlank (by decide) (by decide) (by simp)
  refine ⟨_, flat_doc htrimmed hne hline, ?_, ?_⟩
  · exact not_closeBraces_set (by decide) (by decide) hbraces hclose
  · rw [ofInner_set (by decide) (by decide) htrimmed hne hopen hclose, ← hkeyword]

end Action

/-! ## The scan of an action -/

/-- **A text that reads as an action is one token**, and nothing follows it. -/
theorem Scan.scan_of_readsAs {t : Text} {act : Action} (h : ReadsAs t act) :
    scan t = ⟨[⟨[], t, ⟨0, Text.bytes t⟩, .action act⟩], []⟩ := by
  have hlead : ¬ openBraces <:+: [] ++ ['{'] := by decide
  obtain ⟨a, ha, hstep⟩ := nextAction?_of_readsAs h hlead []
  rw [List.nil_append, List.append_nil] at ha
  have hlead : a.lead = [] := congrArg Step.lead hstep
  have hfirst : step? t (Lookahead.unknown.resolve t) = some ⟨[], t, .action act, []⟩ := by
    rw [← hstep]
    refine step?_eq_action ha fun r _ => ?_
    rw [hlead]
    exact Nat.zero_le _
  have hrest (offset : Nat) (look : Lookahead) : scanFrom offset look [] = ⟨[], []⟩ := by
    rw [scanFrom]
    rfl
  rw [scan, scanFrom_of_some hfirst]
  simp [hrest]

/-- **A scan of a printed action finds the action.** An action of a template that says something on
one line, printed with spaces inside its braces, is one token of the printed text: the whole text,
with the marks, the statement and the keyword that the action has. -/
theorem scan_render_action {source : Text} {t : Token} {act : Action}
    (ht : t ∈ (scan source).tokens) (hact : t.kind = .action act) (hne : act.statement ≠ [])
    (hline : '\n' ∉ act.statement) (page : Page) :
    scan ((act.doc true).render page) =
      ⟨[⟨[], (act.doc true).render page, ⟨0, Text.bytes ((act.doc true).render page)⟩,
        .action act⟩], []⟩ := by
  have hreads : t.kind.Reads t.text := reads_scan source t ht
  rw [hact] at hreads
  have hflat := Action.readsAs_flat_doc hreads hne hline
  -- the closing braces are no spaces, so the text that is printed has its full length
  have hrender : (act.doc true).render page = (act.doc true).flat := by
    obtain ⟨s, hs⟩ := hflat.last
    rw [Doc.render_of_unbroken page (Action.unbroken_doc hline), hs, Text.trimEndBy,
      List.reverse_append, List.reverse_singleton, List.singleton_append,
      List.dropWhile_cons_of_neg (by decide), List.reverse_cons, List.reverse_reverse]
  rw [hrender]
  exact Scan.scan_of_readsAs hflat

/-- A statement that ends like a closing mark, next to braces. -/
theorem scan_render_action_dash :
    scan "\x7b\x7b- x \x7b\x7b -1 - \x7d\x7d".toList =
      ⟨[⟨[], "\x7b\x7b- x \x7b\x7b -1 - \x7d\x7d".toList, ⟨0, 16⟩,
        .action ⟨.trim, .plain, "x \x7b\x7b -1 -".toList, none⟩⟩], []⟩ := by
  have hmem : (⟨['a'], "\x7b\x7b- x \x7b\x7b -1 - \x7d\x7d".toList, ⟨1, 16⟩,
      .action ⟨.trim, .plain, "x \x7b\x7b -1 -".toList, none⟩⟩ : Token) ∈
        (scan "a\x7b\x7b- x \x7b\x7b -1 - \x7d\x7d".toList).tokens := by decide +kernel
  have hrender : ((⟨.trim, .plain, "x \x7b\x7b -1 -".toList, none⟩ : Action).doc true).render {} =
      "\x7b\x7b- x \x7b\x7b -1 - \x7d\x7d".toList := by decide +kernel
  have h := scan_render_action hmem rfl (by decide) (by decide) {}
  rw [hrender] at h
  exact h

end TemplateFormat
