import TemplateFormat.Proofs.Markup.Puts
import TemplateFormat.Proofs.Print.OneLine

/-!
# The lines of a region that is kept as written

A region that is kept as written is printed line by line between its two actions. The breaks before
its lines are never left out. The break before the closing action is an ordinary one, and is left
out behind a blank line that follows a line break: where the lines of the region end with two blank
lines, the second of them is lost. `Printer.regionLines` are the lines that stay.

Results:
* `Render.endsBlank_unlines`: when lines that are printed end with a blank line.
* `Printer.lines_ignoredRegion`: the lines of the output, for every body.
* `Printer.region_loses_line`: a body that loses a blank line.
-/

namespace TemplateFormat

/-! ## Lines and their ends -/

namespace Text

theorem getLast?_ne_newline {l : Text} (h : '\n' ∉ l) : l.getLast? ≠ some '\n' :=
  fun hlast => h (List.mem_of_getLast? hlast)

/-- Lines end with a line feed exactly if the last of them is empty. -/
theorem getLast?_unlines {first : Text} {ls : List Text} (hfirst : '\n' ∉ first)
    (h : ∀ l ∈ ls, '\n' ∉ l) :
    (unlines (first :: ls)).getLast? = some '\n' ↔ ls.getLast? = some [] := by
  rcases List.eq_nil_or_concat ls with rfl | ⟨init, l, rfl⟩
  · simpa [unlines] using getLast?_ne_newline hfirst
  · rw [List.concat_eq_append, unlines_concat, List.getLast?_append]
    have hl : '\n' ∉ l := h l (by simp)
    cases l with
    | nil => simp
    | cons c cs =>
      have hne := getLast?_ne_newline hl
      rw [List.getLast?_cons_cons]
      cases hlast : (c :: cs).getLast? with
      | none => simp at hlast
      | some d => simpa [hlast] using hne

end Text

namespace Render

theorem endsBlank_iff {t : Text} :
    Output.endsBlank t = true ↔ ∃ rest, t = '\n' :: '\n' :: rest := by
  unfold Output.endsBlank
  split
  · rename_i rest
    exact iff_of_true rfl ⟨rest, rfl⟩
  · rename_i hne
    exact iff_of_false Bool.false_ne_true fun ⟨rest, ht⟩ => hne rest ht

theorem endsBlank_newline (t : Text) :
    Output.endsBlank ('\n' :: t.reverse) = true ↔ t.getLast? = some '\n' := by
  rw [endsBlank_iff, ← List.head?_reverse, List.head?_eq_some_iff]
  simp

theorem two_blanks_suffix {ls : List Text} {l : Text} :
    [[], []] <:+ ls ++ [l] ↔ ls.getLast? = some [] ∧ l = [] := by
  rw [List.suffix_concat_iff, ← List.singleton_suffix_iff_getLast?_eq_some]
  constructor
  · rintro (h | ⟨init, h, hsuffix⟩)
    · exact absurd h (List.cons_ne_nil _ _)
    · obtain ⟨rfl, hl⟩ := List.append_inj' (show [[]] ++ [[]] = init ++ [l] from h) rfl
      exact ⟨hsuffix, (List.singleton_inj.mp hl).symm⟩
  · rintro ⟨hsuffix, rfl⟩
    exact .inr ⟨[[]], rfl, hsuffix⟩

/-- **Printed lines end with a blank line** exactly if the last two of them are empty. -/
theorem endsBlank_unlines {first : Text} {ls : List Text} (hfirst : '\n' ∉ first)
    (h : ∀ l ∈ ls, '\n' ∉ l) :
    Output.endsBlank (Text.unlines (first :: ls)).reverse = true ↔ [[], []] <:+ ls := by
  rcases List.eq_nil_or_concat ls with rfl | ⟨init, l, rfl⟩
  · refine iff_of_false (fun hblank => hfirst ?_) (by simp)
    obtain ⟨rest, hrest⟩ := endsBlank_iff.mp hblank
    rw [← List.mem_reverse, show first.reverse = _ from hrest]
    exact List.mem_cons_self
  · rw [List.concat_eq_append] at h ⊢
    have hinit : ∀ m ∈ init, '\n' ∉ m := fun m hm => h m (List.mem_append_left _ hm)
    rw [Text.unlines_concat, two_blanks_suffix]
    rcases List.eq_nil_or_concat l with rfl | ⟨cs, c, rfl⟩
    · rw [List.reverse_append, List.reverse_singleton, List.singleton_append, endsBlank_newline,
        Text.getLast?_unlines hfirst hinit, and_iff_left rfl]
    · refine iff_of_false (fun hblank => ?_) (by simp)
      obtain ⟨rest, hrest⟩ := endsBlank_iff.mp hblank
      have hc : c = '\n' := by simpa using congrArg List.head? hrest
      exact h _ (List.mem_append_right init List.mem_cons_self) (by simp [hc])

end Render

/-! ## The region -/

namespace Printer

open Render
open Markup (Put Puts putDocs)

/-- The lines that a region leaves in the output: of two blank lines at its end the last is lost. -/
def regionLines (body : Text) : List Text :=
  let kept := ignoredLines body
  if [[], []] <:+ kept then kept.dropLast else kept

theorem trimEnd_of_mem_ignoredLines {body l : Text} (h : l ∈ ignoredLines body) :
    Text.trimEnd l = l := by
  obtain ⟨line, -, rfl⟩ := exists_of_mem_ignoredLines h
  have hend := Text.trimEnd_append (b := []) rfl (Text.last_trimEnd line)
  rwa [List.append_nil] at hend

/-- The lines of a region are put as lines inside a preformatted element are. -/
theorem puts_kept : ∀ {ls : List Text}, (∀ l ∈ ls, Text.trimEnd l = l) → ∀ full : Bool,
    Puts false full (ls.map (Prod.mk true)) (ls.map Put.kept)
  | [], _, _ => .nil
  | l :: ls, h, full => by
    rw [List.forall_mem_cons] at h
    have hkept : Puts false full ((true, l) :: ls.map (Prod.mk true))
        (.kept (Text.trimEnd l) :: ls.map Put.kept) := .kept l (puts_kept h.2 _)
    rwa [h.1] at hkept

theorem ignoredRegion_eq {start : Text} (hne : start ≠ []) (body stop : Text) :
    ignoredRegion (.text start) body (.text stop) =
      .join (putDocs (some (start, (ignoredLines body).map Put.kept)) ++
        [.hardline] ++ [.text stop]) := by
  have hstart : Doc.ofText start = .text start := if_neg (by simpa using hne)
  rw [ignoredRegion, putDocs, List.flatMap_map, hstart, List.append_assoc]
  rfl

theorem propagate_ignoredRegion {start : Text} (hne : start ≠ []) (body stop : Text) :
    (ignoredRegion (.text start) body (.text stop)).propagate =
      ignoredRegion (.text start) body (.text stop) := by
  rw [ignoredRegion_eq hne]
  refine Doc.propagate_join fun d hd => ?_
  rcases List.mem_append.mp hd with hd | hd
  · rcases List.mem_append.mp hd with hd | hd
    · exact Doc.propagate_mem_putDocs d hd
    · rw [List.mem_singleton.mp hd, Doc.hardline, Doc.propagate]
  · rw [List.mem_singleton.mp hd, Doc.propagate]

/-- What the break before the closing action leaves. -/
theorem hardline_region (page : Page) {start : Text} (hstart : '\n' ∉ start) (body : Text)
    {full : Bool} {o : Output} (ho : Ready full o)
    (hchars : o.chars = (Text.unlines (start :: ignoredLines body)).reverse) :
    (o.newline page 0 true).chars = '\n' :: (Text.unlines (start :: regionLines body)).reverse := by
  have hblank := endsBlank_unlines hstart (newline_notMem_ignoredLines body)
  rw [hardline_of_ready page ho, hchars, regionLines]
  by_cases hsuffix : [[], []] <:+ ignoredLines body
  · obtain ⟨init, hinit⟩ := hsuffix
    rw [if_pos (hblank.mpr ⟨init, hinit⟩), if_pos ⟨init, hinit⟩, ← hinit,
      show init ++ [[], []] = init ++ [[]] ++ [[]] by simp, List.dropLast_concat,
      Text.unlines_concat, List.reverse_append]
    rfl
  · rw [if_neg (mt hblank.mp hsuffix), if_neg hsuffix]

/-- **The rendering of a region**: the lines that stay, with line feeds between them. -/
theorem render_ignoredRegion (page : Page) (body : Text) {start stop : Text} (hstart : '\n' ∉ start)
    (hfirst : Inked start.reverse) (hlast : Inked stop.reverse) :
    (ignoredRegion (.text start) body (.text stop)).render page =
      Text.unlines (start :: (regionLines body ++ [stop])) := by
  have hne := hfirst.ne_nil
  have hkept : ∀ l ∈ ignoredLines body, Text.trimEnd l = l := fun l => trimEnd_of_mem_ignoredLines
  -- The lines are printed, then the break before the closing action, then the closing action.
  obtain ⟨o, full, hrun, hchars, ho⟩ := run_puts page
    [⟨0, .broken, .hardline⟩, ⟨0, .broken, .text stop⟩] (puts_kept hkept true)
    (o := (⟨[], 0⟩ : Output).write start) ((hfirst.append []).ready true)
  have hlines : o.chars = (Text.unlines (start :: ignoredLines body)).reverse := by
    rw [hchars, List.flatMap_map, Text.unlines_cons_eq]
    simp [behind, Put.lines, Output.write]
  have hwhole : run page [⟨0, .broken, (ignoredRegion (.text start) body (.text stop)).propagate⟩]
      ⟨[], 0⟩ = (o.newline page 0 true).write stop := by
    have hstop : (Doc.text stop).isEmpty = false := by simp [Doc.isEmpty, hlast.ne_nil]
    have hcommands : commands 0 .broken ((putDocs (some (start, (ignoredLines body).map Put.kept)) ++
        [Doc.hardline] ++ [Doc.text stop]).filter fun d => !d.isEmpty) =
        ⟨0, .broken, .text start⟩ :: (((ignoredLines body).map Put.kept).flatMap putCommands ++
          [⟨0, .broken, .hardline⟩, ⟨0, .broken, .text stop⟩]) := by
      rw [List.filter_append, commands, List.map_append]
      refine (congrArg (· ++ _) (Doc.commands_putDocs hne _)).trans ?_
      simp [hstop]
    rw [propagate_ignoredRegion hne, ignoredRegion_eq hne, run_join, hcommands, List.append_nil]
    refine (run_cons page _ _ _).trans (hrun.trans ?_)
    refine (run_cons page _ _ _).trans ((run_cons page _ _ _).trans ?_)
    show run page [] ((o.newline page 0 true).write stop) = _
    rw [run]
  have hsettled : (stop.reverse ++ (o.newline page 0 true).chars).dropWhile isSpace =
      stop.reverse ++ (o.newline page 0 true).chars :=
    ((hlast.append _).ready (o := (o.newline page 0 true).write stop) true).settled
  rw [Doc.render]
  simp only [hwhole, Output.write, hsettled]
  rw [hardline_region page hstart body ho hlines, Text.unlines_concat]
  simp

theorem newline_notMem_regionLines (body : Text) : ∀ l ∈ regionLines body, '\n' ∉ l := by
  intro l hl
  rw [regionLines] at hl
  split at hl
  · exact newline_notMem_ignoredLines body l (List.mem_of_mem_dropLast hl)
  · exact newline_notMem_ignoredLines body l hl

/-- **The lines of a region that is kept as written**: between the two actions stand the lines of
the body unchanged, but of two blank lines at its end the last is lost. -/
theorem lines_ignoredRegion (page : Page) (body : Text) {start stop : Text}
    (hstart : '\n' ∉ start) (hsome : Text.isBlank start = false) (htrim : Text.trim start = start)
    (hstop : '\n' ∉ stop) (hsome' : Text.isBlank stop = false) (htrim' : Text.trim stop = stop) :
    Text.lines ((ignoredRegion (.text start) body (.text stop)).render page) =
      start :: (regionLines body ++ [stop]) := by
  have hfirst := Markup.inked_trim hsome
  have hlast := Markup.inked_trim hsome'
  rw [htrim] at hfirst
  rw [htrim'] at hlast
  rw [render_ignoredRegion page body hstart hfirst hlast]
  refine Text.lines_unlines (List.cons_ne_nil _ _) ?_
  rw [List.forall_mem_cons, List.forall_mem_append, List.forall_mem_singleton]
  exact ⟨hstart, newline_notMem_regionLines body, hstop⟩

/-- Blank lines inside a region stay, and so does one at its end. -/
theorem lines_ignoredRegion_blanks :
    let start := "{{ prettier-ignore-start }}".toList
    let stop := "{{ prettier-ignore-end }}".toList
    let body := "\n  <p>\n\n\n  x  \n\n".toList
    regionLines body = ["  <p>".toList, [], [], "  x".toList, []] ∧
      Text.lines ((ignoredRegion (.text start) body (.text stop)).render {}) =
        start :: (regionLines body ++ [stop]) := by
  intro start stop body
  exact ⟨by decide, lines_ignoredRegion {} body (by decide) (by decide) (by decide) (by decide)
    (by decide) (by decide)⟩

/-- **A region loses a blank line**: its body ends with two of them. -/
theorem region_loses_line :
    let start := "{{ prettier-ignore-start }}".toList
    let stop := "{{ prettier-ignore-end }}".toList
    let body := "\na\n\n\n".toList
    start :: (ignoredLines body ++ [stop]) = [start, ['a'], [], [], stop] ∧
      Text.lines ((ignoredRegion (.text start) body (.text stop)).render {}) =
        [start, ['a'], [], stop] :=
  ⟨by decide, by decide +kernel⟩

end Printer

end TemplateFormat
