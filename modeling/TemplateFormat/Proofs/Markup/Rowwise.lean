import TemplateFormat.Proofs.Doc.Joined
import TemplateFormat.Proofs.Markup.Again
import TemplateFormat.Proofs.Text.Rows

/-!
# Markup is laid out by its rows

Without preformatted elements, two markup texts that have the same rows are laid out as the same
document. What the layout puts for a markup text are its rows, each at a level
(`Begins.rows_eq`), and the lines that are put, without indentation, are laid out like the lines
they are put for. So the levels of the rows depend on nothing but the rows.

Results:
* `Begins.rows_eq`: what is put for the lines of a text are its rows.
* `Html.formatLines_congr`: texts with the same rows are laid out alike.
* `Html.exists_formatLines`: the document of a text, row by row.
* `Html.exists_format`: what is spliced for markup, whatever is like it.
-/

namespace TemplateFormat

open Text (even)

namespace Markup

/-- The row that is put. -/
def Put.row : Put → Bool × Text
  | line gap _ text => (gap, text)
  | kept text => (false, text)

/-- The rows that are put. -/
def putRows : Option (Text × List Put) → List (Bool × Text)
  | none => []
  | some (first, ps) => (false, first) :: ps.map Put.row

section Rows

variable {pending full : Bool} {ls : List (Bool × Text)} {ps : List Put}

theorem Puts.rows_eq (h : Puts pending full ls ps) (hls : ∀ l ∈ ls, l.1 = false) :
    ps.map Put.row = Rows.behind isBlank pending (ls.map Prod.snd) := by
  induction h with
  | nil => rfl
  | kept raw h ih => exact absurd (hls _ List.mem_cons_self) (by simp)
  | @blank pending full raw hraw ls ps h ih =>
    obtain ⟨-, hls⟩ := List.forall_mem_cons.mp hls
    have hall : raw.all isBlank = true := hraw
    rw [List.map_cons, Rows.behind, hall, ih hls]
    rfl
  | @line pending level raw hraw ls ps h ih =>
    obtain ⟨-, hls⟩ := List.forall_mem_cons.mp hls
    have hall : raw.all isBlank = false := hraw
    rw [List.map_cons, List.map_cons, Rows.behind, hall, ih hls]
    rfl

/-- **What is put for lines are their rows.** -/
theorem Begins.rows_eq {put : Option (Text × List Put)} (h : Begins ls put)
    (hls : ∀ l ∈ ls, l.1 = false) : putRows put = Rows.ofLines isBlank (ls.map Prod.snd) := by
  induction h with
  | nil => rfl
  | @blank raw hraw ls put h ih =>
    obtain ⟨-, hls⟩ := List.forall_mem_cons.mp hls
    have hall : raw.all isBlank = true := hraw
    rw [List.map_cons, Rows.ofLines, hall, ih hls]
    rfl
  | @first raw hraw ls ps h =>
    obtain ⟨-, hls⟩ := List.forall_mem_cons.mp hls
    have hall : raw.all isBlank = false := hraw
    rw [List.map_cons, Rows.ofLines, hall, putRows, h.rows_eq hls]
    rfl

end Rows

/-- A page without indentation. -/
def flushPage : Page := { tabWidth := 0 }

/-- Without indentation, the lines that are put are determined by the rows. -/
theorem putLines_congr {put put' : Option (Text × List Put)} (h : putRows put = putRows put') :
    putLines flushPage put = putLines flushPage put' := by
  have hline (p : Put) : p.lines flushPage = (if p.row.1 then [[]] else []) ++ [p.row.2] := by
    cases p with
    | line gap level text =>
      have hnone : flushPage.indentation level = [] := by simp [Page.indentation, flushPage]
      rw [Put.lines, hnone]
      rfl
    | kept text => rfl
  have hlines (ps : List Put) : ps.flatMap (Put.lines flushPage) =
      (ps.map Put.row).flatMap fun r => (if r.1 then [[]] else []) ++ [r.2] := by
    rw [List.flatMap_map]
    exact List.flatMap_congr fun p _ => hline p
  cases put with
  | none =>
    cases put' with
    | none => rfl
    | some x => exact absurd h (by simp [putRows])
  | some x =>
    cases put' with
    | none => exact absurd h (by simp [putRows])
    | some y =>
      obtain ⟨hfirst, hrest⟩ := List.cons.inj h
      show x.1 :: _ = y.1 :: _
      rw [hlines, hlines, show x.2.map Put.row = y.2.map Put.row from hrest,
        show x.1 = y.1 from congrArg Prod.snd hfirst]

namespace Html

/-- No tag of the markup opens a preformatted element. -/
def Plain (markup : Text) : Prop := ∀ tag ∈ tags (mask markup), tag.opensPreformatted = false

/-- **The document of a text, row by row**: what is put for the text are its rows. -/
theorem exists_formatLines {t : Text} (h : Plain t) : ∃ put,
    Begins (metLines t) put ∧ putRows put = Text.rows t ∧
      formatLines t = .join (putDocs put ++ [.hardline]) := by
  obtain ⟨put, hparts, hbegins⟩ := Layout.begins_addAll (atLines_start t) rfl rfl
  have hrows := hbegins.rows_eq (metLines_of_plain h)
  rw [show (Layout.met (start t) (flagged t).lines).map Prod.snd = Text.lines t from
    map_snd_metLines t] at hrows
  exact ⟨put, hbegins, hrows, by rw [formatLines_eq, hparts]⟩

/-- The lines without the levels of their rows. -/
theorem even_spaced_behind (ls : List Text) (gap : Bool) :
    even (spaced ls) = even (spaced ((Rows.behind isBlank gap ls).map Prod.snd)) := by
  induction ls generalizing gap with
  | nil => rfl
  | cons l ls ih =>
    rw [Rows.behind]
    cases hl : l.all isBlank with
    | true =>
      rw [even_spaced_blank hl, ih true]
      rfl
    | false => exact even_spaced_cons (trim_trim l).symm (ih false)

/-- **Up to its white space, a text is made of its rows.** -/
theorem even_rows (t : Text) : even t = even (spaced ((Text.rows t).map Prod.snd)) := by
  have hlines (ls : List Text) :
      even (spaced ls) = even (spaced ((Rows.ofLines isBlank ls).map Prod.snd)) := by
    induction ls with
    | nil => rfl
    | cons l ls ih =>
      rw [Rows.ofLines]
      cases hl : l.all isBlank with
      | true =>
        rw [even_spaced_blank hl, ih]
        rfl
      | false => exact even_spaced_cons (trim_trim l).symm (even_spaced_behind ls false)
  rw [Text.rows, ← hlines]
  exact (even_spaced_lines (List.forall₂_same.mpr fun l _ => ⟨[], [], rfl, rfl, by simp⟩)).symm

/-- **Texts with the same rows are laid out alike.** -/
theorem formatLines_congr {t t' : Text} (h : Plain t) (hrows : Text.rows t = Text.rows t') :
    Plain t' ∧ formatLines t = formatLines t' := by
  have heven : even t = even t' := by rw [even_rows, hrows, ← even_rows]
  have htags := rankedTags_congr (even_mask_congr heven)
  have h' : Plain t' := opensPreformatted_of_rankedTags htags h
  obtain ⟨put, hbegins, hput, hdoc⟩ := exists_formatLines h
  obtain ⟨put', hbegins', hput', hdoc'⟩ := exists_formatLines h'
  have hlines := putLines_congr (hput.trans (hrows.trans hput'.symm))
  have hparts {t : Text} {put : Option (Text × List Put)} (h : Plain t)
      (hbegins : Begins (metLines t) put) :
      (Layout.addRows { tags := rankedTags (mask t) }
        (rows (putLines flushPage put) (flagged t).solid)).parts =
          ((start t).addAll (flagged t).lines).parts := by
    rw [parts_addAll h, ← map_snd_metLines t, ← List.append_nil (putLines flushPage put)]
    exact hbegins.parts_addRows flushPage (metLines_of_plain h) (by simp) (settled_start _) rfl
      rfl _
  refine ⟨h', ?_⟩
  rw [formatLines_eq, formatLines_eq, ← hparts h hbegins, ← hparts h' hbegins', hlines, htags,
    solid_flagged_congr heven]

/-- No tag of the markup opens a preformatted element, whatever form its line ends have. -/
def Unformatted (markup : Text) : Prop := Plain (Text.replace ['\r', '\n'] ['\n'] markup)

instance (markup : Text) : Decidable (Unformatted markup) :=
  inferInstanceAs (Decidable (∀ tag ∈ tags _, _ = false))

theorem format_of_newline {embedded : Bool} {t : Text} (h : embedded = true → '\n' ∈ t) :
    format embedded t = formatLines (Text.replace ['\r', '\n'] ['\n'] t) :=
  format_eq_formatLines fun he => Text.newline_mem_replace_crlf.mpr (h he)

end Html

/-! ## The document that is spliced -/

/-- What is put is a line at a level with a text on it. -/
def Put.IsLine (p : Put) : Prop := ∃ gap level text, p = line gap level text ∧ text ≠ []

theorem Puts.isLine {pending full : Bool} {ls : List (Bool × Text)} {ps : List Put}
    (h : Puts pending full ls ps) (hls : ∀ l ∈ ls, l.1 = false) : ∀ p ∈ ps, p.IsLine := by
  induction h with
  | nil => exact fun p hp => absurd hp List.not_mem_nil
  | kept raw h ih => exact absurd (hls _ List.mem_cons_self) (by simp)
  | blank hraw h ih => exact ih (List.forall_mem_cons.mp hls).2
  | line level hraw h ih =>
    exact List.forall_mem_cons.mpr ⟨⟨_, level, _, rfl, (inked_trim hraw).ne_nil⟩,
      ih (List.forall_mem_cons.mp hls).2⟩

/-- The parts of the document of a line, in a sequence of lines. -/
def Put.parts (p : Put) : List Doc := p.docs.flatMap Doc.parts

namespace Layout

open Doc

theorem lineDoc_zero {text : Text} (h : text ≠ []) :
    lineDoc 0 text = .concat [.hardline, .text text] := by
  simp [lineDoc, nestBy, join, ofText, hardline, isEmpty, h]

theorem lineDoc_succ (level : Nat) (text : Text) :
    lineDoc (level + 1) text = .indent (lineDoc level text) := by
  show nest (lineDoc level text) = _
  rw [nest, Doc.isEmpty_lineDoc]
  rfl

theorem mergeText_lineDoc (level : Nat) {text : Text} (h : text ≠ []) :
    (lineDoc level text).mergeText = lineDoc level text := by
  induction level with
  | zero =>
    rw [lineDoc_zero h]
    simp [mergeText, mergeParts, Doc.parts, joinTexts, join, hardline, isEmpty, h]
  | succ level ih =>
    rw [lineDoc_succ, mergeText, ih]
    exact lineDoc_succ level text

/-- In a sequence the line break of a line comes first, and the texts of lines stand apart. -/
theorem parts_lineDoc (level : Nat) {text : Text} (h : text ≠ []) :
    (lineDoc level text).parts = [.hardline, .text text] ∨
      ∃ d, (lineDoc level text).parts = [.indent d] := by
  cases level with
  | zero =>
    rw [lineDoc_zero h]
    exact .inl rfl
  | succ level =>
    rw [lineDoc_succ]
    exact .inr ⟨_, rfl⟩

end Layout

end Markup

namespace Doc

open Markup (Put putDocs)
open Markup.Layout

theorem mergeParts_put {p : Put} (h : p.IsLine) : mergeParts p.docs = p.parts := by
  obtain ⟨gap, level, text, rfl, htext⟩ := h
  have hline : (hardline : Doc).mergeText = hardline := by rw [hardline, mergeText]
  cases gap with
  | false =>
    show mergeParts [lineDoc level text] = (lineDoc level text).parts ++ []
    rw [mergeParts, mergeParts, mergeText_lineDoc level htext]
  | true =>
    show mergeParts [hardline, lineDoc level text] = [hardline] ++
      ((lineDoc level text).parts ++ [])
    rw [mergeParts, mergeParts, mergeParts, mergeText_lineDoc level htext, hline]
    rfl

theorem mergeParts_append (ds es : List Doc) :
    mergeParts (ds ++ es) = mergeParts ds ++ mergeParts es := by
  induction ds with
  | nil => rw [List.nil_append, mergeParts, List.nil_append]
  | cons d ds ih => rw [List.cons_append, mergeParts, mergeParts, ih, List.append_assoc]

theorem mergeParts_puts {ps : List Put} (h : ∀ p ∈ ps, p.IsLine) :
    mergeParts (ps.flatMap Put.docs) = ps.flatMap Put.parts := by
  induction ps with
  | nil => rw [List.flatMap_nil, mergeParts, List.flatMap_nil]
  | cons p ps ih =>
    obtain ⟨hp, hps⟩ := List.forall_mem_cons.mp h
    rw [List.flatMap_cons, List.flatMap_cons, mergeParts_append, mergeParts_put hp, ih hps]

/-- The texts of lines stand apart: each has its line break before it. -/
theorem joined_puts {ps : List Put} (h : ∀ p ∈ ps, p.IsLine) :
    Joined (ps.flatMap Put.parts) ∧ ∀ e ∈ (ps.flatMap Put.parts).head?, e.isText = false := by
  induction ps with
  | nil => exact ⟨joined_nil, by simp⟩
  | cons p ps ih =>
    obtain ⟨⟨gap, level, text, rfl, htext⟩, hps⟩ := List.forall_mem_cons.mp h
    obtain ⟨hrest, hhead⟩ := ih hps
    -- a line, with what comes behind it
    have hline : Joined ((lineDoc level text).parts ++ ps.flatMap Put.parts) ∧
        ∀ e ∈ ((lineDoc level text).parts ++ ps.flatMap Put.parts).head?, e.isText = false := by
      rcases parts_lineDoc level htext with hparts | ⟨d, hparts⟩
      · rw [hparts]
        refine ⟨joined_cons_iff.mpr ⟨fun ht => absurd ht (by decide), ?_⟩, ?_⟩
        · exact joined_cons_iff.mpr ⟨fun _ => hhead, hrest⟩
        · rintro e ⟨⟩
          rfl
      · rw [hparts]
        refine ⟨joined_cons_iff.mpr ⟨fun ht => absurd ht (by simp [isText]), hrest⟩, ?_⟩
        rintro e ⟨⟩
        rfl
    rw [List.flatMap_cons]
    cases gap with
    | false =>
      show Joined (((lineDoc level text).parts ++ []) ++ _) ∧ _
      rw [show (Put.line false level text).parts = (lineDoc level text).parts ++ [] from rfl,
        List.append_nil]
      exact hline
    | true =>
      rw [show (Put.line true level text).parts =
        hardline :: ((lineDoc level text).parts ++ []) from rfl, List.append_nil, List.cons_append]
      refine ⟨joined_cons_iff.mpr ⟨fun ht => absurd ht (by decide), hline.1⟩, ?_⟩
      rintro e ⟨⟩
      rfl

theorem stripLast_concat_hardline (ds : List Doc) (h : ∀ d ∈ ds, d.isEmpty = false) :
    stripLast (ds ++ [hardline]) = ds ++ [empty] := by
  induction ds with
  | nil => rfl
  | cons d ds ih =>
    obtain ⟨hd, hds⟩ := List.forall_mem_cons.mp h
    have hshown : allEmpty (ds ++ [hardline]) = false := by
      rw [allEmpty_append]
      exact Bool.and_false _
    rw [List.cons_append, stripLast, hshown, ih hds]
    rfl

theorem isEmpty_put {p : Put} (h : p.IsLine) : ∀ d ∈ p.docs, d.isEmpty = false := by
  obtain ⟨gap, level, text, rfl, htext⟩ := h
  cases gap <;> simp [Put.docs, isEmpty_lineDoc, hardline, isEmpty]

theorem isEmpty_putDocs {first : Text} {ps : List Put} (hfirst : first ≠ [])
    (hps : ∀ p ∈ ps, p.IsLine) : ∀ d ∈ putDocs (some (first, ps)), d.isEmpty = false := by
  refine List.forall_mem_cons.mpr ⟨by simp [ofText, isEmpty, hfirst], fun d hd => ?_⟩
  obtain ⟨p, hp, hd⟩ := List.mem_flatMap.mp hd
  exact isEmpty_put (hps p hp) d hd

/-- The parts that print something, as they are. -/
theorem filter_shown {ds : List Doc} (h : ∀ d ∈ ds, d.isEmpty = false) :
    ds.filter (fun d => !d.isEmpty) = ds :=
  List.filter_eq_self.mpr fun d hd => by rw [h d hd]; rfl

theorem join_of_shown {ds : List Doc} (h : ∀ d ∈ ds, d.isEmpty = false) (hlen : 2 ≤ ds.length) :
    join ds = concat ds := by
  rw [join, filter_shown h]
  obtain _ | ⟨first, _ | ⟨second, rest⟩⟩ := ds
  · simp at hlen
  · simp at hlen
  · rfl

/-- **What is spliced is one sequence**: the first text, and the lines behind it. -/
theorem stripped_putDocs {first : Text} {ps : List Put} (hfirst : first ≠ [])
    (hps : ∀ p ∈ ps, p.IsLine) :
    (join (putDocs (some (first, ps)) ++ [hardline])).stripHardline.mergeText =
      join (text first :: ps.flatMap Put.parts) := by
  have hshown := isEmpty_putDocs hfirst hps
  have htext : ofText first = text first := if_neg (by simpa using hfirst)
  have hstrip : (join (putDocs (some (first, ps)) ++ [hardline])).stripHardline =
      join (putDocs (some (first, ps))) := by
    have hall : ∀ d ∈ putDocs (some (first, ps)) ++ [hardline], d.isEmpty = false := by
      intro d hd
      rcases List.mem_append.mp hd with hd | hd
      · exact hshown d hd
      · rw [List.mem_singleton.mp hd]
        rfl
    rw [join_of_shown hall (by simp [putDocs]), stripHardline, stripLast_concat_hardline _ hshown]
    simp only [join, List.filter_append]
    simp [isEmpty]
  have hjoined : Joined (text first :: ps.flatMap Put.parts) :=
    joined_cons_iff.mpr ⟨fun _ => (joined_puts hps).2, (joined_puts hps).1⟩
  rw [hstrip]
  cases ps with
  | nil =>
    have hone : join [text first] = text first := by
      rw [join, filter_shown (by simp [isEmpty, hfirst])]
    show (join [ofText first]).mergeText = join [text first]
    rw [htext, hone, mergeText]
  | cons p ps =>
    have hlen : 2 ≤ (putDocs (some (first, p :: ps))).length := by
      obtain ⟨⟨gap, level, text, rfl, -⟩, -⟩ := List.forall_mem_cons.mp hps
      simp only [putDocs, Put.docs, List.flatMap_cons, List.length_cons, List.length_append]
      omega
    rw [join_of_shown hshown hlen, mergeText, putDocs, htext, mergeParts, mergeParts_puts hps,
      mergeText]
    exact congrArg join (joinTexts_of_joined hjoined)

end Doc

namespace Markup

/-- What is put first is not empty, and lines are put behind it. -/
theorem Begins.isLine {ls : List (Bool × Text)} {put : Option (Text × List Put)}
    (h : Begins ls put) (hls : ∀ l ∈ ls, l.1 = false) :
    ∀ x ∈ put, x.1 ≠ [] ∧ ∀ p ∈ x.2, p.IsLine := by
  induction h with
  | nil => exact fun x hx => absurd hx (by simp)
  | blank hraw h ih => exact ih (List.forall_mem_cons.mp hls).2
  | first hraw h =>
    rintro x ⟨⟩
    exact ⟨(inked_trim hraw).ne_nil, h.isLine (List.forall_mem_cons.mp hls).2⟩

/-- **Markup that is formatted line by line**: what is spliced are its rows, each at a level, and
for other markup with the same rows the same is spliced. -/
theorem Html.exists_format {t : Text} (h : Unformatted t) (hrows : Text.rows t ≠ []) :
    ∃ (first : Text) (ps : List Put), first ≠ [] ∧ (∀ p ∈ ps, p.IsLine) ∧
      (false, first) :: ps.map Put.row = Text.rows t ∧
      ∀ (embedded : Bool) (t' : Text), Text.rows t' = Text.rows t → (embedded = true → '\n' ∈ t') →
        (format embedded t').stripHardline.mergeText =
          .join (.text first :: ps.flatMap Put.parts) := by
  obtain ⟨put, hbegins, hput, hdoc⟩ := exists_formatLines h
  rw [Text.rows_replace_crlf] at hput
  obtain _ | ⟨first, ps⟩ := put
  · exact absurd hput.symm hrows
  · obtain ⟨hfirst, hps⟩ := hbegins.isLine (metLines_of_plain h) _ rfl
    refine ⟨first, ps, hfirst, hps, hput, fun embedded t' ht' hline => ?_⟩
    have hsame : Text.rows (Text.replace ['\r', '\n'] ['\n'] t) =
        Text.rows (Text.replace ['\r', '\n'] ['\n'] t') := by
      rw [Text.rows_replace_crlf, Text.rows_replace_crlf, ht']
    rw [format_of_newline hline, ← (formatLines_congr h hsame).2, hdoc,
      Doc.stripped_putDocs hfirst hps]

end Markup

end TemplateFormat
