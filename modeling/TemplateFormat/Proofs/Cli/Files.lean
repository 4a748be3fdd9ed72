import TemplateFormat.Cli.Disk
import TemplateFormat.Cli.Run
import Mathlib.Data.List.Basic
import Mathlib.Logic.Function.Iterate

/-!
# Files that are formatted

The command formats files one after the other on a disk that it changes itself: the same file may
be listed twice, and then it is formatted twice. Only in write mode is anything changed, and then
only the content of files: no file or directory appears or vanishes (`Disk.SamePlaces`), so a path
leads to the same place all along.

A file is formatted in place by `refresh`: the output replaces the content, if the content is a
text that can be formatted, and else nothing is written. So a place holds its first content,
refreshed once for every listed path that leads to it, and whether an entry of the list can be
formatted depends on the entries before it (`contentAfter`).

Results:
* `Disk.SamePlaces.resolve_eq`: paths lead to the same places.
* `Disk.file?_write`: a write changes one place.
* `Cli.step_formatFile`: what the formatting of one file does.
* `Cli.run_formatFiles`: what the formatting of a list of files does.
* `Cli.formatPaths_safe`: the files, the output and the exit status of the command.
-/

namespace TemplateFormat

/-- Bytes that are read as a text are what the text is written as. -/
theorem encode_of_decode? {bytes : ByteArray} {t : Text} (h : decode? bytes = some t) :
    encode t = bytes := by
  obtain ⟨string, hstring, rfl⟩ := Option.map_eq_some_iff.mp h
  unfold String.fromUTF8? at hstring
  split at hstring
  · obtain rfl := Option.some.inj hstring
    rw [encode, String.ofList_toList]
    rfl
  · exact absurd hstring (by simp)

namespace Disk

/-! ## Places -/

/-- The disks have the same files and directories, whatever is in the files, and the same current
directory and standard input. -/
structure SamePlaces (d d' : Disk) : Prop where
  places : d'.files.map Prod.fst = d.files.map Prod.fst
  dirs : d'.dirs = d.dirs
  cwd : d'.cwd = d.cwd
  input : d'.input = d.input

/-- The path leads to the place. -/
def leadsTo (d : Disk) (q : Place) (path : Text) : Bool :=
  match d.resolve path with
  | .ok p => decide (p = q)
  | .error _ => false

theorem samePlaces_refl (d : Disk) : SamePlaces d d := ⟨rfl, rfl, rfl, rfl⟩

theorem isSome_lookup (p : Place) (fs : List (Place × ByteArray)) :
    (fs.lookup p).isSome = (fs.map Prod.fst).contains p := by
  induction fs with
  | nil => rfl
  | cons f fs ih =>
    rw [List.lookup_cons, List.map_cons, List.contains_cons]
    cases p == f.1 with
    | true => rfl
    | false => exact ih

namespace SamePlaces

variable {d d' d'' : Disk}

theorem trans (h : SamePlaces d d') (h' : SamePlaces d' d'') : SamePlaces d d'' :=
  ⟨h'.places.trans h.places, h'.dirs.trans h.dirs, h'.cwd.trans h.cwd, h'.input.trans h.input⟩

theorem isDirAt_eq (h : SamePlaces d d') (p : Place) : d'.isDirAt p = d.isDirAt p := by
  have hfiles (e : Disk) : (e.files.any fun f => isBelow p f.1) =
      (e.files.map Prod.fst).any (isBelow p) := by
    rw [List.any_map]
    rfl
  rw [isDirAt, isDirAt, h.dirs, hfiles, hfiles, h.places]

theorem isSome_file?_eq (h : SamePlaces d d') (p : Place) :
    (d'.file? p).isSome = (d.file? p).isSome := by
  rw [file?, file?, isSome_lookup, isSome_lookup, h.places]

theorem follow_eq (h : SamePlaces d d') (at' : Place) (parts : List Text) :
    d'.follow at' parts = d.follow at' parts := by
  induction parts generalizing at' with
  | nil => rfl
  | cons part rest ih =>
    rw [follow, follow, h.isDirAt_eq, h.isSome_file?_eq, ih, ih, ih]

/-- **Paths lead to the same places.** -/
theorem resolve_eq (h : SamePlaces d d') (path : Text) : d'.resolve path = d.resolve path := by
  unfold resolve
  split
  · exact h.follow_eq _ _
  · rw [h.cwd]
    exact h.follow_eq _ _

theorem leadsTo_eq (h : SamePlaces d d') : d'.leadsTo = d.leadsTo := by
  funext q path
  rw [leadsTo, leadsTo, h.resolve_eq]

end SamePlaces

/-! ## Reading and writing -/

theorem lookup_replace (p q : Place) (bytes : ByteArray) (fs : List (Place × ByteArray)) :
    (fs.map fun f => if f.1 = p then (p, bytes) else f).lookup q =
      if p = q then (fs.lookup q).map fun _ => bytes else fs.lookup q := by
  induction fs with
  | nil => simp
  | cons f fs ih =>
    rw [List.map_cons, List.lookup_cons, List.lookup_cons, ih]
    by_cases hf : f.1 = p
    · rw [if_pos hf, hf]
      by_cases hq : p = q
      · simp [hq]
      · simp [hq, beq_false_of_ne (Ne.symm hq)]
    · rw [if_neg hf]
      by_cases hq : p = q
      · have hne : (q == f.1) = false := beq_false_of_ne fun he => hf (he.symm.trans hq.symm)
        simp [hq, hne]
      · simp [hq]

theorem samePlaces_write (d : Disk) (path : Text) (bytes : ByteArray) :
    SamePlaces d (d.write path bytes) := by
  unfold write
  split
  · exact samePlaces_refl d
  · rename_i p _
    refine ⟨?_, rfl, rfl, rfl⟩
    rw [List.map_map]
    refine List.map_congr_left fun f _ => ?_
    show (if f.1 = p then (p, bytes) else f).1 = f.1
    split
    · rename_i hf
      exact hf.symm
    · rfl

/-- **A write changes one place.** -/
theorem file?_write {d : Disk} {path : Text} {p : Place} (h : d.resolve path = .ok p)
    (bytes : ByteArray) (q : Place) : (d.write path bytes).file? q =
      if p = q then (d.file? q).map fun _ => bytes else d.file? q := by
  unfold write
  rw [h]
  exact lookup_replace p q bytes d.files

/-- What is read at a path is the content of the place that it leads to. -/
theorem read_eq_ok_iff {d : Disk} {path : Text} {bytes : ByteArray} :
    d.read path = .ok bytes ↔ ∃ p, d.resolve path = .ok p ∧ d.file? p = some bytes := by
  unfold read
  cases d.resolve path with
  | error e => simp
  | ok p =>
    cases hp : d.file? p with
    | none => simp [hp]
    | some b => simp [hp]

theorem leadsTo_iff {d : Disk} {q : Place} {path : Text} :
    d.leadsTo q path = true ↔ d.resolve path = .ok q := by
  unfold leadsTo
  cases d.resolve path with
  | error e => simp
  | ok p => simp

end Disk

namespace Cli

/-! ## Refreshed files -/

/-- What the content of a file is formatted to, if it is a text that can be formatted. -/
def output? (s : Settings) (bytes : ByteArray) : Option Text :=
  (decode? bytes).bind fun source => (format s source).toOption

/-- The content of a file that was formatted in place: the output, or the content as it was if there
is none. -/
def refresh (s : Settings) (bytes : ByteArray) : ByteArray :=
  ((output? s bytes).map encode).getD bytes

variable {s : Settings} {mode : Mode} {d d' : Disk} {path : Text} {bytes : ByteArray}
  {source out : Text}

theorem output?_eq_some (hdecode : decode? bytes = some source)
    (hformat : format s source = .ok out) : output? s bytes = some out := by
  rw [output?, hdecode, Option.bind_some, hformat]
  rfl

theorem exists_of_output? (h : (d.read path).toOption.bind (output? s) = some out) :
    ∃ bytes source, d.read path = .ok bytes ∧ decode? bytes = some source ∧
      format s source = .ok out := by
  cases hread : d.read path with
  | error e =>
    rw [hread] at h
    exact absurd h (by simp [Except.toOption])
  | ok bytes =>
    have hsome : output? s bytes = some out := by rwa [hread] at h
    obtain ⟨source, hdecode, hout⟩ := Option.bind_eq_some_iff.mp hsome
    refine ⟨bytes, source, rfl, hdecode, ?_⟩
    cases hformat : format s source with
    | error e =>
      rw [hformat] at hout
      exact absurd hout (by simp [Except.toOption])
    | ok out' =>
      rw [hformat] at hout
      exact congrArg Except.ok (Option.some.inj hout)

theorem refresh_of_none (h : output? s bytes = none) : refresh s bytes = bytes := by
  rw [refresh, h]
  rfl

theorem refresh_of_some (h : output? s bytes = some out) : refresh s bytes = encode out := by
  rw [refresh, h]
  rfl

/-- The content of a place, if the path leads to it, refreshed. -/
def refreshedAt (s : Settings) (d : Disk) (path : Text) (q : Place) : Option ByteArray :=
  (d.file? q).map (refresh s)^[if d.leadsTo q path then 1 else 0]

/-- Nothing has to be written where nothing changes. -/
theorem refreshedAt_eq_file? (h : ∀ bytes, d.read path = .ok bytes → refresh s bytes = bytes)
    (q : Place) : refreshedAt s d path q = d.file? q := by
  unfold refreshedAt
  cases hq : d.file? q with
  | none => rfl
  | some bytes =>
    by_cases hpath : d.leadsTo q path = true
    · have hread := Disk.read_eq_ok_iff.mpr ⟨q, Disk.leadsTo_iff.mp hpath, hq⟩
      rw [if_pos hpath, Option.map_some, Function.iterate_one, h bytes hread]
    · rw [if_neg hpath]
      rfl

/-- **A file is refreshed by writing its output.** -/
theorem refreshedAt_eq_write (hread : d.read path = .ok bytes) (q : Place) :
    refreshedAt s d path q = (d.write path (refresh s bytes)).file? q := by
  obtain ⟨p, hresolve, hfile⟩ := Disk.read_eq_ok_iff.mp hread
  rw [refreshedAt, Disk.file?_write hresolve]
  by_cases hpq : p = q
  · subst hpq
    rw [if_pos (Disk.leadsTo_iff.mpr hresolve), if_pos rfl, hfile]
    rfl
  · have hpath : ¬ d.leadsTo q path = true := by
      rw [Disk.leadsTo_iff, hresolve]
      exact fun he => hpq (Except.ok.inj he)
    rw [if_neg hpath, if_neg hpq, Function.iterate_zero, Option.map_id_apply]

/-! ## One file -/

/-- What is printed for the file at a path. -/
def printed (s : Settings) (d : Disk) (path : Text) : Text :=
  ((d.read path).toOption.bind (output? s)).getD []

/-- The content is there, is a text, and can be formatted; in check mode it is its own output. -/
def Passes (s : Settings) (mode : Mode) (content : Option ByteArray) : Prop :=
  ∃ bytes source out, content = some bytes ∧ decode? bytes = some source ∧
    format s source = .ok out ∧ (mode = .check → out = source)

/-- Nothing was met so far that makes the command fail. -/
def Progress.Clear (mode : Mode) (p : Progress) : Prop :=
  p.failed = 0 ∧ (mode = .check → p.changed = 0)

theorem Progress.code_outcome (mode : Mode) (p : Progress) :
    (p.outcome mode).code = 0 ↔ p.Clear mode := by
  unfold outcome Clear
  by_cases hf : p.failed = 0
  · cases mode <;> simp [hf]
  · simp [hf, Nat.pos_of_ne_zero hf]

/-- What the formatting of the file at a path does to the disk and to the progress. -/
structure Step (s : Settings) (mode : Mode) (path : Text) (d : Disk) (p : Progress)
    (r : Progress × Disk) : Prop where
  same : d.SamePlaces r.2
  kept : mode ≠ .write → r.2 = d
  written : mode = .write → ∀ q, r.2.file? q = refreshedAt s d path q
  output : r.1.output = p.output ++ if mode = .print then printed s d path else []
  clear : r.1.Clear mode ↔ Passes s mode (d.read path).toOption ∧ p.Clear mode

/-- A file that cannot be read or formatted is left as it was. -/
theorem step_of_failed (p : Progress) (notices : List Notice)
    (h : (d.read path).toOption.bind (output? s) = none) :
    Step s mode path d p ({ p with notices, failed := p.failed + 1 }, d) where
  same := d.samePlaces_refl
  kept := fun _ => rfl
  written := by
    intro _ q
    refine (refreshedAt_eq_file? (fun bytes hread => refresh_of_none ?_) q).symm
    rwa [hread] at h
  output := by
    rw [printed, h]
    simp
  clear := by
    constructor
    · rintro ⟨hfailed, -⟩
      exact absurd hfailed (Nat.succ_ne_zero p.failed)
    · rintro ⟨⟨bytes, source, out, hcontent, hdecode, hformat, -⟩, -⟩
      rw [hcontent, Option.bind_some, output?_eq_some hdecode hformat] at h
      exact absurd h (by simp)

/-- A file that is formatted: its content is refreshed, also where it is not written. -/
theorem step_of_formatted (p : Progress) (notices : List Notice) (hread : d.read path = .ok bytes)
    (hdecode : decode? bytes = some source) (hformat : format s source = .ok out) :
    Step s mode path d p
      ({ p with
          output := p.output ++ (if mode = .print then out else [])
          notices
          changed := if out = source then p.changed else p.changed + 1 },
        if mode = .write ∧ out ≠ source then d.write path (encode out) else d) where
  same := by
    show d.SamePlaces (if mode = .write ∧ out ≠ source then d.write path (encode out) else d)
    split
    · exact d.samePlaces_write path _
    · exact d.samePlaces_refl
  kept := fun hmode => if_neg fun h => hmode h.1
  written := by
    intro hmode q
    have hrefresh := refresh_of_some (output?_eq_some hdecode hformat)
    show (if mode = .write ∧ out ≠ source then d.write path (encode out) else d).file? q = _
    by_cases hsame : out = source
    · rw [if_neg fun h => h.2 hsame]
      refine (refreshedAt_eq_file? (fun bytes' hread' => ?_) q).symm
      obtain rfl := Except.ok.inj (hread.symm.trans hread')
      rw [hrefresh, hsame]
      exact encode_of_decode? hdecode
    · rw [if_pos ⟨hmode, hsame⟩, ← hrefresh]
      exact (refreshedAt_eq_write hread q).symm
  output := by
    have hprinted : printed s d path = out := by
      rw [printed, hread]
      show (output? s bytes).getD [] = out
      rw [output?_eq_some hdecode hformat]
      rfl
    rw [hprinted]
  clear := by
    have hpasses : Passes s mode (d.read path).toOption ↔ (mode = .check → out = source) := by
      rw [hread]
      constructor
      · rintro ⟨bytes', source', out', hbytes, hdecode', hformat', hcheck⟩
        obtain rfl := Option.some.inj hbytes
        obtain rfl := Option.some.inj (hdecode.symm.trans hdecode')
        obtain rfl := Except.ok.inj (hformat.symm.trans hformat')
        exact hcheck
      · exact fun hcheck => ⟨bytes, source, out, rfl, hdecode, hformat, hcheck⟩
    rw [hpasses]
    unfold Progress.Clear
    by_cases hsame : out = source
    · simp [hsame]
    · cases mode <;> simp [hsame]

theorem run_read_bind {α : Type} (k : Except ReadFailure ByteArray → StateM Disk α) (path : Text)
    (d : Disk) : (Disk.host.read path >>= k).run d = (k (d.read path)).run d := rfl

theorem run_formatFile_of_failed (mode : Mode) (p : Progress)
    (h : (d.read path).toOption.bind (output? s) = none) : ∃ notices,
      (formatFile Disk.host s mode p path).run d =
        ({ p with notices, failed := p.failed + 1 }, d) := by
  unfold formatFile
  simp only [run_read_bind]
  cases hread : d.read path with
  | error e => exact ⟨_, rfl⟩
  | ok bytes =>
    have hnone : output? s bytes = none := by rwa [hread] at h
    cases hdecode : decode? bytes with
    | none =>
      simp only [textOf, hdecode]
      exact ⟨_, rfl⟩
    | some source =>
      simp only [textOf, hdecode]
      cases hformat : format s source with
      | error e => exact ⟨_, rfl⟩
      | ok out => exact absurd hnone (by simp [output?_eq_some hdecode hformat])

theorem run_formatFile_of_formatted (mode : Mode) (p : Progress) (hread : d.read path = .ok bytes)
    (hdecode : decode? bytes = some source) (hformat : format s source = .ok out) : ∃ notices,
      (formatFile Disk.host s mode p path).run d =
        ({ p with
            output := p.output ++ (if mode = .print then out else [])
            notices
            changed := if out = source then p.changed else p.changed + 1 },
          if mode = .write ∧ out ≠ source then d.write path (encode out) else d) := by
  simp only [formatFile, run_read_bind, hread, textOf, hdecode, hformat]
  cases mode with
  | print => exact ⟨p.notices, by simp; rfl⟩
  | write =>
    by_cases hsame : out = source
    · exact ⟨p.notices, by simp [hsame]; rfl⟩
    · exact ⟨p.notices, by simp [hsame]; rfl⟩
  | check =>
    by_cases hsame : out = source
    · exact ⟨p.notices, by simp [hsame]; rfl⟩
    · exact ⟨p.notices ++ [.wouldReformat (String.ofList path)], by simp [hsame]; rfl⟩

/-- **What the formatting of one file does.** -/
theorem step_formatFile (s : Settings) (mode : Mode) (p : Progress) (path : Text) (d : Disk) :
    Step s mode path d p ((formatFile Disk.host s mode p path).run d) := by
  cases h : (d.read path).toOption.bind (output? s) with
  | none =>
    obtain ⟨notices, hrun⟩ := run_formatFile_of_failed mode p h
    rw [hrun]
    exact step_of_failed p notices h
  | some out =>
    obtain ⟨bytes, source, hread, hdecode, hformat⟩ := exists_of_output? h
    obtain ⟨notices, hrun⟩ := run_formatFile_of_formatted mode p hread hdecode hformat
    rw [hrun]
    exact step_of_formatted p notices hread hdecode hformat

/-! ## Lists of files -/

/-- The content of the file at a path once the files `before` have been formatted, one after the
other. -/
def contentAfter (s : Settings) (mode : Mode) (d : Disk) (before : List Text) (path : Text) :
    Option ByteArray :=
  match d.resolve path with
  | .error _ => none
  | .ok q =>
    if mode = .write then (d.file? q).map (refresh s)^[before.countP (d.leadsTo q)] else d.file? q

theorem contentAfter_nil (s : Settings) (mode : Mode) (d : Disk) (path : Text) :
    contentAfter s mode d [] path = (d.read path).toOption := by
  unfold contentAfter Disk.read
  cases d.resolve path with
  | error e => rfl
  | ok q =>
    cases hq : d.file? q with
    | none => simp [hq, Except.toOption]
    | some bytes => simp [hq, Except.toOption]

/-- A place that was refreshed for one path is refreshed for those that follow. -/
theorem refreshed_cons (hsame : d.SamePlaces d') {q : Place}
    (hq : d'.file? q = refreshedAt s d path q) (files : List Text) :
    (d'.file? q).map (refresh s)^[files.countP (d'.leadsTo q)] =
      (d.file? q).map (refresh s)^[(path :: files).countP (d.leadsTo q)] := by
  rw [hsame.leadsTo_eq, hq, refreshedAt, Option.map_map, ← Function.iterate_add, List.countP_cons]

/-- The first file is formatted before the others. -/
theorem contentAfter_cons {p : Progress} {r : Progress × Disk} (h : Step s mode path d p r)
    (before : List Text) (path' : Text) :
    contentAfter s mode r.2 before path' = contentAfter s mode d (path :: before) path' := by
  unfold contentAfter
  rw [h.same.resolve_eq]
  cases d.resolve path' with
  | error e => rfl
  | ok q =>
    by_cases hmode : mode = .write
    · simp only [hmode, if_true]
      exact refreshed_cons h.same (h.written hmode q) before
    · simp only [hmode, if_false, h.kept hmode]

/-- What the formatting of a list of files does to the disk and to the progress. -/
structure Run (s : Settings) (mode : Mode) (files : List Text) (d : Disk) (p : Progress)
    (r : Progress × Disk) : Prop where
  same : d.SamePlaces r.2
  kept : mode ≠ .write → r.2 = d
  written : mode = .write → ∀ q,
    r.2.file? q = (d.file? q).map (refresh s)^[files.countP (d.leadsTo q)]
  output : r.1.output = p.output ++ if mode = .print then files.flatMap (printed s d) else []
  clear : r.1.Clear mode ↔ p.Clear mode ∧ ∀ before path after, files = before ++ path :: after →
    Passes s mode (contentAfter s mode d before path)

/-- One file, and then the others. -/
theorem Run.cons {files : List Text} {p : Progress} {r r' : Progress × Disk}
    (h : Step s mode path d p r) (h' : Run s mode files r.2 r.1 r') :
    Run s mode (path :: files) d p r' where
  same := h.same.trans h'.same
  kept := fun hmode => (h'.kept hmode).trans (h.kept hmode)
  written := fun hmode q =>
    (h'.written hmode q).trans (refreshed_cons h.same (h.written hmode q) files)
  output := by
    rw [h'.output, h.output, List.append_assoc]
    by_cases hmode : mode = .print
    · simp only [hmode, if_true, List.flatMap_cons]
      rw [h.kept (by simp [hmode])]
    · simp [hmode]
  clear := by
    rw [h'.clear, h.clear, ← contentAfter_nil]
    simp only [contentAfter_cons h]
    constructor
    · rintro ⟨⟨hfirst, hp⟩, hrest⟩
      refine ⟨hp, fun before path' after he => ?_⟩
      cases before with
      | nil =>
        obtain ⟨rfl, -⟩ := List.cons.inj he
        exact hfirst
      | cons b before =>
        obtain ⟨rfl, hfiles⟩ := List.cons.inj he
        exact hrest before path' after hfiles
    · rintro ⟨hp, hall⟩
      exact ⟨⟨hall [] path files rfl, hp⟩, fun before path' after he =>
        hall (path :: before) path' after (by rw [he]; rfl)⟩

/-- **What the formatting of a list of files does**, by induction on the list. -/
theorem run_formatFiles (s : Settings) (mode : Mode) (files : List Text) (p : Progress) (d : Disk) :
    Run s mode files d p ((formatFiles Disk.host s mode p files).run d) := by
  induction files generalizing p d with
  | nil =>
    refine ⟨d.samePlaces_refl, fun _ => rfl, fun _ q => ?_, ?_, ?_⟩
    · show d.file? q = (d.file? q).map id
      rw [Option.map_id_apply]
    · show p.output = p.output ++ _
      simp
    · show p.Clear mode ↔ _
      simp
  | cons path files ih =>
    exact Run.cons (step_formatFile s mode p path d) (ih _ _)

theorem run_isDir_bind {α : Type} (k : Bool → StateM Disk α) (path : Text) (d : Disk) :
    (Disk.host.isDir path >>= k).run d = (k (d.isDir path)).run d := rfl

/-- Collecting files changes nothing. -/
theorem run_collect (paths : List Text) (d : Disk) :
    ((collect Disk.host paths).run d).2 = d := by
  induction paths with
  | nil => rfl
  | cons path paths ih =>
    simp only [collect, run_isDir_bind]
    split
    · exact ih
    · exact ih

/-- **Files are safe.** Only in write mode is anything changed, and then only the content of files:
a place holds what it held, refreshed once for each listed path that leads to it. In print mode the
outputs are printed in the order of the list. The command succeeds exactly if every listed file
could be read and formatted when its turn came and, in check mode, was its own output. -/
theorem formatPaths_safe (s : Settings) (mode : Mode) (paths : List Text) (d : Disk) :
    let files := ((collect Disk.host paths).run d).1
    let r := (formatPaths Disk.host s mode paths).run d
    d.SamePlaces r.2 ∧ (mode ≠ .write → r.2 = d) ∧
      (mode = .write → ∀ q,
        r.2.file? q = (d.file? q).map (refresh s)^[files.countP (d.leadsTo q)]) ∧
      r.1.output = (if mode = .print then files.flatMap (printed s d) else []) ∧
      (r.1.code = 0 ↔ ∀ before path after, files = before ++ path :: after →
        Passes s mode (contentAfter s mode d before path)) := by
  intro files r
  have hrun : r = (((formatFiles Disk.host s mode {} files).run d).1.outcome mode,
      ((formatFiles Disk.host s mode {} files).run d).2) := by
    let d' := ((collect Disk.host paths).run d).2
    have hd' : d' = d := run_collect paths d
    show (((formatFiles Disk.host s mode {} files).run d').1.outcome mode,
      ((formatFiles Disk.host s mode {} files).run d').2) = _
    rw [hd']
  have h := run_formatFiles s mode files {} d
  rw [hrun]
  refine ⟨h.same, h.kept, h.written, h.output, ?_⟩
  rw [Progress.code_outcome, h.clear]
  simp [Progress.Clear]

/-- A file that is listed under two names is formatted twice, and one that is not listed is left as
it was. -/
theorem formatPaths_safe_twice :
    let d : Disk := { files := [(["a".toList], encode "{{x}}".toList), (["b".toList], encode [])] }
    let r := (formatPaths Disk.host {} .write ["a".toList, "./a".toList]).run d
    r.2.file? ["a".toList] = some (refresh {} (refresh {} (encode "{{x}}".toList))) ∧
      r.2.file? ["b".toList] = some (encode []) := by
  intro d r
  obtain ⟨-, -, hwritten, -⟩ := formatPaths_safe {} .write ["a".toList, "./a".toList] d
  exact ⟨hwritten rfl ["a".toList], hwritten rfl ["b".toList]⟩

end Cli

end TemplateFormat
