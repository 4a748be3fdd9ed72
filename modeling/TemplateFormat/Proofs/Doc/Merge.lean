import TemplateFormat.Proofs.Doc.After
import TemplateFormat.Doc.Render

/-!
# Joining texts changes no output

The renderer takes documents off a stack, and where it meets a group it looks ahead through the
stack. The same is said here of a document at a time: `fitsThen` is whether a document fits, given
whether what follows it fits (`after`), and `printThen` is what it prints, given the same. So how a
document is cut into parts on the stack does not matter.

Two documents are the `Same` if they fit and print alike whatever follows them. A sequence is the
same without the parts that print nothing, with its texts joined and with nested sequences made
flat. Marking the groups that must break comes before that, and it sees what joining leaves out: a
broken group that prints nothing breaks the groups around it. So there must be none of these
(`breaksShown`).

Results:
* `Render.fits_eq_stackFits`, `Render.run_eq_stackPrint`: the renderer, a document at a time.
* `same_mergeText`: a document and its merged form.
* `propagate_mergeText`: marking groups and joining texts, in either order.
* `render_mergeText`: the output is the same.
-/

namespace TemplateFormat

namespace Render

/-! ## One document at a time -/

mutual

/-- Whether a document fits into a number of columns, up to the next new line; `after` says so of
what follows the document. -/
def fitsThen (mode : Mode) : Doc → (Int → Bool) → Int → Bool
  | .empty, after => after
  | .text t, after => fun room => after (room - t.length)
  | .concat docs, after => fitsAllThen mode docs after
  | .indent doc, after => fitsThen mode doc after
  | .group doc broken, after => fitsThen (if broken then .broken else mode) doc after
  | .line kind, after => fun room =>
    if mode = .broken || kind.isForced then 0 ≤ room
    else after (if kind = .normal then room - 1 else room)

/-- Whether documents fit, one after the other. -/
def fitsAllThen (mode : Mode) : List Doc → (Int → Bool) → Int → Bool
  | [], after => after
  | d :: ds, after => fitsThen mode d (fitsAllThen mode ds after)

end

/-- The mode for the contents of a group, given whether they fit if they are flat. -/
def modeThen (mode : Mode) (broken : Bool) (fit : Bool) : Mode :=
  if broken then .broken
  else
    match mode with
    | .flat => .flat
    | .broken => if fit then .flat else .broken

mutual

/-- What a document adds to the output; `after` says what fits behind the document. -/
def printThen (page : Page) (indent : Nat) (mode : Mode) : Doc → (Int → Bool) → Output → Output
  | .empty, _ => id
  | .text t, _ => Output.write t
  | .concat docs, after => printAllThen page indent mode docs after
  | .indent doc, after => printThen page (indent + 1) mode doc after
  | .group doc broken, after => fun out =>
    let fit := fitsThen .flat doc after (page.room out.column)
    printThen page indent (modeThen mode broken fit) doc after out
  | .line kind, _ => lineBreak page indent mode kind

/-- What documents add to the output, one after the other. -/
def printAllThen (page : Page) (indent : Nat) (mode : Mode) :
    List Doc → (Int → Bool) → Output → Output
  | [], _ => id
  | d :: ds, after =>
    printAllThen page indent mode ds after ∘
      printThen page indent mode d (fitsAllThen mode ds after)

end

/-- Whether a stack fits. -/
def stackFits : List Command → Int → Bool
  | [] => fun room => 0 ≤ room
  | c :: rest => fitsThen c.mode c.doc (stackFits rest)

/-- What a stack adds to the output. -/
def stackPrint (page : Page) : List Command → Output → Output
  | [] => id
  | c :: rest => stackPrint page rest ∘ printThen page c.indent c.mode c.doc (stackFits rest)

theorem stackFits_commands (indent : Nat) (mode : Mode) (ds : List Doc) (rest : List Command) :
    stackFits (commands indent mode ds ++ rest) = fitsAllThen mode ds (stackFits rest) := by
  induction ds with
  | nil =>
    rw [fitsAllThen]
    rfl
  | cons d ds ih =>
    rw [fitsAllThen, ← ih]
    rfl

theorem stackPrint_commands (page : Page) (indent : Nat) (mode : Mode) (ds : List Doc)
    (rest : List Command) : stackPrint page (commands indent mode ds ++ rest) =
      stackPrint page rest ∘ printAllThen page indent mode ds (stackFits rest) := by
  induction ds with
  | nil =>
    rw [printAllThen]
    rfl
  | cons d ds ih =>
    rw [printAllThen, ← Function.comp_assoc, ← ih, ← stackFits_commands indent]
    rfl

mutual

/-- Nothing fits into less than no columns. -/
theorem fitsThen_of_neg {after : Int → Bool} (hafter : ∀ room < 0, after room = false)
    (mode : Mode) {room : Int} (h : room < 0) : ∀ d : Doc, fitsThen mode d after room = false
  | .empty => by rw [fitsThen, hafter room h]
  | .text t => by
    rw [fitsThen]
    exact hafter _ (by omega)
  | .concat ds => by
    rw [fitsThen]
    exact fitsAllThen_of_neg hafter mode h ds
  | .indent d => by
    rw [fitsThen]
    exact fitsThen_of_neg hafter mode h d
  | .group d broken => by
    rw [fitsThen]
    exact fitsThen_of_neg hafter _ h d
  | .line kind => by
    rw [fitsThen]
    split
    · exact decide_eq_false (Int.not_le.mpr h)
    · exact hafter _ (by split <;> omega)

theorem fitsAllThen_of_neg {after : Int → Bool} (hafter : ∀ room < 0, after room = false)
    (mode : Mode) {room : Int} (h : room < 0) :
    ∀ ds : List Doc, fitsAllThen mode ds after room = false
  | [] => by rw [fitsAllThen, hafter room h]
  | d :: ds => by
    rw [fitsAllThen]
    exact fitsThen_of_neg (fun r hr => fitsAllThen_of_neg hafter mode hr ds) mode h d

end

theorem stackFits_of_neg (stack : List Command) {room : Int} (h : room < 0) :
    stackFits stack room = false := by
  induction stack generalizing room with
  | nil => exact decide_eq_false (Int.not_le.mpr h)
  | cons c rest ih => exact fitsThen_of_neg (fun _ hr => ih hr) c.mode h c.doc

/-- **What fits, a document at a time**, by induction on the simulation. -/
theorem fits_eq_stackFits (room : Int) (stack : List Command) :
    fits room stack = stackFits stack room := by
  fun_induction fits room stack with
  | case1 room stack hroom => rw [stackFits_of_neg stack hroom]
  | case2 room hroom => exact (decide_eq_true (Int.not_lt.mp hroom)).symm
  | case3 room hroom indent mode rest ih => rw [ih, stackFits, fitsThen]
  | case4 room hroom indent mode rest t ih => rw [ih, stackFits, fitsThen]
  | case5 room hroom indent mode rest ds ih => rw [ih, stackFits_commands, stackFits, fitsThen]
  | case6 room hroom indent mode rest d ih => rw [ih, stackFits, stackFits, fitsThen]
  | case7 room hroom indent mode rest d broken ih =>
    rw [stackFits, fitsThen]
    exact ih
  | case8 room hroom indent mode rest kind hbreak =>
    rw [stackFits, fitsThen]
    exact (decide_eq_true (Int.not_lt.mp hroom)).symm.trans (if_pos hbreak).symm
  | case9 room hroom indent mode rest kind hbreak ih =>
    rw [stackFits, fitsThen]
    exact ih.trans (if_neg hbreak).symm

theorem groupMode_eq_modeThen (page : Page) (column indent : Nat) (mode : Mode) (doc : Doc)
    (broken : Bool) (rest : List Command) : groupMode page column indent mode doc broken rest =
      modeThen mode broken (fitsThen .flat doc (stackFits rest) (page.room column)) := by
  unfold groupMode
  rw [fits_eq_stackFits]
  rfl

/-- **What a run prints, a document at a time**, by induction on its steps. -/
theorem run_eq_stackPrint (page : Page) (stack : List Command) (out : Output) :
    run page stack out = stackPrint page stack out := by
  fun_induction run page stack out with
  | case1 out => rfl
  | case2 out c rest next ih =>
    obtain ⟨indent, mode, doc⟩ := c
    rw [ih, stackPrint]
    show stackPrint page (step page ⟨indent, mode, doc⟩ rest out).1 _ = _
    cases doc with
    | empty => rw [printThen]; rfl
    | text t => rw [printThen]; rfl
    | concat ds => rw [printThen, ← stackPrint_commands]; rfl
    | indent d => rw [printThen]; rfl
    | group d broken =>
      rw [printThen]
      exact congrArg (fun mode => stackPrint page (⟨indent, mode, d⟩ :: rest) out)
        (groupMode_eq_modeThen page out.column indent mode d broken rest)
    | line kind => rw [printThen]; rfl

/-! ## Sequences -/

theorem fitsAllThen_append (mode : Mode) (ds es : List Doc) (after : Int → Bool) :
    fitsAllThen mode (ds ++ es) after = fitsAllThen mode ds (fitsAllThen mode es after) := by
  induction ds with
  | nil => rw [fitsAllThen, List.nil_append]
  | cons d ds ih => rw [List.cons_append, fitsAllThen, fitsAllThen, ih]

theorem printAllThen_append (page : Page) (indent : Nat) (mode : Mode) (ds es : List Doc)
    (after : Int → Bool) : printAllThen page indent mode (ds ++ es) after =
      printAllThen page indent mode es after ∘
        printAllThen page indent mode ds (fitsAllThen mode es after) := by
  induction ds with
  | nil => rw [printAllThen, List.nil_append, Function.comp_id]
  | cons d ds ih =>
    rw [List.cons_append, printAllThen, printAllThen, ih, fitsAllThen_append, Function.comp_assoc]

end Render

namespace Doc

open Render

/-! ## Documents that are printed alike -/

/-- The two documents fit and print alike, whatever follows them. -/
structure Same (d e : Doc) : Prop where
  fits : ∀ mode after, fitsThen mode d after = fitsThen mode e after
  print : ∀ page indent mode after,
    printThen page indent mode d after = printThen page indent mode e after

namespace Same

variable {d d' e e' f : Doc} {ds ds' es es' : List Doc}

theorem refl (d : Doc) : Same d d := ⟨fun _ _ => rfl, fun _ _ _ _ => rfl⟩

theorem symm (h : Same d e) : Same e d :=
  ⟨fun mode after => (h.fits mode after).symm,
    fun page indent mode after => (h.print page indent mode after).symm⟩

theorem trans (h : Same d e) (h' : Same e f) : Same d f :=
  ⟨fun mode after => (h.fits mode after).trans (h'.fits mode after),
    fun page indent mode after =>
      (h.print page indent mode after).trans (h'.print page indent mode after)⟩

theorem indent (h : Same d e) : Same d.indent e.indent := by
  refine ⟨fun mode after => ?_, fun page indent mode after => ?_⟩
  · rw [fitsThen, fitsThen, h.fits]
  · rw [printThen, printThen, h.print]

theorem group (broken : Bool) (h : Same d e) : Same (.group d broken) (.group e broken) := by
  refine ⟨fun mode after => ?_, fun page indent mode after => ?_⟩
  · rw [fitsThen, fitsThen, h.fits]
  · rw [printThen, printThen, h.fits]
    funext out
    exact congrFun (h.print page indent _ after) out

theorem fitsAll (h : Same (concat ds) (concat es)) (mode : Mode) (after : Int → Bool) :
    fitsAllThen mode ds after = fitsAllThen mode es after := by
  have := h.fits mode after
  rwa [fitsThen, fitsThen] at this

theorem printAll (h : Same (concat ds) (concat es)) (page : Page) (indent : Nat) (mode : Mode)
    (after : Int → Bool) :
    printAllThen page indent mode ds after = printAllThen page indent mode es after := by
  have := h.print page indent mode after
  rwa [printThen, printThen] at this

/-- Sequences with parts that are printed alike. -/
theorem append (h : Same (concat ds) (concat es)) (h' : Same (concat ds') (concat es')) :
    Same (concat (ds ++ ds')) (concat (es ++ es')) := by
  refine ⟨fun mode after => ?_, fun page indent mode after => ?_⟩
  · rw [fitsThen, fitsThen, fitsAllThen_append, fitsAllThen_append, h.fitsAll, h'.fitsAll]
  · rw [printThen, printThen, printAllThen_append, printAllThen_append, h'.fitsAll, h.printAll,
      h'.printAll]

/-- A sequence of one document. -/
theorem singleton (d : Doc) : Same (concat [d]) d := by
  refine ⟨fun mode after => ?_, fun page indent mode after => ?_⟩
  · rw [fitsThen, fitsAllThen, fitsAllThen]
  · rw [printThen, printAllThen, printAllThen, fitsAllThen, Function.id_comp]

theorem cons (h : Same d e) (hs : Same (concat ds) (concat es)) :
    Same (concat (d :: ds)) (concat (e :: es)) := by
  have hone : Same (concat [d]) (concat [e]) := (singleton d).trans (h.trans (singleton e).symm)
  exact hone.append hs

end Same

theorem same_nil : Same (concat []) empty := by
  refine ⟨fun mode after => ?_, fun page indent mode after => ?_⟩
  · rw [fitsThen, fitsThen, fitsAllThen]
  · rw [printThen, printThen, printAllThen]

mutual

/-- A document that prints nothing is the same as none. -/
theorem same_empty : ∀ d : Doc, d.isEmpty = true → Same d empty
  | empty, _ => .refl empty
  | text t, h => by
    rw [isEmpty, List.isEmpty_iff] at h
    subst h
    refine ⟨fun mode after => ?_, fun page indent mode after => ?_⟩
    · rw [fitsThen, fitsThen]
      funext room
      exact congrArg after (Int.sub_zero room)
    · rw [printThen, printThen]
      rfl
  | concat ds, h => by
    rw [isEmpty] at h
    exact same_empty_concat ds h
  | indent d, h => by
    rw [isEmpty] at h
    refine (same_empty d h).indent.trans ⟨fun mode after => ?_, fun page indent mode after => ?_⟩
    · rw [fitsThen, fitsThen, fitsThen]
    · rw [printThen, printThen, printThen]
  | group d broken, h => by
    rw [isEmpty] at h
    refine ((same_empty d h).group broken).trans
      ⟨fun mode after => ?_, fun page indent mode after => ?_⟩
    · rw [fitsThen, fitsThen, fitsThen]
    · rw [printThen, printThen]
      funext out
      exact congrFun (printThen.eq_1 page indent _ after) out
  | line kind, h => absurd h (by simp [isEmpty])

theorem same_empty_concat : ∀ ds : List Doc, allEmpty ds = true → Same (concat ds) empty
  | [], _ => same_nil
  | d :: ds, h => by
    rw [allEmpty, Bool.and_eq_true] at h
    exact ((same_empty d h.1).cons ((same_empty_concat ds h.2).trans same_nil.symm)).trans
      (.singleton empty)

end

/-! ## What joining texts builds -/

/-- **Without the parts that print nothing.** -/
theorem same_filter (ds : List Doc) :
    Same (concat (ds.filter fun d => !d.isEmpty)) (concat ds) := by
  induction ds with
  | nil => exact .refl _
  | cons d ds ih =>
    rw [List.filter_cons]
    cases hd : d.isEmpty with
    | false => exact (Same.refl d).cons ih
    | true =>
      have hnil : Same (concat []) (concat [d]) :=
        same_nil.trans ((same_empty d hd).symm.trans (Same.singleton d).symm)
      exact hnil.append ih

theorem same_join (ds : List Doc) : Same (join ds) (concat ds) := by
  refine Same.trans ?_ (same_filter ds)
  unfold join
  split
  · rename_i hnil
    rw [hnil]
    exact same_nil.symm
  · rename_i d hsingle
    rw [hsingle]
    exact (Same.singleton d).symm
  · exact .refl _

theorem same_nest (d : Doc) : Same d.nest d.indent := by
  unfold nest
  split
  · rename_i hempty
    exact (same_empty d.indent (by rw [isEmpty, hempty])).symm
  · exact .refl _

theorem same_parts (d : Doc) : Same (concat d.parts) d := by
  unfold parts
  split
  · exact .refl _
  · exact .singleton _

/-- Two texts that follow each other. -/
theorem same_texts (a b : Text) : Same (text (a ++ b)) (concat [text a, text b]) := by
  refine ⟨fun mode after => ?_, fun page indent mode after => ?_⟩
  · rw [fitsThen, fitsThen, fitsAllThen, fitsAllThen, fitsThen, fitsThen, fitsAllThen]
    funext room
    refine congrArg after ?_
    rw [List.length_append, Int.natCast_add, Int.sub_sub]
  · rw [printThen, printThen, printAllThen, printAllThen, printThen, printThen, printAllThen]
    funext out
    show out.write (a ++ b) = (out.write a).write b
    rw [Output.write, Output.write, Output.write, List.reverse_append, List.append_assoc,
      List.length_append, Nat.add_assoc]

/-- A document in front of texts that have been joined: it stays, or it is a text that is joined to
the first of them. -/
theorem joinTexts_cons (d : Doc) (ds : List Doc) : joinTexts (d :: ds) = d :: joinTexts ds ∨
    ∃ a b rest, d = text a ∧ joinTexts ds = text b :: rest ∧
      joinTexts (d :: ds) = text (a ++ b) :: rest := by
  cases d with
  | text a =>
    rw [joinTexts]
    split
    · rename_i b rest hrest
      exact .inr ⟨a, b, rest, rfl, hrest, rfl⟩
    · exact .inl rfl
  | empty => exact .inl (by rw [joinTexts]; simp)
  | concat ds => exact .inl (by rw [joinTexts]; simp)
  | indent d => exact .inl (by rw [joinTexts]; simp)
  | group d broken => exact .inl (by rw [joinTexts]; simp)
  | line kind => exact .inl (by rw [joinTexts]; simp)

/-- **Texts that follow each other, joined.** -/
theorem same_joinTexts (ds : List Doc) : Same (concat (joinTexts ds)) (concat ds) := by
  induction ds with
  | nil => exact .refl _
  | cons d ds ih =>
    rcases joinTexts_cons d ds with h | ⟨a, b, rest, rfl, hrest, h⟩
    · rw [h]
      exact (Same.refl d).cons ih
    · rw [hrest] at ih
      rw [h]
      have htexts : Same (concat [text (a ++ b)]) (concat [text a, text b]) :=
        (Same.singleton _).trans (same_texts a b)
      exact (htexts.append (.refl (concat rest))).trans ((Same.refl (text a)).cons ih)

mutual

/-- **A document and its merged form are printed alike.** -/
theorem same_mergeText : ∀ d : Doc, Same d.mergeText d
  | concat ds => by
    rw [mergeText]
    exact (same_join _).trans ((same_joinTexts _).trans (same_mergeParts ds))
  | indent d => by
    rw [mergeText]
    exact (same_nest _).trans (same_mergeText d).indent
  | group d broken => by
    rw [mergeText]
    exact (same_mergeText d).group broken
  | empty => by
    rw [mergeText]
    exact .refl _
  | text t => by
    rw [mergeText]
    exact .refl _
  | line kind => by
    rw [mergeText]
    exact .refl _

theorem same_mergeParts : ∀ ds : List Doc, Same (concat (mergeParts ds)) (concat ds)
  | [] => by
    rw [mergeParts]
    exact .refl _
  | d :: ds => by
    rw [mergeParts]
    have hone : Same (concat d.mergeText.parts) (concat [d]) :=
      (same_parts _).trans ((same_mergeText d).trans (Same.singleton d).symm)
    exact hone.append (same_mergeParts ds)

end

/-! ## Broken groups -/

mutual

/-- Every broken group in the document prints something. -/
def breaksShown : Doc → Bool
  | empty => true
  | text _ => true
  | concat docs => allBreaksShown docs
  | indent doc => breaksShown doc
  | group doc broken => (!broken || !doc.isEmpty) && breaksShown doc
  | line _ => true

/-- Every broken group in the documents prints something. -/
def allBreaksShown : List Doc → Bool
  | [] => true
  | d :: ds => breaksShown d && allBreaksShown ds

end

mutual

/-- A document that prints nothing forces no break, unless a broken group in it prints nothing. -/
theorem forcesBreak_of_isEmpty : ∀ d : Doc, d.breaksShown = true → d.isEmpty = true →
    d.forcesBreak = false
  | empty, _, _ => rfl
  | text t, _, _ => rfl
  | concat ds, h, hempty => by
    rw [breaksShown] at h
    rw [isEmpty] at hempty
    rw [forcesBreak]
    exact anyForces_of_allEmpty ds h hempty
  | indent d, h, hempty => by
    rw [breaksShown] at h
    rw [isEmpty] at hempty
    rw [forcesBreak]
    exact forcesBreak_of_isEmpty d h hempty
  | group d broken, h, hempty => by
    rw [breaksShown, Bool.and_eq_true] at h
    rw [isEmpty] at hempty
    have hbroken : broken = false := by simpa [hempty] using h.1
    rw [forcesBreak, hbroken, forcesBreak_of_isEmpty d h.2 hempty, Bool.or_false]
  | line kind, _, hempty => absurd hempty (by simp [isEmpty])

theorem anyForces_of_allEmpty : ∀ ds : List Doc, allBreaksShown ds = true → allEmpty ds = true →
    anyForces ds = false
  | [], _, _ => rfl
  | d :: ds, h, hempty => by
    rw [allBreaksShown, Bool.and_eq_true] at h
    rw [allEmpty, Bool.and_eq_true] at hempty
    rw [anyForces, forcesBreak_of_isEmpty d h.1 hempty.1, anyForces_of_allEmpty ds h.2 hempty.2,
      Bool.or_false]

end

/-- The second document prints nothing if the first does, it forces a break if the first does, and
its broken groups print something. -/
structure Alike (d e : Doc) : Prop where
  empty : e.isEmpty = d.isEmpty
  shown : e.breaksShown = true
  forces : e.forcesBreak = d.forcesBreak

theorem Alike.refl {d : Doc} (h : d.breaksShown = true) : Alike d d := ⟨rfl, h, rfl⟩

theorem Alike.trans {d e f : Doc} (h : Alike d e) (h' : Alike e f) : Alike d f :=
  ⟨h'.empty.trans h.empty, h'.shown, h'.forces.trans h.forces⟩

theorem Alike.cons {d e : Doc} {ds es : List Doc} (h : Alike d e)
    (hs : Alike (concat ds) (concat es)) : Alike (concat (d :: ds)) (concat (e :: es)) := by
  obtain ⟨hempty, hshown, hforces⟩ := hs
  rw [isEmpty, isEmpty] at hempty
  rw [breaksShown] at hshown
  rw [forcesBreak, forcesBreak] at hforces
  refine ⟨?_, ?_, ?_⟩
  · rw [isEmpty, isEmpty, allEmpty, allEmpty, h.empty, hempty]
  · rw [breaksShown, allBreaksShown, h.shown, hshown, Bool.and_self]
  · rw [forcesBreak, forcesBreak, anyForces, anyForces, h.forces, hforces]

theorem allEmpty_append (ds es : List Doc) :
    allEmpty (ds ++ es) = (allEmpty ds && allEmpty es) := by
  induction ds with
  | nil => rfl
  | cons d ds ih => rw [List.cons_append, allEmpty, allEmpty, ih, Bool.and_assoc]

theorem allBreaksShown_append (ds es : List Doc) :
    allBreaksShown (ds ++ es) = (allBreaksShown ds && allBreaksShown es) := by
  induction ds with
  | nil => rfl
  | cons d ds ih => rw [List.cons_append, allBreaksShown, allBreaksShown, ih, Bool.and_assoc]

theorem anyForces_append (ds es : List Doc) :
    anyForces (ds ++ es) = (anyForces ds || anyForces es) := by
  induction ds with
  | nil => rfl
  | cons d ds ih => rw [List.cons_append, anyForces, anyForces, ih, Bool.or_assoc]

/-- The parts of a document in front of others. -/
theorem Alike.parts_append {d e : Doc} {ds es : List Doc} (h : Alike d e)
    (hs : Alike (concat ds) (concat es)) : Alike (concat (d :: ds)) (concat (e.parts ++ es)) := by
  refine (h.cons hs).trans ?_
  have hcons := h.cons hs
  unfold parts
  split
  · rename_i docs
    have hshown := hcons.shown
    refine ⟨?_, ?_, ?_⟩
    · rw [isEmpty, isEmpty, allEmpty_append, allEmpty, isEmpty]
    · rwa [breaksShown, allBreaksShown, breaksShown, ← allBreaksShown_append] at hshown
    · rw [forcesBreak, forcesBreak, anyForces_append, anyForces, forcesBreak]
  · exact .refl hcons.shown

/-- Leaving out what prints nothing leaves out no break. -/
theorem alike_filter (ds : List Doc) (h : allBreaksShown ds = true) :
    Alike (concat ds) (concat (ds.filter fun d => !d.isEmpty)) := by
  induction ds with
  | nil => exact .refl rfl
  | cons d ds ih =>
    rw [allBreaksShown, Bool.and_eq_true] at h
    have ih := ih h.2
    rw [List.filter_cons]
    cases hd : d.isEmpty with
    | false => exact (Alike.refl h.1).cons ih
    | true =>
      refine Alike.trans ?_ ih
      refine ⟨?_, by rw [breaksShown, h.2], ?_⟩
      · rw [isEmpty, isEmpty, allEmpty, hd, Bool.true_and]
      · rw [forcesBreak, forcesBreak, anyForces, forcesBreak_of_isEmpty d h.1 hd, Bool.false_or]

theorem alike_join (ds : List Doc) (h : allBreaksShown ds = true) :
    Alike (concat ds) (join ds) := by
  have hfilter := alike_filter ds h
  refine hfilter.trans ?_
  unfold join
  split
  · rename_i hnil
    rw [hnil]
    exact ⟨rfl, rfl, rfl⟩
  · rename_i d hsingle
    have hshown := hfilter.shown
    rw [hsingle] at hshown ⊢
    rw [breaksShown, allBreaksShown, allBreaksShown, Bool.and_true] at hshown
    refine ⟨?_, hshown, ?_⟩
    · rw [isEmpty, allEmpty, allEmpty, Bool.and_true]
    · rw [forcesBreak, anyForces, anyForces, Bool.or_false]
  · exact .refl hfilter.shown

theorem alike_nest {d e : Doc} (h : Alike d e) : Alike (indent d) e.nest := by
  unfold nest
  split
  · rename_i hempty
    refine ⟨?_, rfl, ?_⟩
    · rw [isEmpty, isEmpty, ← h.empty, hempty]
    · rw [forcesBreak, forcesBreak, ← h.forces, forcesBreak_of_isEmpty e h.shown hempty]
  · refine ⟨?_, ?_, ?_⟩
    · rw [isEmpty, isEmpty, h.empty]
    · rw [breaksShown, h.shown]
    · rw [forcesBreak, forcesBreak, h.forces]

theorem alike_joinTexts (ds : List Doc) (h : allBreaksShown ds = true) :
    Alike (concat ds) (concat (joinTexts ds)) := by
  induction ds with
  | nil => exact .refl rfl
  | cons d ds ih =>
    rw [allBreaksShown, Bool.and_eq_true] at h
    have hcons := (Alike.refl h.1).cons (ih h.2)
    rcases joinTexts_cons d ds with hjoin | ⟨a, b, rest, rfl, hrest, hjoin⟩
    · rw [hjoin]
      exact hcons
    · rw [hrest] at hcons
      rw [hjoin]
      refine hcons.trans ⟨?_, hcons.shown, ?_⟩
      · cases a <;> rfl
      · rw [forcesBreak, forcesBreak, anyForces, anyForces, anyForces]
        rfl

mutual

/-- **Joining texts leaves out no break**, if every broken group prints something. -/
theorem alike_mergeText : ∀ d : Doc, d.breaksShown = true → Alike d d.mergeText
  | concat ds, h => by
    rw [breaksShown] at h
    have hparts := alike_mergeParts ds h
    have htexts := alike_joinTexts _ hparts.shown
    rw [mergeText]
    exact hparts.trans (htexts.trans (alike_join _ htexts.shown))
  | indent d, h => by
    rw [breaksShown] at h
    rw [mergeText]
    exact alike_nest (alike_mergeText d h)
  | group d broken, h => by
    rw [breaksShown, Bool.and_eq_true] at h
    have ih := alike_mergeText d h.2
    rw [mergeText]
    refine ⟨?_, ?_, ?_⟩
    · rw [isEmpty, isEmpty, ih.empty]
    · rw [breaksShown, ih.empty, ih.shown, h.1, Bool.and_self]
    · rw [forcesBreak, forcesBreak, ih.forces]
  | empty, h => by
    rw [mergeText]
    exact .refl h
  | text t, h => by
    rw [mergeText]
    exact .refl h
  | line kind, h => by
    rw [mergeText]
    exact .refl h

theorem alike_mergeParts : ∀ ds : List Doc, allBreaksShown ds = true →
    Alike (concat ds) (concat (mergeParts ds))
  | [], _ => by
    rw [mergeParts]
    exact .refl rfl
  | d :: ds, h => by
    rw [allBreaksShown, Bool.and_eq_true] at h
    rw [mergeParts]
    exact (alike_mergeText d h.1).parts_append (alike_mergeParts ds h.2)

end

/-! ## Marking groups -/

theorem isEmpty_propagate (d : Doc) : d.propagate.isEmpty = d.isEmpty := by
  rw [Bool.eq_iff_iff, isEmpty_iff_items, isEmpty_iff_items, items_propagate]

theorem propagate_nest (d : Doc) : d.nest.propagate = d.propagate.nest := by
  unfold nest
  rw [isEmpty_propagate]
  split <;> rw [propagate]

theorem join_propagateAll (ds : List Doc) : join (propagateAll ds) = (join ds).propagate := by
  have hfilter : (propagateAll ds).filter (fun d => !d.isEmpty) =
      propagateAll (ds.filter fun d => !d.isEmpty) := by
    rw [propagateAll_eq_map, propagateAll_eq_map, List.filter_map]
    congr 2
    funext d
    exact congrArg not (isEmpty_propagate d)
  unfold join
  rw [hfilter]
  generalize (ds.filter fun d => !d.isEmpty) = kept
  match kept with
  | [] => rfl
  | [d] => rfl
  | d :: e :: es => rfl

theorem joinTexts_propagateAll (ds : List Doc) :
    joinTexts (propagateAll ds) = propagateAll (joinTexts ds) := by
  induction ds with
  | nil => rfl
  | cons d ds ih =>
    cases d with
    | text a =>
      rw [propagateAll, propagate, joinTexts, joinTexts, ih]
      rcases joinTexts ds with _ | ⟨e, es⟩
      · simp [propagateAll, propagate]
      · cases e <;> simp [propagateAll, propagate]
    | empty => simp [propagateAll, propagate, joinTexts, ih]
    | concat ds => simp [propagateAll, propagate, joinTexts, ih]
    | indent d => simp [propagateAll, propagate, joinTexts, ih]
    | group d broken => simp [propagateAll, propagate, joinTexts, ih]
    | line kind => simp [propagateAll, propagate, joinTexts, ih]

theorem parts_propagate (d : Doc) : d.propagate.parts = propagateAll d.parts := by
  cases d with
  | concat ds => rw [propagate, parts, parts]
  | empty => simp [propagate, parts, propagateAll]
  | text t => simp [propagate, parts, propagateAll]
  | indent d => simp [propagate, parts, propagateAll]
  | group d broken => simp [propagate, parts, propagateAll]
  | line kind => simp [propagate, parts, propagateAll]

mutual

/-- **Marking groups and joining texts**, in either order. -/
theorem propagate_mergeText : ∀ d : Doc, d.breaksShown = true →
    d.mergeText.propagate = d.propagate.mergeText
  | concat ds, h => by
    rw [breaksShown] at h
    rw [mergeText, propagate, mergeText, ← propagate_mergeParts ds h, joinTexts_propagateAll,
      join_propagateAll]
  | indent d, h => by
    rw [breaksShown] at h
    rw [mergeText, propagate, mergeText, ← propagate_mergeText d h, propagate_nest]
  | group d broken, h => by
    rw [breaksShown, Bool.and_eq_true] at h
    rw [mergeText, propagate, propagate, mergeText, (alike_mergeText d h.2).forces,
      propagate_mergeText d h.2]
  | empty, _ => by rw [mergeText, propagate, mergeText]
  | text t, _ => by rw [mergeText, propagate, mergeText]
  | line kind, _ => by rw [mergeText, propagate, mergeText]

theorem propagate_mergeParts : ∀ ds : List Doc, allBreaksShown ds = true →
    propagateAll (mergeParts ds) = mergeParts (propagateAll ds)
  | [], _ => by rw [mergeParts, propagateAll, mergeParts]
  | d :: ds, h => by
    rw [allBreaksShown, Bool.and_eq_true] at h
    rw [mergeParts, propagateAll, mergeParts, ← propagate_mergeText d h.1, parts_propagate,
      ← propagate_mergeParts ds h.2]
    simp only [propagateAll_eq_map, List.map_append]

end

/-! ## The output -/

/-- **Joining texts changes no output**, if every broken group prints something. -/
theorem render_mergeText (page : Page) (d : Doc) (h : d.breaksShown = true) :
    d.mergeText.render page = d.render page := by
  have hsame : Same d.mergeText.propagate d.propagate := by
    rw [propagate_mergeText d h]
    exact same_mergeText d.propagate
  have hrun : run page [⟨0, .broken, d.mergeText.propagate⟩] ⟨[], 0⟩ =
      run page [⟨0, .broken, d.propagate⟩] ⟨[], 0⟩ := by
    rw [run_eq_stackPrint, run_eq_stackPrint]
    exact congrFun (hsame.print page 0 .broken (stackFits [])) ⟨[], 0⟩
  rw [render, render, hrun]

/-- Texts and sequences around a group that has to break, and a group that is flat because the text
behind it is joined to more text. -/
theorem render_mergeText_groups :
    let d : Doc := .concat [.text ['a'], .concat [.empty, .text ['b'], .indent (.concat [])],
      .group (.concat [.text [], .concat [.text ['c'], .line .normal], .text ['d']]) true,
      .indent (.group (.concat [.concat [.text ['e']], .text ['f'], .line .soft]) false),
      .text [], .text ['g']]
    d.breaksShown = true ∧ d.mergeText.render {} = d.render {} := by
  intro d
  have h : d.breaksShown = true := by decide
  exact ⟨h, d.render_mergeText {} h⟩

/-- A broken group that prints nothing breaks the group around it, and is left out when texts are
joined. -/
example :
    let d : Doc := .group
      (.concat [.text ['a'], .line .soft, .text ['b'], .group .empty true]) false
    (d.breaksShown, d.render {}, d.mergeText.render {}) =
      (false, ['a', '\n', 'b'], ['a', 'b']) := by
  decide +kernel

end Doc

end TemplateFormat
