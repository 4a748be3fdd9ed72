import TemplateFormat.Proofs.Doc.After
import TemplateFormat.Proofs.Doc.FlatMode
import TemplateFormat.Proofs.Doc.Spread

/-!
# The turn of a part of a document

Every part of a document has its turn: the renderer comes to it when it has printed a line of the
items before it (`exists_turn`). If no group stands between the two, the part is printed in the mode
of the whole. So a line break directly in a document in broken mode is a new line, and a document in
flat mode is printed on one line. A normal line break is white space in both modes.

`Text.Parted` says that white space stands at a place of the output, and `Text.OnOneLine` that a
part of it is on one line. White space apart, a place is known by the characters before it and
behind it.

Results:
* `Text.Parted.of_even`: white space between characters stays if white space is changed.
* `exists_rest`: what stands on top of a stack is printed, and then comes the rest.
* `exists_turn`: every part has its turn.
* `Doc.parted_of_normal`: a normal line break is white space in the output.
* `Doc.parted_or_onOneLine`: either all line breaks directly in a part are, or it is on one line.
-/

namespace TemplateFormat

/-! ## White space at a place -/

namespace Text

/-- White space stands in the text between the characters of `u` and those of `v`. -/
def Parted (u v t : Text) : Prop :=
  ∃ a c b, t = a ++ c :: b ∧ TemplateFormat.isBlank c = true ∧ solid a = solid u ∧ solid b = solid v

/-- The characters of `s` are on one line of the text, behind those of `u`. -/
def OnOneLine (u s t : Text) : Prop :=
  ∃ a l b, t = a ++ (l ++ b) ∧ solid a = solid u ∧ solid l = solid s ∧ '\n' ∉ l

variable {u v s t : Text}

instance (u v t : Text) : Decidable (Parted u v t) :=
  decidable_of_iff (∃ i < t.length, t[i]?.any TemplateFormat.isBlank = true ∧
      solid (t.take i) = solid u ∧ solid (t.drop (i + 1)) = solid v) <| by
    constructor
    · rintro ⟨i, hi, hblank, hu, hv⟩
      rw [List.getElem?_eq_getElem hi] at hblank
      refine ⟨t.take i, t[i], t.drop (i + 1), ?_, hblank, hu, hv⟩
      rw [← List.drop_eq_getElem_cons hi, List.take_append_drop]
    · rintro ⟨a, c, b, rfl, hc, hu, hv⟩
      refine ⟨a.length, by simp, by simpa using hc, ?_, ?_⟩
      · rwa [List.take_left]
      · rwa [← List.drop_drop, List.drop_left]

theorem solid_even (t : Text) : solid (even t) = solid t := by
  rw [even, solid_squeeze, solid_cons_of_blank (by decide), solid_append]
  exact List.append_nil _

theorem solid_dropWhile (t : Text) : solid (t.dropWhile isSpace) = solid t := by
  conv_rhs => rw [← List.takeWhile_append_dropWhile (p := isSpace) (l := t), solid_append,
    solid_of_isBlank (Render.isBlank_takeWhile_isSpace t), List.nil_append]

theorem Parted.squeeze (h : Parted u v t) : Parted u v (squeeze t) := by
  obtain ⟨a, c, b, rfl, hc, ha, hb⟩ := h
  obtain ⟨e, he, htrim⟩ := eq_append_trimEnd a
  have hblank : isBlank (e ++ [c]) = true := by rw [isBlank_append, he, isBlank_cons, hc]; rfl
  have hsqueeze : Text.squeeze (a ++ c :: b) =
      Text.squeeze (trimEnd a) ++ ' ' :: trimStart (Text.squeeze b) := by
    conv_lhs => rw [htrim, List.append_assoc, ← List.singleton_append, ← List.append_assoc e]
    rw [squeeze_append_of_last _ (last_trimEnd a), squeeze_isBlank_append hblank (by simp)]
  refine ⟨_, ' ', _, hsqueeze, by decide, ?_, ?_⟩
  · rw [solid_squeeze, solid_trimEnd, ha]
  · rw [solid_trimStart, solid_squeeze, hb]

theorem parted_of_squeeze (h : Parted u v (Text.squeeze t)) : Parted u v t := by
  obtain ⟨a, c, b, hsqueeze, hc, ha, hb⟩ := h
  obtain ⟨p, q, rfl, hp, hq⟩ := squeeze_split hsqueeze
  cases q with
  | nil => exact absurd hq (by simp)
  | cons d q =>
    have hd : TemplateFormat.isBlank d = true := by
      by_contra hd
      rw [Bool.not_eq_true] at hd
      rw [squeeze_cons_of_not_blank hd] at hq
      rw [(List.cons.inj hq).1, hc] at hd
      exact absurd hd (by decide)
    have hsolid : solid q = solid b :=
      calc solid q = solid (d :: q) := (solid_cons_of_blank hd q).symm
        _ = solid (Text.squeeze (d :: q)) := (solid_squeeze _).symm
        _ = solid (c :: b) := congrArg solid hq
        _ = solid b := solid_cons_of_blank hc b
    refine ⟨p, d, q, rfl, hd, ?_, hsolid.trans hb⟩
    rw [← ha, ← hp, solid_squeeze]

/-- **White space between characters** is in every text that is the same up to white space where
there is some and at the ends. -/
theorem Parted.of_even (h : Parted u v s) (he : even s = even t) (hu : solid u ≠ [])
    (hv : solid v ≠ []) : Parted u v t := by
  obtain ⟨a, c, b, rfl, hc, ha, hb⟩ := h
  have hspace : TemplateFormat.isBlank ' ' = true := by decide
  have hpadded : Parted u v (' ' :: (a ++ c :: b ++ [' '])) := by
    refine ⟨' ' :: a, c, b ++ [' '], by simp, hc, ?_, ?_⟩
    · rw [solid_cons_of_blank hspace, ha]
    · rw [solid_append, hb]
      exact List.append_nil _
  have hout := hpadded.squeeze
  rw [← even, he] at hout
  obtain ⟨a', c', b', heq, hc', ha', hb'⟩ := parted_of_squeeze hout
  cases a' with
  | nil => exact absurd ha'.symm hu
  | cons x a' =>
    rw [List.cons_append] at heq
    obtain ⟨rfl, hrest⟩ := List.cons.inj heq
    rcases List.eq_nil_or_concat b' with rfl | ⟨b', y, rfl⟩
    · exact absurd hb'.symm hv
    · rw [List.concat_eq_append, ← List.cons_append, ← List.append_assoc] at hrest
      obtain ⟨rfl, hy⟩ := List.append_inj' hrest rfl
      obtain rfl := (List.cons.inj hy).1
      rw [solid_cons_of_blank hspace] at ha'
      rw [List.concat_eq_append, solid_append] at hb'
      exact ⟨a', c', b', rfl, hc', ha', (List.append_nil _).symm.trans hb'⟩

end Text

/-! ## Lines of items -/

theorem Spreads.solid {is : List Item} {x : Text} (h : Spreads is x) :
    Text.solid x = Text.solid (is.flatMap Item.flat) := by
  induction h with
  | nil => rfl
  | text t _ ih => rw [List.flatMap_cons, Text.solid_append, Text.solid_append, ih, Item.flat]
  | space kind _ ih =>
    rw [List.flatMap_cons, Text.solid_append, Text.solid_cons_of_blank (by decide), ih]
    cases kind <;> rfl
  | soft _ ih => rwa [List.flatMap_cons, Text.solid_append]

/-- **A line break that is a space** parts what is before it from what is behind it. -/
theorem Spreads.parted {is js : List Item} {kind : Line} {x out u v : Text}
    (h : Spreads (is ++ .line kind :: js) x) (hkind : kind ≠ .soft)
    (heven : Text.even x = Text.even out) (hu : Text.solid u = Text.solid (is.flatMap Item.flat))
    (hout : Text.solid out = Text.solid u ++ Text.solid v) (hu' : Text.solid u ≠ [])
    (hv : Text.solid v ≠ []) : Text.Parted u v out := by
  obtain ⟨y, z, rfl, hy, hz⟩ := h.split
  cases hz with
  | soft _ => exact absurd rfl hkind
  | @space _ _ w hw =>
    have hleft : Text.solid y = Text.solid u := hy.solid.trans hu.symm
    have hsolid : Text.solid (y ++ ' ' :: w) = Text.solid out := by
      rw [← Text.solid_even, heven, Text.solid_even]
    rw [Text.solid_append, hleft, hout, Text.solid_cons_of_blank (by decide)] at hsolid
    have hparted : Text.Parted u v (y ++ ' ' :: w) :=
      ⟨y, ' ', w, rfl, by decide, hleft, List.append_cancel_left hsolid⟩
    exact hparted.of_even heven hu' hv

namespace Render

open Doc (After)

variable {page : Page} {d : Doc} {s : State} {is : List Item}

/-- The output has the characters of the items. -/
theorem Keeps.solid {chars : Text} (h : Keeps is chars) :
    Text.solid chars.reverse = Text.solid (is.flatMap Item.flat) := by
  obtain ⟨x, hx, hsqueeze⟩ := h
  have hsolid := congrArg Text.solid hsqueeze
  rw [Text.solid_squeeze, Text.solid_squeeze, Text.solid_cons_of_blank (by decide),
    Text.solid_cons_of_blank (by decide)] at hsolid
  rw [← hsolid, hx.solid]

theorem stackItems_append (ks ks' : List Command) :
    stackItems (ks ++ ks') = stackItems ks ++ stackItems ks' := List.flatMap_append

/-- A step leads from a state that is reached to another one. -/
theorem Reached.step {c : Command} {rest : List Command} {o : Output} {levels : Nat}
    (h : Reached page d ⟨c :: rest, o, levels⟩) : ∃ next,
      Reached page d ⟨(step page c rest o).1, (step page c rest o).2, next⟩ := by
  by_cases hc : c.opens? = none
  · exact ⟨levels, h.tail (.inl (.intro rest o levels hc))⟩
  · obtain ⟨next, hnext⟩ := Option.ne_none_iff_exists'.mp hc
    exact ⟨_, h.tail (.inr (.intro rest o levels hnext))⟩

/-- From every state that is reached the run goes on to the same output. -/
theorem Reached.run_eq (h : Reached page d s) :
    Render.run page s.stack s.out = Render.run page [⟨0, .broken, d.propagate⟩] ⟨[], 0⟩ := by
  refine h.invariant (P := fun s => Render.run page s.stack s.out = _) rfl ?_ ?_
  · rintro _ _ ⟨rest, o, levels, -⟩ hs
    exact (run_cons page _ rest o).symm.trans hs
  · rintro _ _ ⟨rest, o, levels, -⟩ hs
    exact (run_cons page _ rest o).symm.trans hs

/-- A step changes the top of the stack only, and makes it lighter. -/
theorem step_append_lighter (page : Page) (c : Command) (ks rest : List Command) (o : Output) :
    ∃ ks', (step page c (ks ++ rest) o).1 = ks' ++ rest ∧
      stackWeight ks' < stackWeight (c :: ks) := by
  obtain ⟨indent, mode, doc⟩ := c
  cases doc with
  | concat ds =>
    refine ⟨commands indent mode ds ++ ks, (List.append_assoc ..).symm, ?_⟩
    rw [stackWeight_commands_append, stackWeight, weight]
    omega
  | indent e =>
    refine ⟨⟨indent + 1, mode, e⟩ :: ks, rfl, ?_⟩
    simp only [stackWeight, weight]
    omega
  | group e broken =>
    refine ⟨_ :: ks, rfl, ?_⟩
    simp only [stackWeight, weight]
    omega
  | empty => exact ⟨ks, rfl, by simp only [stackWeight, weight]; omega⟩
  | text t => exact ⟨ks, rfl, by simp only [stackWeight, weight]; omega⟩
  | line kind => exact ⟨ks, rfl, by simp only [stackWeight, weight]; omega⟩

/-- **What stands on top of a stack is printed**, and then comes the rest. The induction is on the
weight of the top. -/
theorem exists_rest {s : State} {is : List Item} (ks : List Command) {rest : List Command}
    (h : Reached page d s) (hstack : s.stack = ks ++ rest) (hkeeps : Keeps is s.out.chars) :
    ∃ t, Reached page d t ∧ t.stack = rest ∧ Keeps (is ++ stackItems ks) t.out.chars := by
  obtain ⟨stack, out, levels⟩ := s
  obtain rfl : stack = ks ++ rest := hstack
  cases ks with
  | nil =>
    refine ⟨_, h, rfl, ?_⟩
    show Keeps (is ++ []) out.chars
    rwa [List.append_nil]
  | cons c ks =>
    obtain ⟨ks', hks', hweight⟩ := step_append_lighter page c ks rest out
    obtain ⟨next, hnext⟩ : ∃ next, Reached page d
        ⟨(step page c (ks ++ rest) out).1, (step page c (ks ++ rest) out).2, next⟩ := Reached.step h
    obtain ⟨printed, hitems, hprinted⟩ : ∃ printed, stackItems (c :: (ks ++ rest)) =
        printed ++ stackItems (step page c (ks ++ rest) out).1 ∧
          Keeps (is ++ printed) (step page c (ks ++ rest) out).2.chars := keeps_step page c _ hkeeps
    rw [hks'] at hnext hitems
    obtain ⟨t, ht, hrest, hkeeps'⟩ := exists_rest ks' hnext rfl hprinted
    have hcancel : stackItems (c :: ks) = printed ++ stackItems ks' := by
      rw [← List.cons_append, stackItems_append, stackItems_append, ← List.append_assoc] at hitems
      exact List.append_cancel_right hitems
    refine ⟨t, ht, hrest, ?_⟩
    rwa [hcancel, ← List.append_assoc]
termination_by stackWeight ks

/-- **Every part has its turn**, in the mode of the whole if no group stands between the two. The
induction is on the way to the part. -/
theorem exists_turn {k e : Doc} {direct : Bool} {js : List Item} (hk : After k direct js e)
    {indent : Nat} {mode : Mode} {rest : List Command} (h : Reached page d s)
    (hstack : s.stack = ⟨indent, mode, e⟩ :: rest) (hkeeps : Keeps is s.out.chars) :
    ∃ t indent' mode' rest', Reached page d t ∧ t.stack = ⟨indent', mode', k⟩ :: rest' ∧
      Keeps (is ++ js) t.out.chars ∧ (direct = true → mode' = mode) := by
  induction hk generalizing s indent mode rest is with
  | refl =>
    refine ⟨s, indent, mode, rest, h, hstack, ?_, fun _ => rfl⟩
    rwa [List.append_nil]
  | @concat direct js e ds es _ ih =>
    obtain ⟨stack, out, levels⟩ := s
    obtain rfl : stack = _ := hstack
    obtain ⟨next, hnext⟩ := Reached.step h
    have hsplit : commands indent mode (ds ++ e :: es) ++ rest =
        commands indent mode ds ++ ⟨indent, mode, e⟩ :: (commands indent mode es ++ rest) := by
      simp [commands]
    obtain ⟨t, ht, hstack, hprinted⟩ := exists_rest (commands indent mode ds) hnext hsplit hkeeps
    have hitems : stackItems (commands indent mode ds) = ds.flatMap Doc.items := by
      rw [stackItems, commands, List.flatMap_map]
    rw [hitems] at hprinted
    rw [← List.append_assoc]
    exact ih ht hstack hprinted
  | indent _ ih =>
    obtain ⟨stack, out, levels⟩ := s
    obtain rfl : stack = _ := hstack
    obtain ⟨next, hnext⟩ := Reached.step h
    exact ih hnext rfl hkeeps
  | group broken _ ih =>
    obtain ⟨stack, out, levels⟩ := s
    obtain rfl : stack = _ := hstack
    obtain ⟨next, hnext⟩ := Reached.step h
    obtain ⟨t, indent', mode', rest', ht, hstack, hkeeps', -⟩ := ih hnext rfl hkeeps
    exact ⟨t, indent', mode', rest', ht, hstack, hkeeps', fun h => absurd h (by simp)⟩

/-- Every part of a document has its turn in printing the document. -/
theorem exists_turn_render (page : Page) {e : Doc} {direct : Bool} (h : After d direct is e) :
    ∃ s indent mode rest, Reached page e s ∧ s.stack = ⟨indent, mode, d.propagate⟩ :: rest ∧
      Keeps is s.out.chars := by
  obtain ⟨s, indent, mode, rest, hs, hstack, hkeeps, -⟩ :=
    exists_turn h.propagate (s := State.start e) .refl rfl keeps_nil
  exact ⟨s, indent, mode, rest, hs, hstack, hkeeps⟩

/-- A new line in broken mode is white space in the output. -/
theorem exists_spreads_of_broken {indent : Nat} {kind : Line} {rest : List Command}
    (h : Reached page d s) (hstack : s.stack = ⟨indent, .broken, .line kind⟩ :: rest)
    (hkeeps : Keeps is s.out.chars) : ∃ x, Spreads (is ++ .line .hard :: stackItems rest) x ∧
      Text.even x = Text.even (d.render page) := by
  have hrun := h.run_eq
  rw [hstack, run_cons] at hrun
  have hnew : Keeps (is ++ [.line .hard]) (lineBreak page indent .broken kind s.out).chars := by
    cases kind <;> exact keeps_newline page _ _ .hard hkeeps
  have hkept := keeps_run page rest _ hnew
  rw [List.append_assoc, List.singleton_append] at hkept
  obtain ⟨x, hx, heven⟩ := hkept.exists_spreads
  refine ⟨x, hx, heven.trans ?_⟩
  rw [Doc.render, ← hrun]
  rfl

/-- A document in flat mode is on one line of the output. -/
theorem onOneLine_of_flat {indent : Nat} {e : Doc} {rest : List Command} (h : Reached page d s)
    (hstack : s.stack = ⟨indent, .flat, e⟩ :: rest) (hkeeps : Keeps is s.out.chars)
    (hline : '\n' ∉ e.flat) :
    Text.OnOneLine (is.flatMap Item.flat) e.flat (d.render page) := by
  obtain ⟨stack, out, levels⟩ := s
  obtain rfl : stack = _ := hstack
  have hplain := (sound_of_reached h _ List.mem_cons_self).plain rfl
  have hrun := ((onLine_flat page levels indent rest out e hplain).reached h).run_eq
  have hbefore : Text.solid out.chars.reverse = Text.solid (is.flatMap Item.flat) := hkeeps.solid
  have hsettled : (d.render page).reverse = (run page rest (out.write e.flat)).settled := by
    rw [Doc.render, List.reverse_reverse, ← hrun]
    rfl
  obtain ⟨b, hb⟩ := settled_run page rest (out.write e.flat)
  rw [← hsettled] at hb
  have hout : d.render page =
      ((e.flat.reverse ++ out.chars).dropWhile isSpace).reverse ++ b.reverse := by
    rw [← List.reverse_append, ← List.reverse_reverse (d.render page), ← hb]
    rfl
  have hsolid : Text.solid (e.flat.reverse.dropWhile isSpace).reverse = Text.solid e.flat := by
    rw [Text.solid_reverse, Text.solid_dropWhile, ← Text.solid_reverse, List.reverse_reverse]
  rw [List.dropWhile_append] at hout
  split at hout
  · rename_i hempty
    rw [List.isEmpty_iff.mp hempty] at hsolid
    refine ⟨(out.chars.dropWhile isSpace).reverse, [], b.reverse, hout, ?_, hsolid, by simp⟩
    rw [Text.solid_reverse, Text.solid_dropWhile, ← Text.solid_reverse, hbefore]
  · refine ⟨out.chars.reverse, (e.flat.reverse.dropWhile isSpace).reverse, b.reverse, ?_, hbefore,
      hsolid, fun hmem => hline ?_⟩
    · rw [hout, List.reverse_append, List.append_assoc]
    · exact List.mem_reverse.mp ((List.dropWhile_suffix isSpace).subset (List.mem_reverse.mp hmem))

end Render

namespace Doc

open Render

variable {d e : Doc} {is js : List Item} {u v : Text}

/-- **A normal line break is white space in the output**, if characters stand before it and behind
it. -/
theorem parted_of_normal (page : Page) (h : d.items = is ++ .line .normal :: js)
    (hu : Text.solid u = Text.solid (is.flatMap Item.flat))
    (hd : Text.solid d.flat = Text.solid u ++ Text.solid v) (hu' : Text.solid u ≠ [])
    (hv : Text.solid v ≠ []) : Text.Parted u v (d.render page) := by
  obtain ⟨x, hx, heven⟩ := exists_spreads_render page d
  rw [h] at hx
  exact hx.parted (by decide) heven hu ((solid_render page d).trans hd) hu' hv

/-- **Either all line breaks directly in a part are white space** in the output, or the part is on
one line. -/
theorem parted_or_onOneLine (page : Page) {direct : Bool} (h : After d direct is e)
    (hline : '\n' ∉ e.flat) :
    (∀ {kind : Line} {js : List Item} {u v : Text}, After (.line kind) true js d →
      Text.solid u = Text.solid ((is ++ js).flatMap Item.flat) →
      Text.solid e.flat = Text.solid u ++ Text.solid v → Text.solid u ≠ [] → Text.solid v ≠ [] →
        Text.Parted u v (e.render page)) ∨
      Text.OnOneLine (is.flatMap Item.flat) d.flat (e.render page) := by
  obtain ⟨s, indent, mode, rest, hs, hstack, hkeeps⟩ := exists_turn_render page h
  cases mode with
  | broken =>
    refine .inl fun {kind js u v} hk hu he hu' hv => ?_
    obtain ⟨t, indent', mode', rest', ht, hstack', hkeeps', hmode⟩ :=
      exists_turn hk.propagate hs hstack hkeeps
    rw [propagate, hmode rfl] at hstack'
    obtain ⟨x, hx, heven⟩ := exists_spreads_of_broken ht hstack' hkeeps'
    exact hx.parted (by decide) heven hu ((solid_render page e).trans he) hu' hv
  | flat =>
    obtain ⟨js, hitems⟩ := h.items_eq
    have hnone : '\n' ∉ d.propagate.flat := by
      rw [flat_propagate]
      intro hmem
      refine hline ?_
      rw [flat, hitems, List.flatMap_append, List.flatMap_append]
      exact List.mem_append_right _ (List.mem_append_left _ hmem)
    have := onOneLine_of_flat hs hstack hkeeps hnone
    rw [flat_propagate] at this
    exact .inr this

end Doc

end TemplateFormat
