import TemplateFormat.Proofs.Print.Reprint
import TemplateFormat.Proofs.Print.Sheet

/-!
# Children in their places

What is printed for a child is its sheet, and behind it a line break, if a blank line is kept there
(`dressed_inPlace`). A blank line is kept where the literal behind the child is blank and goes over
two line ends or more, and another action follows. So the child ends its row, and the next row has a
gap (`closes_container`). If the child stands alone on its line, it is all of its row
(`lastWord_of_alone`).

Results:
* `dressed_inPlace`: the document of a child in its place.
* `closes_container`: where blank lines are kept in a container.
* `lastWord_of_alone`: a child alone on the last line.
-/

namespace TemplateFormat

open Doc Render

/-! ## One child -/

namespace Node

/-- The line break that keeps a blank line behind the node is not lost on a long line only. -/
def breaksAfter (before after : Text) (d : Doc) : Node → Bool
  | .action _ _ _ => aloneOnLine before after || d.forcesBreak
  | _ => true

/-- The document is one that can be printed for a child of a container. -/
def Shown (d : Doc) : Node → Prop
  | .action _ _ _ => d.isEmpty = false ∧ d.rigid = true
  | .block _ frame _ => d.isEmpty = false ∧ frame.branch = false
  | _ => d.isEmpty = false

theorem same_kept (d : Doc) (after : Text) : Same (Doc.join [d, keptBlankLine after]).propagate
    (.concat [d.propagate, keptBlankLine after]) := by
  have hkept : (keptBlankLine after).propagate = keptBlankLine after := by
    rw [keptBlankLine]
    split <;> rfl
  rw [← join_propagateAll, propagateAll, propagateAll, propagateAll, hkept]
  exact same_join _

/-- Without a blank line behind it, the document is all there is. -/
theorem same_kept_of_not {after : Text} (h : blankLineFollows after = false) (d : Doc) :
    Same (Doc.join [d, keptBlankLine after]).propagate d.propagate := by
  refine (same_kept d after).trans ?_
  rw [keptBlankLine, h]
  exact ⟨fun _ _ => rfl, fun _ _ _ _ => rfl⟩

/-- A line break that keeps a blank line forces nothing. -/
theorem forcesBreak_kept {d : Doc} (h : d.isEmpty = false) (after : Text) :
    (Doc.join [d, keptBlankLine after]).forcesBreak = d.forcesBreak := by
  have hkept : (keptBlankLine after).forcesBreak = false := by
    rw [keptBlankLine]
    split <;> rfl
  rw [forcesBreak_join, List.any_cons, List.any_cons, List.any_nil, hkept, Bool.or_false,
    Bool.or_false]
  exact List.forall_mem_cons.mpr ⟨fun he => absurd he (by simp [h]), fun e he _ => by
    rw [List.mem_singleton.mp he, hkept]⟩

/-- A document in a place of its own, that no group surrounds. -/
theorem dressed_kept (flat : Int → Bool) (after : Text) (d : Doc) :
    Dressed flat (blankLineFollows after) true (Doc.join [d, keptBlankLine after]).propagate
      d.propagate where
  akin := fun h => .of_same (same_kept_of_not h d)
  fits := by
    rw [(same_kept d after).fits, keptBlankLine]
    split
    · exact congrArg (fitsThen .broken d.propagate) (fits_line .soft atBreak)
    · rfl
  print := fun h page levels o => by
    rw [(same_kept d after).print, keptBlankLine, h]
    show (printThen page levels .broken d.propagate (fitsAllThen .broken [softline] atBreak)
      o).newline
      page levels true = _
    rw [show fitsAllThen .broken [softline] atBreak = atBreak from fits_line .soft _]
    rfl

/-- **The document of a child in its place.** -/
theorem dressed_inPlace {n : Node} {d : Doc} (h : n.Shown d) (before after : Text) :
    Dressed (fitsThen .flat d.propagate atBreak) (blankLineFollows after)
      (n.breaksAfter before after d) (n.inPlace before after d).propagate d.propagate := by
  cases n with
  | raw info t => exact dressed_kept _ after d
  | chain info branches => exact dressed_kept _ after d
  | block info frame children =>
    rw [inPlace, h.2]
    exact dressed_kept _ after d
  | action info t act =>
    obtain ⟨hempty, hrigid⟩ := h
    have hsame := same_kept d after
    rw [inPlace, breaksAfter, propagate, forcesBreak_kept hempty]
    rw [propagate_of_rigid d hrigid] at hsame ⊢
    refine ⟨fun hnot => ?_, ?_, fun hkept page levels o => ?_⟩
    · have hsame := same_kept_of_not hnot d
      rw [propagate_of_rigid d hrigid] at hsame
      exact (Akin.of_same (hsame.group _)).trans (.group_of_rigid _ hrigid)
    · have hgroup := (dressed_kept atBreak after d).fits
      rw [propagate_of_rigid d hrigid] at hgroup
      rw [fitsThen, ite_self, hgroup]
    · have hflat : fitsThen .flat (Doc.join [d, keptBlankLine after]).propagate atBreak =
          fitsThen .flat d atBreak := by
        rw [hsame.fits, keptBlankLine, hkept]
        rfl
      have hmode (mode : Mode) : printThen page levels mode
          (Doc.join [d, keptBlankLine after]).propagate atBreak o =
            lineBreak page levels mode .soft (printThen page levels .broken d atBreak o) := by
        rw [hsame.print, keptBlankLine, hkept]
        show lineBreak page levels mode .soft (printThen page levels mode d _ o) = _
        rw [print_of_rigid page mode .broken _ atBreak d levels hrigid]
      rw [printThen]
      dsimp only
      rw [hflat, hmode, modeThen]
      cases aloneOnLine before after || d.forcesBreak <;>
        cases fitsThen .flat d atBreak (page.room o.column) <;> rfl

/-! ## What surrounds the children of a container -/

/-- What comes before the child with a number. -/
def beforeAt (before : Text) : List Node → Nat → Text
  | [], _ => []
  | n :: _, 0 => before ++ n.info.lead
  | _ :: ns, i + 1 => beforeAt closeBraces ns i

/-- What comes behind the child with a number. -/
def afterAt (tail after : Text) : List Node → Nat → Text
  | [], _ => []
  | _ :: ns, 0 => behind tail after ns
  | _ :: ns, i + 1 => afterAt tail after ns i

variable {tail after : Text}

/-- The document of the child with a number. -/
theorem getD_inPlaceAll : ∀ {before : Text} {ns : List Node} {ds : List Doc} {i : Nat} {n : Node}
    {d : Doc}, ns[i]? = some n → ds[i]? = some d → (inPlaceAll before tail after ns ds).getD i
    .empty =
      n.inPlace (beforeAt before ns i) (afterAt tail after ns i) d
  | _, [], _, _, _, _, hn, _ => absurd hn (by simp)
  | _, _ :: _, [], _, _, _, _, hd => absurd hd (by simp)
  | _, n :: ns, d :: ds, 0, _, _, hn, hd => by
    obtain rfl := Option.some.inj hn
    obtain rfl := Option.some.inj hd
    rfl
  | _, n :: ns, d :: ds, i + 1, m, e, hn, hd => by
    rw [List.getElem?_cons_succ] at hn hd
    rw [inPlaceAll, List.getD_cons_succ, getD_inPlaceAll hn hd, beforeAt, afterAt]

theorem afterAt_eq : ∀ {ns : List Node} {i : Nat}, i < ns.length →
    afterAt tail after ns i = behind tail after (ns.drop (i + 1))
  | [], _, h => absurd h (by simp)
  | _ :: _, 0, _ => rfl
  | _ :: ns, i + 1, h => by
    have hi : i < ns.length := Nat.lt_of_succ_lt_succ h
    rw [afterAt, afterAt_eq hi, List.drop_succ_cons]

theorem beforeAt_closeBraces : ∀ {ns : List Node} {i : Nat} {n : Node}, ns[i]? = some n →
    beforeAt closeBraces ns i = closeBraces ++ n.info.lead
  | [], _, _, h => absurd h (by simp)
  | n :: _, 0, _, h => by
    obtain rfl := Option.some.inj h
    rfl
  | _ :: ns, i + 1, n, h => by
    have hn : ns[i]? = some n := by rwa [List.getElem?_cons_succ] at h
    rw [beforeAt, beforeAt_closeBraces hn]

/-- The word of siblings at one of them. -/
theorem aliasWord_at : ∀ {ns : List Node} {i : Nat} {n : Node} (k : Nat), ns[i]? = some n →
    aliasWord k ns = aliasWord k (ns.take i) ++ Word.ofText n.info.lead ++
      .slot (k + i) :: aliasWord (k + i + 1) (ns.drop (i + 1))
  | [], _, _, _, h => absurd h (by simp)
  | n :: ns, 0, _, k, h => by
    obtain rfl := Option.some.inj h
    rfl
  | n :: ns, i + 1, m, k, h => by
    rw [List.getElem?_cons_succ] at h
    rw [aliasWord, aliasWord_at (k + 1) h, List.take_succ_cons, aliasWord, List.drop_succ_cons]
    simp only [List.append_assoc, List.cons_append, Nat.add_assoc, Nat.add_comm 1]

end Node

/-! ## Blank lines between actions -/

theorem exists_of_afterLineEnd? {t rest : Text} (h : afterLineEnd? t = some rest) :
    ∃ b, Text.isBlank b = true ∧ t = b ++ '\n' :: rest := by
  have hspaces := isBlank_takeWhile_isSpace t
  have hcut := (List.takeWhile_append_dropWhile (p := isSpace) (l := t)).symm
  unfold afterLineEnd? at h
  split at h
  · rename_i u hu
    obtain rfl := Option.some.inj h
    exact ⟨_, hspaces, by rw [← hu]; exact hcut⟩
  · rename_i u hu
    obtain rfl := Option.some.inj h
    refine ⟨t.takeWhile isSpace ++ ['\r'], by rw [Text.isBlank_append, hspaces]; rfl, ?_⟩
    rw [List.append_assoc, List.singleton_append, ← hu]
    exact hcut
  · exact absurd h (by simp)

/-- **Where a blank line is kept**, white space stands up to the braces of another action, with two
line ends in it. -/
theorem exists_of_blankLineFollows {lead next : Text} (hinert : Inert lead (next.take 1))
    (hnext : next = openBraces ∨ next = []) (h : blankLineFollows (lead ++ next) = true) :
    next = openBraces ∧ ∃ b b' b'', Text.isBlank b = true ∧ Text.isBlank b' = true ∧
      Text.isBlank b'' = true ∧ lead = b ++ '\n' :: (b' ++ '\n' :: b'') := by
  unfold blankLineFollows at h
  split at h
  case h_2 => exact absurd h (by decide)
  rename_i rest hrest
  obtain ⟨u, hu, hrest⟩ := Option.bind_eq_some_iff.mp hrest
  obtain ⟨b, hb, he⟩ := exists_of_afterLineEnd? hu
  obtain ⟨b', hb', rfl⟩ := exists_of_afterLineEnd? hrest
  obtain ⟨r, hr⟩ := Text.startsWith_iff.mp h
  have hcut := (List.takeWhile_append_dropWhile (p := isBlank) (l := rest)).symm
  have hb'' : Text.isBlank (rest.takeWhile isBlank) = true :=
    Text.isBlank_iff.mpr fun _ => List.mem_takeWhile_imp
  rw [show rest.dropWhile isBlank = openBraces ++ r from hr.symm] at hcut
  generalize rest.takeWhile isBlank = b'' at hcut hb''
  have hall : lead ++ next = (b ++ '\n' :: (b' ++ '\n' :: b'')) ++ (openBraces ++ r) := by
    rw [he, hcut]
    simp
  -- the braces that follow are no part of the literal
  rcases List.append_eq_append_iff.mp hall with ⟨a, ha, hnext'⟩ | ⟨c, hc, hnext'⟩
  · rcases hnext with rfl | rfl
    · obtain rfl : a = [] := by
        have := congrArg List.length hnext'
        simp only [List.length_append] at this
        exact List.length_eq_zero_iff.mp (by omega)
      exact ⟨rfl, b, b', b'', hb, hb', hb'', by rw [ha, List.append_nil]⟩
    · exact absurd (congrArg List.length hnext') (by simp [openBraces])
  · obtain _ | ⟨x, c⟩ := c
    · rcases hnext with rfl | rfl
      · exact ⟨rfl, b, b', b'', hb, hb', hb'', by rw [hc, List.append_nil]⟩
      · exact absurd (congrArg List.length hnext') (by simp [openBraces])
    · refine absurd ?_ hinert.braces
      obtain ⟨rfl, hbrace⟩ := List.cons.inj hnext'
      obtain _ | ⟨y, c⟩ := c
      · rw [← show '{' :: r = next from hbrace, hc, Text.solid_append]
        exact ⟨Text.solid (b ++ '\n' :: (b' ++ '\n' :: b'')), [], by
          rw [List.append_nil, List.append_assoc]
          rfl⟩
      · obtain ⟨rfl, -⟩ := List.cons.inj hbrace
        refine (Text.infix_solid (by decide) ?_).trans ⟨[], _, rfl⟩
        exact ⟨_, c, by rw [hc, List.append_assoc]; rfl⟩

/-! ## Where blank lines are kept -/

theorem mem_rowSlots_of_mem {first : Word} {rest : List Row} {g gap : Bool} {w : Word} {i : Nat}
    (h : (g, w) ∈ (gap, first) :: rest.map Row.flush) (hi : i ∈ w.slots) :
    i ∈ rowSlots first rest := by
  rcases List.mem_cons.mp h with he | hm
  · rw [(Prod.mk.inj he).2] at hi
    exact List.mem_append_left _ hi
  · obtain ⟨r, hr, he⟩ := List.mem_map.mp hm
    rw [← (Prod.mk.inj he).2] at hi
    exact List.mem_append_right _ (List.mem_flatMap.mpr ⟨r, hr, hi⟩)

theorem mem_slots_concat (w : Word) (i : Nat) : i ∈ Word.slots (w ++ [.slot i]) := by
  rw [Word.slots_append]
  exact List.mem_append_right _ (List.mem_singleton_self i)

/-- Slots that end their rows, before rows with gaps. -/
theorem closes_of_rows {kept : Nat → Bool} : ∀ {rest : List Row} {first : Word} (gap : Bool),
    (rowSlots first rest).Nodup → (∀ i ∈ rowSlots first rest, kept i = true → ∃ rs g w rs',
      (gap, first) :: rest.map Row.flush = rs ++ (g, w ++ [.slot i]) :: rs' ∧
        ∀ r ∈ rs'.head?, r.1 = true) → Closes kept first rest := by
  -- a slot that ends its row is not before the end of a row
  have hlast {first w : Word} {rest : List Row} {i : Nat} (hnodup : (rowSlots first rest).Nodup)
      (he : first = w ++ [.slot i]) (hi : i ∈ Word.slots first.dropLast) : False := by
    rw [he, List.dropLast_concat] at hi
    rw [rowSlots, he, Word.slots_append] at hnodup
    exact (List.nodup_append'.mp (List.nodup_append'.mp hnodup).1).2.2 hi
      (List.mem_singleton_self i)
  have hmem {first : Word} {i : Nat} (hi : i ∈ Word.slots first.dropLast) : i ∈ first.slots :=
    Word.mem_slots.mpr (List.mem_of_mem_dropLast (Word.mem_slots.mp hi))
  intro rest
  induction rest with
  | nil =>
    intro first gap hnodup h i hi
    by_contra hnot
    obtain ⟨rs, g, w, rs', he, -⟩ := h i (List.mem_append_left _ (hmem hi)) (by simpa using hnot)
    obtain _ | ⟨r, rs⟩ := rs
    · exact hlast hnodup (Prod.mk.inj (List.cons.inj he).1).2 hi
    · exact absurd (List.cons.inj he).2 (by simp)
  | cons r rest ih =>
    intro first gap hnodup h
    rw [rowSlots_cons] at hnodup h
    obtain ⟨-, hnodup', hdisjoint⟩ := List.nodup_append'.mp hnodup
    -- the slots of the first row end it, if a blank line is kept behind them
    have hfirst {i : Nat} (hi : i ∈ first.slots) (hkept : kept i = true) :
        (∃ w, first = w ++ [.slot i]) ∧ r.gap = true := by
      obtain ⟨rs, g, w, rs', he, hgap⟩ := h i (List.mem_append_left _ hi) hkept
      obtain _ | ⟨r', rs⟩ := rs
      · obtain ⟨hhead, hrest⟩ := List.cons.inj he
        refine ⟨⟨w, (Prod.mk.inj hhead).2⟩, hgap r.flush ?_⟩
        rw [← hrest]
        rfl
      · have hrest : (r.gap, r.word) :: rest.map Row.flush = rs ++ (g, w ++ [.slot i]) :: rs' :=
          (List.cons.inj he).2
        have hmem : (g, w ++ [.slot i]) ∈ (r.gap, r.word) :: rest.map Row.flush := by
          rw [hrest]
          exact List.mem_append_right _ List.mem_cons_self
        exact absurd (mem_rowSlots_of_mem hmem (mem_slots_concat w i)) fun hm => hdisjoint hi hm
    refine ⟨fun i hi => ?_, fun hgap i hi => ?_, ih r.gap hnodup' fun i hi hkept => ?_⟩
    · by_contra hnot
      obtain ⟨⟨w, he⟩, -⟩ := hfirst (hmem hi) (by simpa using hnot)
      rw [← rowSlots_cons] at hnodup
      exact hlast hnodup he hi
    · by_contra hnot
      rw [(hfirst hi (by simpa using hnot)).2] at hgap
      exact absurd hgap (by decide)
    · obtain ⟨rs, g, w, rs', he, hgap⟩ := h i (List.mem_append_right _ hi) hkept
      obtain _ | ⟨r', rs⟩ := rs
      · have he : first = w ++ [.slot i] := (Prod.mk.inj (List.cons.inj he).1).2
        exact absurd hi fun hm => hdisjoint (he ▸ mem_slots_concat w i) hm
      · exact ⟨rs, g, w, rs', (List.cons.inj he).2, hgap⟩

/-! ## Containers -/

namespace Node

/-- No action begins in a literal between siblings, or in the tail behind them. -/
structure Quiet (tail after : Text) (ns : List Node) : Prop where
  leads : ∀ n ∈ ns, Inert n.info.lead ['{']
  tail : Inert tail (after.take 1)

variable {tail after : Text} {ns : List Node}

/-- White space with two line ends stands behind a child, if a blank line is kept there. -/
theorem exists_of_kept (hquiet : Quiet tail after ns) (hafter : after = openBraces ∨ after = [])
    {i : Nat} {n : Node} (hn : ns[i]? = some n)
    (h : blankLineFollows (afterAt tail after ns i) = true) :
    ∃ b b' v : Word, b.all Symbol.isBlank = true ∧ b'.all Symbol.isBlank = true ∧
      aliasWord 0 ns ++ Word.ofText tail = (aliasWord 0 (ns.take i) ++ Word.ofText n.info.lead) ++
        .slot i :: (b ++ .char '\n' :: (b' ++ .char '\n' :: v)) ∧
      (i + 1 = ns.length → after = openBraces ∧ v.all Symbol.isBlank = true) := by
  obtain ⟨hi, -⟩ := List.getElem?_eq_some_iff.mp hn
  have hword := aliasWord_at 0 hn
  rw [Nat.zero_add] at hword
  rw [afterAt_eq hi] at h
  have hblank {t : Text} (ht : Text.isBlank t = true) :
      (Word.ofText t).all Symbol.isBlank = true := by rw [Word.all_isBlank_ofText, ht]
  have hsplit (b b' b'' : Text) : Word.ofText (b ++ '\n' :: (b' ++ '\n' :: b'')) = Word.ofText b ++
      .char '\n' :: (Word.ofText b' ++ .char '\n' :: Word.ofText b'') := by simp [Word.ofText]
  cases hdrop : ns.drop (i + 1) with
  | nil =>
    rw [hdrop, behind] at h
    obtain ⟨hbraces, b, b', b'', hb, hb', hb'', htail⟩ :=
      exists_of_blankLineFollows hquiet.tail hafter h
    refine ⟨_, _, _, hblank hb, hblank hb', ?_, fun _ => ⟨hbraces, hblank hb''⟩⟩
    rw [hword, hdrop, aliasWord, htail, hsplit, List.append_assoc]
    rfl
  | cons m ms =>
    rw [hdrop, behind] at h
    have hm : m ∈ ns := List.mem_of_mem_drop (hdrop ▸ List.mem_cons_self : m ∈ ns.drop (i + 1))
    obtain ⟨-, b, b', b'', hb, hb', -, hlead⟩ := exists_of_blankLineFollows
      (hquiet.leads m hm : Inert m.info.lead (openBraces.take 1)) (.inl rfl) h
    refine ⟨_, _, Word.ofText b'' ++ .slot (i + 1) :: (aliasWord (i + 1 + 1) ms ++
      Word.ofText tail),
      hblank hb, hblank hb', ?_, fun he => ?_⟩
    · rw [hword, hdrop, aliasWord, hlead, hsplit]
      simp only [List.append_assoc, List.cons_append]
    · rw [List.drop_eq_nil_of_le he.ge] at hdrop
      exact absurd hdrop (List.cons_ne_nil m ms).symm

/-- **Where blank lines are kept in a container**: behind rows, before rows with gaps. -/
theorem closes_container (hquiet : Quiet tail after ns) (hafter : after = openBraces ∨ after = [])
    {first : Word} {rest : List Row}
    (hrows : (aliasWord 0 ns ++ Word.ofText tail).rows = (false, first) :: rest.map Row.flush)
    (hslots : rowSlots first rest = List.range ns.length) :
    Closes (fun i => blankLineFollows (afterAt tail after ns i)) first rest := by
  refine closes_of_rows false (hslots ▸ List.nodup_range) fun i hi hkept => ?_
  rw [hslots, List.mem_range] at hi
  obtain ⟨b, b', v, hb, hb', hword, -⟩ :=
    exists_of_kept hquiet hafter (List.getElem?_eq_getElem hi) hkept
  obtain ⟨rs, g, w, hconcat, -⟩ := Word.rows_concat (x := .slot i) rfl
    (aliasWord 0 (ns.take i) ++ Word.ofText ns[i].info.lead)
  rw [← hrows, hword, Word.rows_gap rfl _ v hb hb', hconcat]
  refine ⟨rs, g, w, _, by rw [List.append_assoc, List.singleton_append], fun r hr => ?_⟩
  -- the first row behind white space has a gap before it
  have hhead {ls : List Word} : ∀ r ∈ (Rows.behind Symbol.isBlank true ls).head?, r.1 = true := by
    induction ls with
    | nil => simp [Rows.behind]
    | cons l ls ih =>
      rw [Rows.behind]
      split
      · exact ih
      · intro r hr
        rw [← Option.some.inj hr]
  exact hhead r hr

/-! ## The last child -/

/-- What stands behind the last row of rows. -/
theorem lastWord_eq {first : Word} {rest : List Row} {gap : Bool} {rs : List (Bool × Word)}
    {r : Bool × Word} (h : (gap, first) :: rest.map Row.flush = rs ++ [r]) :
    lastWord first rest = r.2 := by
  rcases List.eq_nil_or_concat rest with rfl | ⟨init, r', rfl⟩
  · have hone : [] ++ [(gap, first)] = rs ++ [r] := h
    obtain ⟨-, he⟩ := List.append_inj' hone rfl
    rw [← (List.cons.inj he).1]
    rfl
  · rw [List.concat_eq_append] at h ⊢
    rw [List.map_append, ← List.cons_append] at h
    obtain ⟨-, he⟩ := List.append_inj' h rfl
    rw [← (List.cons.inj he).1, lastWord, List.getLast?_concat]
    rfl

/-- The slot that ends the last row is the last one. -/
theorem eq_of_lastWord {first : Word} {rest : List Row} {n i : Nat}
    (hslots : rowSlots first rest = List.range n) (h : (lastWord first rest).getLast? =
    some (.slot i)) :
    i + 1 = n := by
  obtain ⟨w, hw⟩ := List.getLast?_eq_some_iff.mp h
  have hends : ∃ init, rowSlots first rest = init ++ [i] := by
    rcases List.eq_nil_or_concat rest with rfl | ⟨init, r, rfl⟩
    · have hfirst : first = w ++ [.slot i] := hw
      exact ⟨Word.slots w, by rw [rowSlots, hfirst, Word.slots_append]; exact List.append_nil _⟩
    · rw [List.concat_eq_append] at hw ⊢
      have hlast : r.word = w ++ [.slot i] := by
        rw [← hw, lastWord, List.getLast?_concat]
        rfl
      refine ⟨first.slots ++ (init.flatMap (fun r => r.word.slots) ++ Word.slots w), ?_⟩
      rw [rowSlots, List.flatMap_append, List.flatMap_singleton, hlast, Word.slots_append,
        List.append_assoc, List.append_assoc]
      rfl
  obtain ⟨init, hinit⟩ := hends
  rw [hslots] at hinit
  obtain _ | m := n
  · exact absurd (congrArg List.length hinit) (by simp)
  · rw [List.range_succ] at hinit
    obtain ⟨-, he⟩ := List.append_inj' hinit rfl
    exact congrArg Nat.succ (List.cons.inj he).1.symm

theorem exists_of_endsWithNewLine {t : Text} (h : endsWithNewLine t = true) :
    ∃ u b, t = u ++ '\n' :: b ∧ Text.isBlank b = true := by
  rw [endsWithNewLine, Bool.and_eq_true, any_newline_iff] at h
  obtain ⟨b, u, he, hb⟩ := List.eq_append_cons_of_mem (List.mem_reverse.mpr h.1)
  have ht : t = u.reverse ++ '\n' :: b.reverse := by
    rw [← List.reverse_reverse t, he]
    simp
  refine ⟨u.reverse, b.reverse, ht, Text.isBlank_iff.mpr fun c hc => ?_⟩
  refine Text.isBlank_iff.mp h.2 c ?_
  rw [Text.lastLine, List.mem_reverse, he,
    List.takeWhile_append_of_pos fun c hc => by
      simpa using fun hn : c = '\n' => hb (hn ▸ hc)]
  exact List.mem_append_left _ (List.mem_reverse.mp hc)

theorem isBlank_lastLine_closeBraces (lead : Text) :
    Text.isBlank (Text.lastLine (closeBraces ++ lead)) = endsWithNewLine lead :=
  isBlank_lastLine_append_cons (by decide) ['}'] lead

/-- **A child alone on the last line** is all of the last row. -/
theorem lastWord_of_alone (hquiet : Quiet tail after ns) (hafter : after = openBraces ∨ after = [])
    {first : Word} {rest : List Row}
    (hrows : (aliasWord 0 ns ++ Word.ofText tail).rows = (false, first) :: rest.map Row.flush)
    {i : Nat} {n : Node} (hn : ns[i]? = some n) (hi : i + 1 = ns.length)
    (hkept : blankLineFollows (afterAt tail after ns i) = true)
    (halone : Text.isBlank (Text.lastLine (closeBraces ++ n.info.lead)) = true) :
    lastWord first rest = [.slot i] := by
  obtain ⟨b, b', v, hb, hb', hword, hlast⟩ := exists_of_kept hquiet hafter hn hkept
  obtain ⟨-, hv⟩ := hlast hi
  have hblank : List.all (b ++ .char '\n' :: (b' ++ .char '\n' :: v)) Symbol.isBlank = true := by
    simp only [List.all_append, List.all_cons, hb, hb', hv]
    rfl
  rw [isBlank_lastLine_closeBraces] at halone
  obtain ⟨u, t, hlead, ht⟩ := exists_of_endsWithNewLine halone
  obtain ⟨rs, g, w, hconcat, hline⟩ := Word.rows_concat (x := .slot i) rfl
    (aliasWord 0 (ns.take i) ++ Word.ofText n.info.lead)
  have hw : w = [] := hline (aliasWord 0 (ns.take i) ++ Word.ofText u) (Word.ofText t)
    (by rw [hlead]; simp [Word.ofText]) (by rw [Word.all_isBlank_ofText, ht])
  rw [hword, List.append_cons, Word.rows_append_blank hblank, hconcat, hw] at hrows
  exact lastWord_eq hrows.symm

/-- A word of siblings, cut at the slot of one of them. -/
theorem exists_of_aliasWord : ∀ {ns : List Node} {k j : Nat} {u v : Word},
    aliasWord k ns ++ Word.ofText tail = u ++ .slot j :: v → ∃ i n, j = k + i ∧ ns[i]? = some n ∧
      u = aliasWord k (ns.take i) ++ Word.ofText n.info.lead ∧
      v = aliasWord (k + i + 1) (ns.drop (i + 1)) ++ Word.ofText tail
  | [], k, j, u, v, h => by
    have hm : Symbol.slot j ∈ Word.ofText tail := by
      rw [show Word.ofText tail = u ++ .slot j :: v from h]
      exact List.mem_append_right _ List.mem_cons_self
    obtain ⟨c, -, hc⟩ := List.mem_map.mp hm
    exact absurd hc (by simp)
  | n :: ns, k, j, u, v, h => by
    -- the slot is the first one, or one behind it
    have hcut : ∀ {t : Text} {u w : Word}, Word.ofText t ++ .slot k :: w = u ++ .slot j :: v →
        (u = Word.ofText t ∧ j = k ∧ v = w) ∨
          ∃ u', u = Word.ofText t ++ .slot k :: u' ∧ w = u' ++ .slot j :: v := by
      intro t
      induction t with
      | nil =>
        intro u w h
        rcases List.cons_eq_append_iff.mp h with ⟨rfl, he⟩ | ⟨u', rfl, he⟩
        · obtain ⟨hj, hv⟩ := List.cons.inj he
          exact .inl ⟨rfl, Symbol.slot.inj hj, hv⟩
        · exact .inr ⟨u', rfl, he⟩
      | cons c t ih =>
        intro u w h
        rcases List.cons_eq_append_iff.mp h with ⟨rfl, he⟩ | ⟨u', rfl, he⟩
        · exact absurd (List.cons.inj he).1 (by simp)
        · rcases ih he with ⟨rfl, hj, hv⟩ | ⟨u'', rfl, hw⟩
          · exact .inl ⟨rfl, hj, hv⟩
          · exact .inr ⟨u'', rfl, hw⟩
    rw [aliasWord, List.append_assoc, List.cons_append] at h
    rcases hcut h with ⟨rfl, rfl, rfl⟩ | ⟨u', rfl, he⟩
    · exact ⟨0, n, rfl, rfl, rfl, rfl⟩
    · obtain ⟨i, m, rfl, hm, rfl, rfl⟩ := exists_of_aliasWord he
      refine ⟨i + 1, m, by omega, by rwa [List.getElem?_cons_succ], ?_, ?_⟩
      · rw [List.take_succ_cons, aliasWord]
        simp only [List.append_assoc, List.cons_append]
      · rw [List.drop_succ_cons, Nat.add_assoc k 1 i, Nat.add_comm 1 i]

/-- What stands right before a slot of siblings is a literal. -/
theorem suffix_lead {ns : List Node} {k : Nat} {lead t : Text} {u : Word}
    (h : aliasWord k ns ++ Word.ofText lead = u ++ Word.ofText t) : t <:+ lead := by
  rcases List.append_eq_append_iff.mp h with ⟨a, -, ha⟩ | ⟨c, hc, ht⟩
  · obtain ⟨s, s', rfl, -, hs'⟩ := List.map_eq_append_iff.mp ha
    obtain rfl : s' = t := Word.ofText_injective hs'
    exact List.suffix_append s s'
  · rcases List.eq_nil_or_concat c with rfl | ⟨c, x, rfl⟩
    · obtain rfl : t = lead := Word.ofText_injective ht
      exact List.suffix_rfl
    · -- a word of siblings ends with a slot
      rw [List.concat_eq_append] at hc ht
      have hx : x ∈ Word.ofText t := by
        rw [ht]
        simp
      obtain ⟨y, -, rfl⟩ := List.mem_map.mp hx
      rcases List.eq_nil_or_concat ns with rfl | ⟨ns, n, rfl⟩
      · exact absurd hc (by simp [aliasWord])
      · rw [List.concat_eq_append] at hc
        have hlast : (aliasWord k (ns ++ [n])).getLast? = some (.char y) := by
          rw [hc, ← List.append_assoc, List.getLast?_concat]
        rw [aliasWord_at k (i := ns.length) (n := n) (by simp)] at hlast
        simp [aliasWord] at hlast

end Node

end TemplateFormat
