import TemplateFormat.Proofs.Markup.Places
import TemplateFormat.Proofs.Text.Loose

/-!
# Masking markup with other white space

Whether a character of markup is written over does not depend on how long the runs of white space
are: the comments and the bodies of script and style elements are the same ones, up to their white
space. So each character that is no white space has the same flag in the loose text
(`ink_commentFlags_loose`, `ink_bodyFlags_loose`), where a run of white space is one space. The
flags of white space do not matter, since what is written over it is white space again.

Results:
* `solid_flagged_congr`: the flags of characters that are no white space.
* `even_mask_congr`: the masked markup, up to its white space.
-/

namespace TemplateFormat

open Text (loose squeeze solid IsSolid)

theorem afterTag?_loose {quote : Option Char} (hq : ∀ q ∈ quote, isBlank q = false) (t : Text) :
    afterTag? quote (loose t) = (afterTag? quote t).map loose := by
  induction t generalizing quote with
  | nil => exact afterTag?_cons_of_blank hq (by decide) []
  | cons c t ih =>
    cases hc : isBlank c with
    | true =>
      rw [afterTag?_cons_of_blank hq hc]
      rcases Text.loose_cons_of_blank hc t with h | h <;> rw [h]
      · exact ih hq
      · rw [afterTag?_cons_of_blank hq (by decide), ih hq]
    | false =>
      rw [Text.loose_cons_of_not_blank hc, afterTag?_cons, afterTag?_cons]
      split
      · rfl
      · exact ih (not_blank_nextQuote hq c)

namespace Markup

/-! ## The flags of characters that are no white space -/

/-- The characters that are no white space, with their flags. -/
def Flagged.solid (f : Flagged) : Flagged := f.filter fun p => !isBlank p.1

/-- The characters of a text that are no white space, with their flags. -/
def ink (t : Text) (flags : List Bool) : Flagged := Flagged.solid (t.zip flags)

theorem ink_cons_of_blank {c : Char} (h : isBlank c = true) (t : Text) (flag : Bool)
    (flags : List Bool) : ink (c :: t) (flag :: flags) = ink t flags := by
  simp [ink, Flagged.solid, h]

theorem ink_cons_of_not_blank {c : Char} (h : isBlank c = false) (t : Text) (flag : Bool)
    (flags : List Bool) : ink (c :: t) (flag :: flags) = (c, flag) :: ink t flags := by
  simp [ink, Flagged.solid, h]

theorem ink_append {s : Text} {flags : List Bool} (h : s.length = flags.length) (t : Text)
    (flags' : List Bool) : ink (s ++ t) (flags ++ flags') = ink s flags ++ ink t flags' := by
  rw [ink, List.zip_append h, Flagged.solid, List.filter_append]
  rfl

theorem ink_replicate (t : Text) (flag : Bool) :
    ink t (List.replicate t.length flag) = (solid t).map (·, flag) := by
  induction t with
  | nil => rfl
  | cons c t ih =>
    rw [List.length_cons, List.replicate_succ]
    cases hc : isBlank c with
    | true => rw [ink_cons_of_blank hc, ih, Text.solid_cons_of_blank hc]
    | false => rw [ink_cons_of_not_blank hc, ih, Text.solid_cons_of_not_blank hc, List.map_cons]

/-- Flags that are put together: each character has both. -/
theorem ink_or {t : Text} {flags flags' : List Bool} (h : t.length = flags.length)
    (h' : t.length = flags'.length) : ink t (List.zipWith or flags flags') =
      List.zipWith (fun p q => (p.1, p.2 || q.2)) (ink t flags) (ink t flags') := by
  induction t generalizing flags flags' with
  | nil => rfl
  | cons c t ih =>
    obtain ⟨a, flags, rfl⟩ := List.exists_cons_of_length_eq_add_one h.symm
    obtain ⟨b, flags', rfl⟩ := List.exists_cons_of_length_eq_add_one h'.symm
    have hrest := ih (Nat.succ.inj h) (Nat.succ.inj h')
    rw [List.zipWith_cons_cons]
    cases hc : isBlank c with
    | true => rw [ink_cons_of_blank hc, ink_cons_of_blank hc, ink_cons_of_blank hc, hrest]
    | false =>
      rw [ink_cons_of_not_blank hc, ink_cons_of_not_blank hc, ink_cons_of_not_blank hc, hrest,
        List.zipWith_cons_cons]

/-! ## Comments -/

theorem isSolid_commentOpening : IsSolid commentOpening := by decide

theorem isSolid_commentClosing : IsSolid commentClosing := by decide

/-- No comment is opened. -/
theorem commentFlags_of_none {t : Text} (h : Text.cut? commentOpening t = none) :
    commentFlags t = List.replicate t.length false := by
  rw [commentFlags]
  split
  · rfl
  · rename_i hcut
    exact absurd (hcut.symm.trans h) (by simp)

/-- The first comment that is opened is not closed. -/
theorem commentFlags_of_unclosed {t before inside : Text}
    (h : Text.cut? commentOpening t = some (before, inside))
    (h' : Text.cut? commentClosing inside = none) :
    commentFlags t = List.replicate t.length false := by
  rw [commentFlags]
  split
  · rfl
  · rename_i before' inside' hcut
    obtain ⟨rfl, rfl⟩ := Prod.mk.inj (Option.some.inj (hcut.symm.trans h))
    split
    · rfl
    · rename_i hclose
      exact absurd (hclose.symm.trans h') (by simp)

/-- The first comment that is found. -/
theorem commentFlags_of_cut {t before inside body rest : Text}
    (h : Text.cut? commentOpening t = some (before, inside))
    (h' : Text.cut? commentClosing inside = some (body, rest)) : commentFlags t =
      List.replicate before.length false ++
        List.replicate (commentOpening.length + body.length + commentClosing.length) true ++
        commentFlags rest := by
  rw [commentFlags]
  split
  · rename_i hcut
    exact absurd (hcut.symm.trans h) (by simp)
  · rename_i before' inside' hcut
    obtain ⟨rfl, rfl⟩ := Prod.mk.inj (Option.some.inj (hcut.symm.trans h))
    split
    · rename_i hclose
      exact absurd (hclose.symm.trans h') (by simp)
    · rename_i body' rest' hclose
      obtain ⟨rfl, rfl⟩ := Prod.mk.inj (Option.some.inj (hclose.symm.trans h'))
      rfl

theorem ink_commentFlags_of_cut {t before inside body rest : Text}
    (h : Text.cut? commentOpening t = some (before, inside))
    (h' : Text.cut? commentClosing inside = some (body, rest)) : ink t (commentFlags t) =
      (solid before).map (·, false) ++
        ((solid (commentOpening ++ body ++ commentClosing)).map (·, true) ++
        ink rest (commentFlags rest)) := by
  have ht : t = before ++ ((commentOpening ++ body ++ commentClosing) ++ rest) := by
    rw [Text.cut?_eq_some h, Text.cut?_eq_some h']
    simp
  have hflags : commentFlags t = List.replicate before.length false ++
      (List.replicate (commentOpening ++ body ++ commentClosing).length true ++
        commentFlags rest) := by
    rw [commentFlags_of_cut h h', List.append_assoc, List.length_append, List.length_append]
  rw [hflags]
  conv_lhs => rw [ht]
  rw [ink_append (by simp), ink_append (by simp), ink_replicate, ink_replicate]

theorem cut?_commentOpening_loose (t : Text) : Text.cut? commentOpening (loose t) =
    (Text.cut? commentOpening t).map fun p => (squeeze p.1, loose p.2) :=
  Text.cut?_loose isSolid_commentOpening (by decide) t

theorem cut?_commentClosing_loose (t : Text) : Text.cut? commentClosing (loose t) =
    (Text.cut? commentClosing t).map fun p => (squeeze p.1, loose p.2) :=
  Text.cut?_loose isSolid_commentClosing (by decide) t

/-- **Comments are the same in the loose text.** -/
theorem ink_commentFlags_loose (t : Text) :
    ink (loose t) (commentFlags (loose t)) = ink t (commentFlags t) := by
  fun_induction commentFlags t with
  | case1 t h =>
    have hloose := cut?_commentOpening_loose t
    rw [h, Option.map_none] at hloose
    rw [commentFlags_of_none hloose, ink_replicate, ink_replicate, Text.solid_loose]
  | case2 t before inside h h' =>
    have hloose := cut?_commentOpening_loose t
    have hloose' := cut?_commentClosing_loose inside
    rw [h, Option.map_some] at hloose
    rw [h', Option.map_none] at hloose'
    rw [commentFlags_of_unclosed hloose hloose', ink_replicate, ink_replicate, Text.solid_loose]
  | case3 t before inside h body rest h' ih =>
    have hloose := cut?_commentOpening_loose t
    have hloose' := cut?_commentClosing_loose inside
    rw [h, Option.map_some] at hloose
    rw [h', Option.map_some] at hloose'
    rw [← commentFlags_of_cut h h', ink_commentFlags_of_cut h h',
      ink_commentFlags_of_cut hloose hloose', ih]
    simp

/-! ## Bodies of script and style elements -/

theorem isLetter_of_isBlank {l c : Char} (hl : l.isLower = true) (hc : isBlank c = true) :
    isLetter l c = false := by
  refine Bool.eq_false_iff.mpr fun h => ?_
  have hword := isWord_of_isLetter hl h
  rw [isWord_of_isBlank hc] at hword
  exact absurd hword (by decide)

theorem afterName?_loose {name : Text} (hname : ∀ l ∈ name, l.isLower = true) (t : Text) :
    afterName? name (loose t) = (afterName? name t).map loose := by
  induction name generalizing t with
  | nil => simp [afterName?]
  | cons l name ih =>
    obtain ⟨hl, hname⟩ := List.forall_mem_cons.mp hname
    cases t with
    | nil => simp [afterName?, isLetter_of_isBlank hl (c := ' ') (by decide)]
    | cons c t =>
      cases hc : isBlank c with
      | true =>
        obtain ⟨s, hs⟩ := Text.exists_loose_cons_of_blank hc t
        rw [hs]
        simp [afterName?, isLetter_of_isBlank hl (c := ' ') (by decide), isLetter_of_isBlank hl hc]
      | false =>
        rw [Text.loose_cons_of_not_blank hc, afterName?, afterName?]
        split
        · exact ih hname t
        · rfl

/-- What a reader of names leaves, loosened. -/
theorem findSome?_rawNames_loose {f g : Text → Option Text}
    (h : ∀ name ∈ rawNames, g name = (f name).map loose) :
    rawNames.findSome? g = (rawNames.findSome? f).map loose := by
  have hlist : ∀ {names : List Text}, (∀ name ∈ names, g name = (f name).map loose) →
      names.findSome? g = (names.findSome? f).map loose := by
    intro names hnames
    induction names with
    | nil => rfl
    | cons name names ih =>
      obtain ⟨hname, hnames⟩ := List.forall_mem_cons.mp hnames
      rw [List.findSome?_cons, List.findSome?_cons, hname, ih hnames]
      cases f name <;> rfl
  exact hlist h

theorem afterRawOpening?_eq (t : Text) : afterRawOpening? t =
    (Text.dropStart? ['<'] t).bind fun s =>
      (rawNames.findSome? fun name => (afterName? name s).filter atWordEnd).bind fun inTag =>
        (Text.cut? ['>'] inTag).map Prod.snd := by
  unfold afterRawOpening?
  split
  · rename_i s
    show _ = (rawNames.findSome? fun name => (afterName? name s).filter atWordEnd).bind _
    cases rawNames.findSome? fun name => (afterName? name s).filter atWordEnd <;> rfl
  · rename_i hno
    have hnone : Text.dropStart? ['<'] t = none :=
      Option.eq_none_iff_forall_ne_some.mpr fun s hs => hno s (Text.dropStart?_eq_some.mp hs)
    rw [hnone]
    rfl

theorem afterRawOpening?_loose (t : Text) :
    afterRawOpening? (loose t) = (afterRawOpening? t).map loose := by
  rw [afterRawOpening?_eq, afterRawOpening?_eq, Text.dropStart?_loose (by decide)]
  cases Text.dropStart? ['<'] t with
  | none => rfl
  | some s =>
    have hname : rawNames.findSome? (fun name => (afterName? name (loose s)).filter atWordEnd) =
        (rawNames.findSome? fun name => (afterName? name s).filter atWordEnd).map loose := by
      refine findSome?_rawNames_loose fun name hname => ?_
      rw [afterName?_loose (isLower_of_mem_rawNames hname)]
      cases afterName? name s with
      | none => rfl
      | some rest =>
        rw [Option.map_some, Option.filter_some, Option.filter_some, atWordEnd_loose]
        split <;> rfl
    rw [Option.map_some, Option.bind_some, Option.bind_some, hname]
    cases rawNames.findSome? fun name => (afterName? name s).filter atWordEnd with
    | none => rfl
    | some inTag =>
      rw [Option.map_some, Option.bind_some, Option.bind_some,
        Text.cut?_loose (by decide) (by decide)]
      cases Text.cut? ['>'] inTag <;> rfl

theorem afterRawClosing?_eq (t : Text) : afterRawClosing? t =
    (Text.dropStart? ['<', '/'] t).bind fun s =>
      (afterRawName? s).bind fun gap => Text.dropStart? ['>'] (Text.trimStart gap) := by
  unfold afterRawClosing?
  split
  · rename_i s
    show _ = (afterRawName? s).bind _
    cases afterRawName? s with
    | none => rfl
    | some gap =>
      rw [Option.map_some, Option.bind_some]
      split
      · rename_i rest hrest
        rw [Option.some.inj hrest]
        rfl
      · rename_i hno
        exact (Option.eq_none_iff_forall_ne_some.mpr fun rest hrest =>
          hno rest (congrArg some (Text.dropStart?_eq_some.mp hrest))).symm
  · rename_i hno
    have hnone : Text.dropStart? ['<', '/'] t = none :=
      Option.eq_none_iff_forall_ne_some.mpr fun s hs => hno s (Text.dropStart?_eq_some.mp hs)
    rw [hnone]
    rfl

theorem dropStart?_trimStart_loose {w : Text} (hw : IsSolid w) (hne : w ≠ []) (t : Text) :
    Text.dropStart? w (Text.trimStart (loose t)) =
      (Text.dropStart? w (Text.trimStart t)).map loose := by
  rcases Text.trimStart_loose t with ⟨hloose, htrim⟩ | ⟨c, s, hloose, htrim⟩ <;> rw [hloose, htrim]
  · obtain ⟨d, w, rfl⟩ := List.exists_cons_of_ne_nil hne
    rfl
  · have hc := Text.head_trimStart t
    rw [htrim] at hc
    rw [← Text.loose_cons_of_not_blank (hc c rfl), Text.dropStart?_loose hw]

theorem afterRawClosing?_loose (t : Text) :
    afterRawClosing? (loose t) = (afterRawClosing? t).map loose := by
  have hname (s : Text) : afterRawName? (loose s) = (afterRawName? s).map loose :=
    findSome?_rawNames_loose fun _ hname => afterName?_loose (isLower_of_mem_rawNames hname) s
  rw [afterRawClosing?_eq, afterRawClosing?_eq, Text.dropStart?_loose (by decide)]
  cases Text.dropStart? ['<', '/'] t with
  | none => rfl
  | some s =>
    rw [Option.map_some, Option.bind_some, Option.bind_some, hname]
    cases afterRawName? s with
    | none => rfl
    | some gap =>
      rw [Option.map_some, Option.bind_some, Option.bind_some,
        dropStart?_trimStart_loose (by decide) (by decide)]

theorem afterRawClosing?_of_blank {c : Char} (hc : isBlank c = true) (t : Text) :
    afterRawClosing? (c :: t) = none := by
  have hne : '<' ≠ c := (ne_of_isBlank hc (by decide)).symm
  rw [afterRawClosing?_eq, Text.dropStart?, if_neg hne]
  rfl

/-- What stands before the first closing tag, without white space, and what follows the tag. -/
def cutBody? (t : Text) : Option (Text × Text) :=
  (cutRawClosing? t).map fun p => (solid (t.take p.1), p.2)

theorem cutBody?_cons_of_some {c : Char} {t rest : Text}
    (h : afterRawClosing? (c :: t) = some rest) : cutBody? (c :: t) = some ([], rest) := by
  rw [cutBody?, cutRawClosing?, h]
  rfl

theorem cutBody?_cons_of_none {c : Char} {t : Text} (h : afterRawClosing? (c :: t) = none) :
    cutBody? (c :: t) = (cutBody? t).map fun p => (solid [c] ++ p.1, p.2) := by
  rw [cutBody?, cutBody?, cutRawClosing?, h]
  cases cutRawClosing? t with
  | none => rfl
  | some p =>
    simp only [Option.map_some, List.take_succ_cons]
    rw [← Text.solid_append]
    rfl

theorem cutBody?_cons_of_blank {c : Char} (hc : isBlank c = true) (t : Text) :
    cutBody? (c :: t) = cutBody? t := by
  rw [cutBody?_cons_of_none (afterRawClosing?_of_blank hc t),
    Text.solid_of_isBlank (t := [c]) (by simp [hc])]
  cases cutBody? t <;> rfl

theorem cutBody?_loose (t : Text) :
    cutBody? (loose t) = (cutBody? t).map fun p => (p.1, loose p.2) := by
  induction t with
  | nil => exact cutBody?_cons_of_blank (by decide) []
  | cons c t ih =>
    cases hc : isBlank c with
    | true =>
      rw [cutBody?_cons_of_blank hc]
      rcases Text.loose_cons_of_blank hc t with h | h <;> rw [h]
      · exact ih
      · rw [cutBody?_cons_of_blank (by decide), ih]
    | false =>
      have hloose := afterRawClosing?_loose (c :: t)
      rw [Text.loose_cons_of_not_blank hc] at hloose ⊢
      cases hclose : afterRawClosing? (c :: t) with
      | some rest =>
        rw [hclose] at hloose
        rw [cutBody?_cons_of_some hloose, cutBody?_cons_of_some hclose]
        rfl
      | none =>
        rw [hclose] at hloose
        rw [cutBody?_cons_of_none hloose, cutBody?_cons_of_none hclose, ih]
        cases cutBody? t <;> rfl

/-! ## The flags of bodies -/

theorem exists_of_afterName? {name t rest : Text} (h : afterName? name t = some rest) :
    ∃ s, t = s ++ rest := by
  induction name generalizing t with
  | nil => exact ⟨[], Option.some.inj h⟩
  | cons l name ih =>
    cases t with
    | nil => exact absurd h (by simp [afterName?])
    | cons c t =>
      rw [afterName?] at h
      split at h
      · obtain ⟨s, rfl⟩ := ih h
        exact ⟨c :: s, rfl⟩
      · exact absurd h (by simp)

theorem exists_of_afterRawOpening? {t inside : Text} (h : afterRawOpening? t = some inside) :
    ∃ opening, t = opening ++ inside := by
  rw [afterRawOpening?_eq] at h
  obtain ⟨s, hs, h⟩ := Option.bind_eq_some_iff.mp h
  obtain ⟨inTag, hname, h⟩ := Option.bind_eq_some_iff.mp h
  obtain ⟨⟨before, after⟩, hcut, rfl⟩ := Option.map_eq_some_iff.mp h
  obtain ⟨name, -, hname⟩ := List.exists_of_findSome?_eq_some hname
  obtain ⟨x, rfl⟩ := exists_of_afterName? (Option.filter_eq_some_iff.mp hname).1
  rw [Text.dropStart?_eq_some.mp hs, Text.cut?_eq_some hcut]
  exact ⟨['<'] ++ (x ++ (before ++ ['>'])), by simp⟩

theorem exists_of_cutRawClosing? {t rest : Text} {n : Nat} (h : cutRawClosing? t = some (n, rest)) :
    ∃ body closing, t = body ++ (closing ++ rest) ∧ body.length = n := by
  induction t generalizing n with
  | nil => exact absurd h (by simp [cutRawClosing?])
  | cons c t ih =>
    rw [cutRawClosing?] at h
    split at h
    · rename_i r hr
      obtain ⟨rfl, rfl⟩ := Prod.mk.inj (Option.some.inj h)
      rw [afterRawClosing?_eq] at hr
      obtain ⟨s, hstart, hinTag⟩ := Option.bind_eq_some_iff.mp hr
      obtain ⟨gap, hname, hend⟩ := Option.bind_eq_some_iff.mp hinTag
      obtain ⟨name, -, hname⟩ := List.exists_of_findSome?_eq_some hname
      obtain ⟨x, hx⟩ := exists_of_afterName? hname
      obtain ⟨b, -, hb⟩ := Text.eq_append_trimStart gap
      refine ⟨[], ['<', '/'] ++ (x ++ (b ++ ['>'])), ?_, rfl⟩
      rw [Text.dropStart?_eq_some.mp hstart, hx, hb, Text.dropStart?_eq_some.mp hend]
      simp
    · obtain ⟨⟨k, r⟩, hk, he⟩ := Option.map_eq_some_iff.mp h
      obtain ⟨rfl, rfl⟩ := Prod.mk.inj he
      obtain ⟨body, closing, rfl, hlen⟩ := ih hk
      exact ⟨c :: body, closing, rfl, by rw [List.length_cons, hlen]⟩

/-- The parts of an element at the start of a text: the opening tag, the body and the closing tag.
-/
structure RawElement.Parts (t : Text) (e : RawElement) (opening body closing : Text) : Prop where
  eq : t = opening ++ (body ++ (closing ++ e.rest))
  opening_length : opening.length = e.opening
  body_length : body.length = e.body
  inside : afterRawOpening? t = some (body ++ (closing ++ e.rest))
  cut : cutBody? (body ++ (closing ++ e.rest)) = some (solid body, e.rest)

theorem RawElement.exists_parts {t : Text} {e : RawElement} (h : RawElement.at? t = some e) :
    ∃ opening body closing, e.Parts t opening body closing := by
  unfold RawElement.at? at h
  split at h
  · exact absurd h (by simp)
  · rename_i inside hinside
    obtain ⟨⟨n, rest⟩, hcut, rfl⟩ := Option.map_eq_some_iff.mp h
    obtain ⟨opening, rfl⟩ := exists_of_afterRawOpening? hinside
    obtain ⟨body, closing, rfl, rfl⟩ := exists_of_cutRawClosing? hcut
    refine ⟨opening, body, closing, rfl, by simp, rfl, hinside, ?_⟩
    rw [cutBody?, hcut, Option.map_some, List.take_left]

theorem RawElement.at?_loose_of_none {t : Text} (h : RawElement.at? t = none) :
    RawElement.at? (loose t) = none := by
  unfold RawElement.at? at h ⊢
  rw [afterRawOpening?_loose]
  split at h
  · rename_i hopening
    rw [hopening]
    rfl
  · rename_i inside hopening
    have hcut := cutBody?_loose inside
    rw [cutBody?, cutBody?, Option.map_eq_none_iff.mp h, Option.map_none, Option.map_none,
      Option.map_eq_none_iff] at hcut
    rw [hopening, Option.map_some]
    show (cutRawClosing? (loose inside)).map _ = none
    rw [hcut]
    rfl

/-- **The same element is found in the loose text.** -/
theorem RawElement.Parts.at?_loose {t opening body closing : Text} {e : RawElement}
    (h : e.Parts t opening body closing) : ∃ e' opening' body' closing',
      RawElement.at? (loose t) = some e' ∧ e'.Parts (loose t) opening' body' closing' ∧
        e'.rest = loose e.rest ∧ solid opening' = solid opening ∧ solid body' = solid body ∧
          solid closing' = solid closing := by
  have hinside := afterRawOpening?_loose t
  have hcut := cutBody?_loose (body ++ (closing ++ e.rest))
  rw [h.inside, Option.map_some] at hinside
  rw [h.cut, Option.map_some] at hcut
  obtain ⟨e', hat⟩ : ∃ e', RawElement.at? (loose t) = some e' := by
    obtain ⟨p, hp, -⟩ := Option.map_eq_some_iff.mp hcut
    rw [RawElement.at?, hinside]
    exact ⟨_, congrArg (Option.map _) hp⟩
  obtain ⟨opening', body', closing', hparts⟩ := RawElement.exists_parts hat
  have hsame := Option.some.inj (hinside.symm.trans hparts.inside)
  rw [hsame, hparts.cut, Option.some.injEq, Prod.mk.injEq] at hcut
  obtain ⟨hbody, hrest⟩ := hcut
  refine ⟨e', opening', body', closing', hat, hparts, hrest, ?_, hbody, ?_⟩
  · have hall := congrArg solid hparts.eq
    rw [← hsame, Text.solid_loose, h.eq, Text.solid_append, Text.solid_append opening',
      Text.solid_loose] at hall
    exact (List.append_cancel_right hall).symm
  · have hall := congrArg solid hsame
    rw [Text.solid_loose, Text.solid_append, Text.solid_append body', hbody, Text.solid_append,
      Text.solid_append closing', hrest, Text.solid_loose] at hall
    exact (List.append_cancel_right (List.append_cancel_left hall)).symm

theorem bodyFlags_cons_of_none {c : Char} {t : Text} (h : RawElement.at? (c :: t) = none) :
    bodyFlags (c :: t) = false :: bodyFlags t := by
  rw [bodyFlags]
  split
  · rfl
  · rename_i e he
    exact absurd (h.symm.trans he) (by simp)

theorem bodyFlags_cons_of_some {c : Char} {t : Text} {e : RawElement}
    (h : RawElement.at? (c :: t) = some e) : bodyFlags (c :: t) =
      List.replicate e.opening false ++ List.replicate e.body true ++
        List.replicate ((c :: t).length - e.opening - e.body - e.rest.length) false ++
          bodyFlags e.rest := by
  rw [bodyFlags]
  split
  · rename_i hnone
    exact absurd (hnone.symm.trans h) (by simp)
  · rename_i e' he
    obtain rfl := Option.some.inj (he.symm.trans h)
    rfl

theorem RawElement.Parts.bodyFlags_eq {t opening body closing : Text} {e : RawElement}
    (hat : RawElement.at? t = some e) (h : e.Parts t opening body closing) :
    bodyFlags t = List.replicate opening.length false ++ (List.replicate body.length true ++
      (List.replicate closing.length false ++ bodyFlags e.rest)) := by
  cases t with
  | nil => exact absurd hat (by simp [RawElement.at?, afterRawOpening?])
  | cons c t =>
    have hlen : (c :: t).length - e.opening - e.body - e.rest.length = closing.length := by
      rw [h.eq, ← h.opening_length, ← h.body_length]
      simp only [List.length_append]
      omega
    rw [bodyFlags_cons_of_some hat, hlen, ← h.opening_length, ← h.body_length,
      List.append_assoc, List.append_assoc]

theorem RawElement.Parts.ink_bodyFlags {t opening body closing : Text} {e : RawElement}
    (hat : RawElement.at? t = some e) (h : e.Parts t opening body closing) : ink t (bodyFlags t) =
      (solid opening).map (·, false) ++ ((solid body).map (·, true) ++
        ((solid closing).map (·, false) ++ ink e.rest (bodyFlags e.rest))) := by
  rw [h.bodyFlags_eq hat]
  conv_lhs => rw [h.eq]
  rw [ink_append (by simp), ink_append (by simp), ink_append (by simp), ink_replicate,
    ink_replicate, ink_replicate]

theorem ink_bodyFlags_cons_of_blank {c : Char} (hc : isBlank c = true) (t : Text) :
    ink (c :: t) (bodyFlags (c :: t)) = ink t (bodyFlags t) := by
  have hne : '<' ≠ c := (ne_of_isBlank hc (by decide)).symm
  have hnone : RawElement.at? (c :: t) = none := by
    rw [RawElement.at?, afterRawOpening?_eq, Text.dropStart?, if_neg hne]
    rfl
  rw [bodyFlags_cons_of_none hnone, ink_cons_of_blank hc]

/-- **The bodies of script and style elements are the same in the loose text.** -/
theorem ink_bodyFlags_loose (t : Text) :
    ink (loose t) (bodyFlags (loose t)) = ink t (bodyFlags t) := by
  fun_induction bodyFlags t with
  | case1 => exact ink_bodyFlags_cons_of_blank (by decide) []
  | case2 c t hnone ih =>
    cases hc : isBlank c with
    | true =>
      rw [ink_cons_of_blank hc, ← ih]
      rcases Text.loose_cons_of_blank hc t with h | h <;> rw [h]
      exact ink_bodyFlags_cons_of_blank (by decide) (loose t)
    | false =>
      have hloose := RawElement.at?_loose_of_none hnone
      rw [Text.loose_cons_of_not_blank hc] at hloose ⊢
      rw [bodyFlags_cons_of_none hloose, ink_cons_of_not_blank hc, ink_cons_of_not_blank hc, ih]
  | case3 c t e hat ih =>
    obtain ⟨opening, body, closing, hparts⟩ := RawElement.exists_parts hat
    obtain ⟨e', opening', body', closing', hat', hparts', hrest, hopening, hbody, hclosing⟩ :=
      hparts.at?_loose
    rw [← bodyFlags_cons_of_some hat, hparts.ink_bodyFlags hat, hparts'.ink_bodyFlags hat', hrest,
      ih, hopening, hbody, hclosing]

/-! ## Masked markup -/

theorem ink_commentFlags_cons_of_blank {c : Char} (hc : isBlank c = true) (t : Text) :
    ink (c :: t) (commentFlags (c :: t)) = ink t (commentFlags t) := by
  have hcut : Text.cut? commentOpening (c :: t) =
      (Text.cut? commentOpening t).map fun p => (c :: p.1, p.2) := by
    have hne : '<' ≠ c := (ne_of_isBlank hc (by decide)).symm
    have hstart : Text.dropStart? commentOpening (c :: t) = none := if_neg hne
    rw [Text.cut?, hstart]
  cases hopen : Text.cut? commentOpening t with
  | none =>
    rw [hopen, Option.map_none] at hcut
    rw [commentFlags_of_none hopen, commentFlags_of_none hcut, List.length_cons,
      List.replicate_succ, ink_cons_of_blank hc]
  | some p =>
    rw [hopen, Option.map_some] at hcut
    cases hclose : Text.cut? commentClosing p.2 with
    | none =>
      rw [commentFlags_of_unclosed hopen hclose, commentFlags_of_unclosed hcut hclose,
        List.length_cons, List.replicate_succ, ink_cons_of_blank hc]
    | some q =>
      rw [ink_commentFlags_of_cut hopen hclose, ink_commentFlags_of_cut hcut hclose,
        Text.solid_cons_of_blank hc]

theorem solid_flagged (t : Text) : (flagged t).solid =
    List.zipWith (fun p q => (p.1, p.2 || q.2)) (ink t (commentFlags t)) (ink t (bodyFlags t)) :=
  ink_or (length_commentFlags t).symm (length_bodyFlags t).symm

theorem solid_flagged_even (t : Text) : (flagged (Text.even t)).solid = (flagged t).solid := by
  have hloose : (flagged (loose t)).solid = (flagged t).solid := by
    rw [solid_flagged, solid_flagged, ink_commentFlags_loose, ink_bodyFlags_loose]
  rcases Text.even_eq_or t with h | h <;> rw [h]
  · exact hloose
  · rw [← hloose, solid_flagged, solid_flagged, ink_commentFlags_cons_of_blank (by decide),
      ink_bodyFlags_cons_of_blank (by decide)]

/-- **Each character that is no white space has the same flag** in texts that differ in their white
space. -/
theorem solid_flagged_congr {t t' : Text} (h : Text.even t = Text.even t') :
    (flagged t).solid = (flagged t').solid := by
  rw [← solid_flagged_even, h, solid_flagged_even]

/-- The text with its characters that are no white space written over as flagged. -/
def cover : Text → Flagged → Text
  | [], _ => []
  | c :: t, [] => c :: cover t []
  | c :: t, p :: f => if isBlank c then c :: cover t (p :: f) else maskChar c p.2 ++ cover t f

theorem cover_cons_of_blank {c : Char} (hc : isBlank c = true) (t : Text) (f : Flagged) :
    cover (c :: t) f = c :: cover t f := by
  cases f with
  | nil => rfl
  | cons p f => rw [cover, if_pos hc]

theorem cover_cons_of_not_blank {c : Char} (hc : isBlank c = false) (f : Flagged) :
    ∃ s, ∀ u, cover (c :: u) f = s ++ cover u f.tail := by
  cases f with
  | nil => exact ⟨[c], fun _ => rfl⟩
  | cons p f =>
    exact ⟨maskChar c p.2, fun _ => by rw [cover, if_neg (by simp [hc]), List.tail_cons]⟩

/-- What is written over white space is white space. -/
theorem isBlank_maskChar {c : Char} (hc : isBlank c = true) (flag : Bool) :
    Text.isBlank (maskChar c flag) = true := by
  unfold maskChar
  split
  · exact Text.isBlank_iff.mpr fun d hd => by rw [List.eq_of_mem_replicate hd]; decide
  · simp [hc]

theorem maskChar_ne_nil (c : Char) (flag : Bool) : maskChar c flag ≠ [] := by
  unfold maskChar
  split
  · rw [Ne, List.replicate_eq_nil_iff]
    exact Nat.ne_of_gt c.utf8Size_pos
  · exact List.cons_ne_nil c []

theorem loose_masked {t : Text} {flags : List Bool} (h : t.length = flags.length) :
    loose (Flagged.masked (t.zip flags)) = loose (cover t (ink t flags)) := by
  induction t generalizing flags with
  | nil => rfl
  | cons c t ih =>
    obtain ⟨flag, flags, rfl⟩ := List.exists_cons_of_length_eq_add_one h.symm
    have hrest := ih (Nat.succ.inj h)
    have hmasked : Flagged.masked ((c :: t).zip (flag :: flags)) =
        maskChar c flag ++ Flagged.masked (t.zip flags) := rfl
    rw [hmasked]
    cases hc : isBlank c with
    | true =>
      rw [ink_cons_of_blank hc, cover_cons_of_blank hc]
      calc loose (maskChar c flag ++ Flagged.masked (t.zip flags))
          = loose ([c] ++ Flagged.masked (t.zip flags)) :=
            Text.loose_isBlank_congr (isBlank_maskChar hc flag) (maskChar_ne_nil c flag)
              (by simp [hc]) (by simp) _
        _ = loose ([c] ++ cover t (ink t flags)) := Text.loose_append_congr [c] hrest
    | false =>
      rw [ink_cons_of_not_blank hc, cover, if_neg (by simp [hc])]
      exact Text.loose_append_congr (maskChar c flag) hrest

theorem loose_cover (t : Text) (f : Flagged) : loose (cover (loose t) f) = loose (cover t f) := by
  induction t generalizing f with
  | nil =>
    rw [Text.loose_nil, cover_cons_of_blank (by decide)]
    rfl
  | cons c t ih =>
    cases hc : isBlank c with
    | true =>
      have hone : loose (' ' :: cover (loose t) f) = loose (c :: cover t f) :=
        (Text.loose_append_congr [' '] (ih f)).trans
          (Text.loose_isBlank_congr (rfl : Text.isBlank [' '] = true) (by simp)
            (by simp [hc] : Text.isBlank [c] = true) (by simp) _)
      rw [cover_cons_of_blank hc, ← hone]
      rcases Text.loose_cons_of_blank hc t with h | h <;> rw [h]
      · -- the space that the run begins with stands for the whole run
        obtain ⟨s, hs⟩ := Text.exists_loose_cons_of_blank hc t
        rw [← h, hs, cover_cons_of_blank (by decide)]
        exact Text.loose_isBlank_congr (rfl : Text.isBlank [' '] = true) (by simp)
          (rfl : Text.isBlank [' ', ' '] = true) (by simp) _
      · rw [cover_cons_of_blank (by decide)]
    | false =>
      obtain ⟨s, hs⟩ := cover_cons_of_not_blank hc f
      rw [Text.loose_cons_of_not_blank hc, hs, hs]
      exact Text.loose_append_congr s (ih f.tail)

theorem even_mask (t : Text) :
    Text.even (mask t) = loose (cover (Text.even t) (flagged (Text.even t)).solid) := by
  have hlen : t.length = (List.zipWith or (commentFlags t) (bodyFlags t)).length := by
    rw [List.length_zipWith, length_commentFlags, length_bodyFlags, Nat.min_self]
  have hmask : loose (mask t) = loose (cover t (flagged t).solid) := by
    rw [← masked_flagged]
    exact loose_masked hlen
  calc Text.even (mask t) = loose ([' '] ++ cover t (flagged t).solid) :=
        Text.loose_append_congr [' '] hmask
    _ = loose (cover (' ' :: t) (flagged t).solid) := by
        rw [cover_cons_of_blank (by decide)]
        rfl
    _ = loose (cover (Text.even t) (flagged t).solid) := (loose_cover (' ' :: t) _).symm
    _ = loose (cover (Text.even t) (flagged (Text.even t)).solid) := by rw [solid_flagged_even]

/-- **The masked markup is the same, up to its white space**, for texts that differ in their white
space. -/
theorem even_mask_congr {t t' : Text} (h : Text.even t = Text.even t') :
    Text.even (mask t) = Text.even (mask t') := by
  rw [even_mask, h, ← even_mask]

end Markup

end TemplateFormat
