import TemplateFormat.Proofs.Text.Search
import TemplateFormat.Token.Region

/-!
# Raw regions

The text of a raw region is that of an element with opening braces in its body: the opening tag, the
body up to the first closing tag, and the closing tag. Whatever follows such a text, the search
finds it, and it is such a text with other white space too. Before it, the search passes over
everything in which no tag of a raw element begins.

Results:
* `afterTag?_eq_some_iff`: the end of a tag does not depend on what follows.
* `IsRegion.respaced`: other white space in a raw region.
* `Region.find?_valid`, `Region.find?_of_isRegion`: the search finds raw regions, and those alone.
* `Region.find?_append`: the search goes on where no tag begins.
-/

namespace TemplateFormat

/-! ## Tags -/

/-- The quotation mark of the value being read after the character `c` of a tag. -/
def nextQuote (quote : Option Char) (c : Char) : Option Char :=
  match quote with
  | some q => if c = q then none else some q
  | none => if c = '"' || c = '\x27' then some c else none

theorem afterTag?_cons (quote : Option Char) (c : Char) (t : Text) : afterTag? quote (c :: t) =
    if quote = none ∧ c = '>' then some t else afterTag? (nextQuote quote c) t := by
  cases quote with
  | some q =>
    simp only [afterTag?, nextQuote, reduceCtorEq, false_and, if_false]
    split <;> rfl
  | none =>
    simp only [afterTag?, nextQuote, true_and]
    split
    · rfl
    · split <;> rfl

/-- **The end of a tag does not depend on what follows.** -/
theorem afterTag?_eq_some_iff {quote : Option Char} {t rest : Text} :
    afterTag? quote t = some rest ↔
      ∃ attrs, t = attrs ++ rest ∧ afterTag? quote attrs = some [] := by
  induction t generalizing quote with
  | nil =>
    simp only [afterTag?, reduceCtorEq, false_iff, not_exists, not_and]
    rintro attrs he
    obtain ⟨rfl, -⟩ := List.append_eq_nil_iff.mp he.symm
    simp [afterTag?]
  | cons c t ih =>
    rw [afterTag?_cons]
    by_cases hc : quote = none ∧ c = '>'
    · rw [if_pos hc]
      constructor
      · intro h
        obtain rfl := Option.some.inj h
        exact ⟨[c], rfl, by rw [afterTag?_cons, if_pos hc]⟩
      · rintro ⟨attrs, he, hattrs⟩
        cases attrs with
        | nil => exact absurd hattrs (by simp [afterTag?])
        | cons d attrs =>
          obtain ⟨rfl, rfl⟩ := List.cons.inj he
          rw [afterTag?_cons, if_pos hc] at hattrs
          rw [Option.some.inj hattrs]
          rfl
    · rw [if_neg hc, ih]
      constructor
      · rintro ⟨attrs, rfl, hattrs⟩
        exact ⟨c :: attrs, rfl, by rw [afterTag?_cons, if_neg hc, hattrs]⟩
      · rintro ⟨attrs, he, hattrs⟩
        cases attrs with
        | nil => exact absurd hattrs (by simp [afterTag?])
        | cons d attrs =>
          obtain ⟨rfl, rfl⟩ := List.cons.inj he
          rw [afterTag?_cons, if_neg hc] at hattrs
          exact ⟨attrs, rfl, hattrs⟩

/-- A tag ends with its angle bracket. -/
theorem exists_of_afterTag?_eq {quote : Option Char} {attrs : Text}
    (h : afterTag? quote attrs = some []) : ∃ s, attrs = s ++ ['>'] := by
  induction attrs generalizing quote with
  | nil => exact absurd h (by simp [afterTag?])
  | cons c t ih =>
    rw [afterTag?_cons] at h
    split at h
    · rename_i hc
      rw [hc.2, Option.some.inj h]
      exact ⟨[], rfl⟩
    · obtain ⟨s, rfl⟩ := ih h
      exact ⟨c :: s, rfl⟩

/-- White space in a tag is passed over. -/
theorem afterTag?_cons_of_blank {quote : Option Char} (hq : ∀ q ∈ quote, isBlank q = false) {c : Char}
    (hc : isBlank c = true) (t : Text) : afterTag? quote (c :: t) = afterTag? quote t := by
  rw [afterTag?_cons, if_neg fun h => ne_of_isBlank hc (by decide) h.2]
  cases quote with
  | some q => rw [nextQuote, if_neg (ne_of_isBlank hc (hq q rfl))]
  | none =>
    have hdouble : c ≠ '"' := ne_of_isBlank hc (by decide)
    have hsingle : c ≠ '\x27' := ne_of_isBlank hc (by decide)
    have hquote : ¬ (c = '"' || c = '\x27') = true := by simp [hdouble, hsingle]
    rw [nextQuote, if_neg hquote]

theorem afterTag?_trimStart {quote : Option Char} (hq : ∀ q ∈ quote, isBlank q = false) (t : Text) :
    afterTag? quote (Text.trimStart t) = afterTag? quote t := by
  induction t with
  | nil => rfl
  | cons c t ih =>
    cases hc : isBlank c with
    | true => rw [Text.trimStart_cons_of_blank hc, ih, afterTag?_cons_of_blank hq hc]
    | false => rw [Text.trimStart_eq (by simp [hc])]

theorem not_blank_nextQuote {quote : Option Char} (hq : ∀ q ∈ quote, isBlank q = false) (c : Char) :
    ∀ q ∈ nextQuote quote c, isBlank q = false := by
  intro q hmem
  cases quote with
  | some p =>
    rw [nextQuote] at hmem
    split at hmem
    · exact absurd hmem (by simp)
    · exact hq q hmem
  | none =>
    rw [nextQuote] at hmem
    split at hmem
    · rename_i hc
      obtain rfl := Option.some.inj hmem
      simp only [Bool.or_eq_true, decide_eq_true_eq] at hc
      rcases hc with rfl | rfl <;> decide
    · exact absurd hmem (by simp)

theorem afterTag?_squeeze {quote : Option Char} (hq : ∀ q ∈ quote, isBlank q = false) (t : Text) :
    afterTag? quote (Text.squeeze t) = (afterTag? quote t).map Text.squeeze := by
  induction t generalizing quote with
  | nil => rfl
  | cons c t ih =>
    cases hc : isBlank c with
    | true =>
      rw [Text.squeeze_cons_of_blank hc, afterTag?_cons_of_blank hq (by decide),
        afterTag?_trimStart hq, ih hq, afterTag?_cons_of_blank hq hc]
    | false =>
      rw [Text.squeeze_cons_of_not_blank hc, afterTag?_cons, afterTag?_cons]
      split
      · rfl
      · exact ih (not_blank_nextQuote hq c)

/-! ## Elements -/

/-- The closing tag of an element, up to its name. -/
def closeTag (name : Text) : Text := '<' :: '/' :: name

/-- The parts of a raw region: what follows the name in the opening tag, the body, and what follows
the name in the closing tag. -/
structure IsElement (name attrs body gap : Text) : Prop where
  name_mem : name ∈ Region.names
  word : atWordEnd attrs = true
  tag : afterTag? none attrs = some []
  first : ¬ closeTag name <:+: body ++ (closeTag name).dropLast
  braces : openBraces <:+: body
  last : '>' ∉ gap

/-- An element as it is written. -/
def elementText (name attrs body gap : Text) : Text :=
  '<' :: name ++ (attrs ++ (body ++ (closeTag name ++ (gap ++ ['>']))))

/-- The text is that of a raw region. -/
def IsRegion (t : Text) : Prop :=
  ∃ name attrs body gap, IsElement name attrs body gap ∧ t = elementText name attrs body gap

theorem isSolid_openBraces : Text.IsSolid openBraces := by decide

theorem isSolid_openTag {name : Text} (h : name ∈ Region.names) : Text.IsSolid ('<' :: name) := by
  have hall : ∀ name ∈ Region.names, Text.IsSolid ('<' :: name) := by decide
  exact hall name h

theorem isSolid_closeTag {name : Text} (h : name ∈ Region.names) : Text.IsSolid (closeTag name) := by
  have hall : ∀ name ∈ Region.names, Text.IsSolid (closeTag name) := by decide
  exact hall name h

/-- **Other white space in a raw region.** -/
theorem IsRegion.respaced {t t' : Text} (h : IsRegion t) (ht : Text.squeeze t = Text.squeeze t') :
    IsRegion t' := by
  obtain ⟨name, attrs, body, gap, helem, rfl⟩ := h
  have hopenTag := isSolid_openTag helem.name_mem
  have hcloseTag := isSolid_closeTag helem.name_mem
  have hattrs : ∀ c ∈ attrs.getLast?, isBlank c = false := by
    obtain ⟨s, rfl⟩ := exists_of_afterTag?_eq helem.tag
    intro c hc
    obtain rfl : '>' = c := by simpa using hc
    decide
  have hsqueeze : Text.squeeze (elementText name attrs body gap) = '<' :: name ++
      (Text.squeeze attrs ++ (Text.squeeze body ++ (closeTag name ++ (Text.squeeze gap ++ ['>'])))) := by
    have hstart := Text.squeeze_append_word hopenTag (by simp) []
      (attrs ++ (body ++ (closeTag name ++ (gap ++ ['>']))))
    rw [List.nil_append] at hstart
    rw [elementText, hstart, Text.squeeze_append_of_last _ hattrs,
      Text.squeeze_append_word hcloseTag (by simp [closeTag]), Text.squeeze_append_cons (by decide)]
    rfl
  rw [hsqueeze] at ht
  obtain ⟨o, u, rfl, ho, hu⟩ := Text.squeeze_split ht.symm
  obtain ⟨attrs', u, rfl, hattrs', hu⟩ := Text.squeeze_split hu
  obtain ⟨body', u, rfl, hbody', hu⟩ := Text.squeeze_split hu
  obtain ⟨c, u, rfl, hc, hu⟩ := Text.squeeze_split hu
  obtain ⟨gap', e, rfl, hgap', he⟩ := Text.squeeze_split hu
  rw [Text.eq_of_squeeze_eq hopenTag ho, Text.eq_of_squeeze_eq hcloseTag hc,
    Text.eq_of_squeeze_eq (w := ['>']) (by decide) he]
  refine ⟨name, attrs', body', gap', ⟨helem.name_mem, ?_, ?_, ?_, ?_, ?_⟩, rfl⟩
  · rw [← atWordEnd_squeeze, hattrs', atWordEnd_squeeze, helem.word]
  · have htag : afterTag? none (Text.squeeze attrs') = (afterTag? none attrs').map Text.squeeze :=
      afterTag?_squeeze (by simp) attrs'
    rw [hattrs', afterTag?_squeeze (by simp), helem.tag] at htag
    obtain ⟨r, hr, hnil⟩ := Option.map_eq_some_iff.mp htag.symm
    rw [hr, Text.eq_of_squeeze_eq (by simp [Text.IsSolid]) hnil]
    rfl
  · have hlast : Text.IsSolid (closeTag name).dropLast :=
      fun d hd => hcloseTag d (List.mem_of_mem_dropLast hd)
    have hfirst (s : Text) : Text.squeeze (s ++ (closeTag name).dropLast) =
        Text.squeeze s ++ (closeTag name).dropLast := by
      rw [Text.squeeze_append_of_head s fun d hd => hlast d (List.mem_of_mem_head? hd),
        Text.squeeze_of_isSolid hlast]
    rw [← Text.infix_squeeze hcloseTag, hfirst, hbody', ← hfirst, Text.infix_squeeze hcloseTag]
    exact helem.first
  · rw [← Text.infix_squeeze isSolid_openBraces, hbody', Text.infix_squeeze isSolid_openBraces]
    exact helem.braces
  · have hsolid : Text.solid gap' = Text.solid gap := by
      rw [← Text.solid_squeeze, hgap', Text.solid_squeeze]
    intro hmem
    have : '>' ∈ Text.solid gap := hsolid ▸ List.mem_filter.mpr ⟨hmem, by decide⟩
    exact helem.last (List.mem_of_mem_filter this)

namespace IsRegion

variable {t : Text}

theorem head (h : IsRegion t) : ∃ s, t = '<' :: s := by
  obtain ⟨name, attrs, body, gap, -, rfl⟩ := h
  exact ⟨_, rfl⟩

theorem last (h : IsRegion t) : ∃ s, t = s ++ ['>'] := by
  obtain ⟨name, attrs, body, gap, -, rfl⟩ := h
  exact ⟨'<' :: name ++ (attrs ++ (body ++ (closeTag name ++ gap))), by
    simp only [elementText, List.append_assoc]⟩

end IsRegion

/-! ## The search -/

namespace Region

@[simp] theorem nearer_farther (n : Nat) (r : Region) : (r.farther n).nearer n = r := by
  unfold farther nearer
  simp

theorem farther_farther (m n : Nat) (r : Region) : (r.farther m).farther n = r.farther (m + n) := by
  unfold farther
  rw [Nat.add_assoc]

theorem farther_injective (n : Nat) : Function.Injective (farther n) := fun r r' h => by
  rw [← nearer_farther n r, h, nearer_farther]

theorem farther_nearer {n : Nat} {r : Region} (h : n ≤ r.distance) :
    (r.nearer n).farther n = r := by
  unfold nearer farther
  simp only [Nat.sub_add_cancel h]

/-- The region leads to a raw element of `t`. -/
def Valid (t : Text) (r : Region) : Prop :=
  ∃ pre text post, t = pre ++ text ++ post ∧ pre.length = r.distance ∧ text.length = r.size ∧
    IsRegion text

theorem Opening.at?_spec {t : Text} {o : Opening} (h : Opening.at? t = some o) :
    o.name ∈ names ∧ ∃ attrs, t = '<' :: o.name ++ (attrs ++ o.body) ∧
      atWordEnd attrs = true ∧ afterTag? none attrs = some [] := by
  obtain ⟨name, hname, hn⟩ := List.exists_of_findSome?_eq_some h
  split at hn
  · rename_i rest hp
    split at hn
    · rename_i hword
      obtain ⟨body, hb, rfl⟩ := Option.map_eq_some_iff.mp hn
      obtain ⟨attrs, rfl, hattrs⟩ := afterTag?_eq_some_iff.mp hb
      obtain ⟨c, s, rfl⟩ : ∃ c s, attrs = c :: s := by
        refine List.exists_cons_of_ne_nil ?_
        rintro rfl
        exact absurd hattrs (by simp [afterTag?])
      exact ⟨hname, c :: s, Text.dropStart?_eq_some.mp hp, hword, hattrs⟩
    · exact absurd hn (by simp)
  · exact absurd hn (by simp)

theorem Opening.at?_of_mem {name attrs : Text} (hname : name ∈ names)
    (hword : atWordEnd attrs = true) (htag : afterTag? none attrs = some []) (rest : Text) :
    Opening.at? ('<' :: name ++ (attrs ++ rest)) = some ⟨name, rest⟩ := by
  have hrest : (if atWordEnd (attrs ++ rest) then (afterTag? none (attrs ++ rest)).map
      (Opening.mk name) else none) = some ⟨name, rest⟩ := by
    have hend : atWordEnd (attrs ++ rest) = true := by
      cases attrs with
      | nil => exact absurd htag (by simp [afterTag?])
      | cons c s => exact hword
    rw [if_pos hend, afterTag?_eq_some_iff.mpr ⟨attrs, rfl, htag⟩]
    rfl
  simp only [names, List.mem_cons, List.not_mem_nil, or_false] at hname
  rcases hname with rfl | rfl
  · have hdrop : Text.dropStart? ('<' :: "script".toList)
        ('<' :: "script".toList ++ (attrs ++ rest)) = some (attrs ++ rest) :=
      Text.dropStart?_eq_some.mpr rfl
    simp only [Opening.at?, names, List.findSome?_cons, hdrop, hrest]
  · have hno : Text.dropStart? ('<' :: "script".toList)
        ('<' :: "style".toList ++ (attrs ++ rest)) = none := by
      simp [Text.dropStart?]
    have hdrop : Text.dropStart? ('<' :: "style".toList)
        ('<' :: "style".toList ++ (attrs ++ rest)) = some (attrs ++ rest) :=
      Text.dropStart?_eq_some.mpr rfl
    simp only [Opening.at?, names, List.findSome?_cons, hno, hdrop, hrest]

theorem Opening.rest?_eq_some_iff {o : Opening} {rest : Text} : o.rest? = some rest ↔
    ∃ body gap, o.body = body ++ (closeTag o.name ++ (gap ++ '>' :: rest)) ∧
      ¬ closeTag o.name <:+: body ++ (closeTag o.name).dropLast ∧ openBraces <:+: body ∧
        '>' ∉ gap := by
  have hgap (s : Text) : ¬ ['>'] <:+: s ++ ['>'].dropLast ↔ '>' ∉ s := by
    rw [List.dropLast_singleton, List.append_nil, List.singleton_infix_iff]
  unfold Opening.rest?
  constructor
  · intro h
    split at h
    · exact absurd h (by simp)
    · rename_i body closing hc
      split at h
      · rename_i hbraces
        obtain ⟨⟨gap, after⟩, ha, rfl⟩ := Option.map_eq_some_iff.mp h
        obtain ⟨hbody, hfirst⟩ := (Text.cut?_eq_some_iff (by simp)).mp hc
        obtain ⟨rfl, hlast⟩ := (Text.cut?_eq_some_iff (by simp)).mp ha
        exact ⟨body, gap, hbody, hfirst, Text.contains_iff.mp hbraces, (hgap gap).mp hlast⟩
      · exact absurd h (by simp)
  · rintro ⟨body, gap, hbody, hfirst, hbraces, hlast⟩
    have hcut : Text.cut? (closeTag o.name) o.body = some (body, gap ++ '>' :: rest) :=
      (Text.cut?_eq_some_iff (by simp [closeTag])).mpr ⟨hbody, hfirst⟩
    have hend : Text.cut? ['>'] (gap ++ '>' :: rest) = some (gap, rest) :=
      (Text.cut?_eq_some_iff (by simp)).mpr ⟨rfl, (hgap gap).mpr hlast⟩
    rw [closeTag] at hcut
    simp only [hcut, Text.contains_iff.mpr hbraces, if_true, hend, Option.map_some]

/-- The element that an opening tag begins is a raw region, if it can be passed over. -/
theorem isRegion_of_rest? {t rest : Text} {o : Opening} (h : Opening.at? t = some o)
    (hr : o.rest? = some rest) : ∃ text, IsRegion text ∧ t = text ++ rest := by
  obtain ⟨hname, attrs, rfl, hword, htag⟩ := Opening.at?_spec h
  obtain ⟨body, gap, hbody, hfirst, hbraces, hlast⟩ := Opening.rest?_eq_some_iff.mp hr
  refine ⟨_, ⟨o.name, attrs, body, gap, ⟨hname, hword, htag, hfirst, hbraces, hlast⟩, rfl⟩, ?_⟩
  rw [hbody, elementText]
  simp only [List.append_assoc, List.singleton_append]

theorem valid_farther {t : Text} {r : Region} (h : Valid t r) (s : Text) :
    Valid (s ++ t) (r.farther s.length) := by
  obtain ⟨pre, text, post, rfl, hd, hs, hraw⟩ := h
  refine ⟨s ++ pre, text, post, by simp only [List.append_assoc], ?_, hs, hraw⟩
  rw [List.length_append, hd, Nat.add_comm]
  rfl

theorem valid_nearer {s t : Text} {r : Region} (h : Valid (s ++ t) r) (hs : s.length ≤ r.distance) :
    Valid t (r.nearer s.length) := by
  obtain ⟨pre, text, post, he, hd, hsize, hraw⟩ := h
  rw [List.append_assoc] at he
  rcases List.append_eq_append_iff.mp he with ⟨a, ha⟩ | ⟨a, ha⟩
  · refine ⟨a, text, post, by rw [List.append_assoc]; exact ha.2, ?_, hsize, hraw⟩
    have := congrArg List.length ha.1
    rw [List.length_append] at this
    show a.length = r.distance - s.length
    omega
  · -- `s` reaches into the region only if it ends where the region starts
    have hlen := congrArg List.length ha.1
    rw [List.length_append] at hlen
    have hnil : a = [] := List.length_eq_zero_iff.mp (by omega)
    rw [hnil, List.nil_append] at ha
    refine ⟨[], text, post, by rw [List.nil_append]; exact ha.2.symm, ?_, hsize, hraw⟩
    show 0 = r.distance - s.length
    rw [hnil] at hlen
    simp only [List.length_nil] at hlen
    omega

theorem find?_cons_of_none {c : Char} {s : Text} (h : Opening.at? (c :: s) = none) :
    find? (c :: s) = (find? s).map (farther 1) := by
  rw [find?]
  split
  · rfl
  · rename_i o ho
    exact absurd (h.symm.trans ho) (by simp)

theorem find?_of_rest? {t rest : Text} {o : Opening} (h : Opening.at? t = some o)
    (hr : o.rest? = some rest) : ∃ hpos, find? t = some ⟨0, t.length - rest.length, hpos⟩ := by
  cases t with
  | nil => exact absurd (Opening.length_lt_of_at? h) (by simp)
  | cons c s =>
    refine ⟨Nat.sub_pos_of_lt
      (Nat.lt_trans (Opening.length_lt_of_rest? hr) (Opening.length_lt_of_at? h)), ?_⟩
    rw [find?]
    split
    · rename_i ho
      exact absurd (h.symm.trans ho) (by simp)
    · rename_i o' ho
      obtain rfl : o = o' := Option.some.inj (h.symm.trans ho)
      split
      · rename_i rest' hr'
        obtain rfl : rest = rest' := Option.some.inj (hr.symm.trans hr')
        rfl
      · rename_i hr'
        exact absurd (hr.symm.trans hr') (by simp)

theorem find?_of_rest?_none {t : Text} {o : Opening} (h : Opening.at? t = some o)
    (hr : o.rest? = none) :
    find? t = (find? o.body).map (farther (t.length - o.body.length)) := by
  cases t with
  | nil => exact absurd (Opening.length_lt_of_at? h) (by simp)
  | cons c s =>
    rw [find?]
    split
    · rename_i ho
      exact absurd (h.symm.trans ho) (by simp)
    · rename_i o' ho
      obtain rfl : o = o' := Option.some.inj (h.symm.trans ho)
      split
      · rename_i rest' hr'
        exact absurd (hr.symm.trans hr') (by simp)
      · rfl

/-- **The search for a raw region finds one.** -/
theorem find?_valid (t : Text) {r : Region} (h : find? t = some r) : Valid t r := by
  induction t using find?.induct generalizing r with
  | case1 => simp [find?] at h
  | case2 c s ho ih =>
    rw [find?_cons_of_none ho] at h
    obtain ⟨r', hr', rfl⟩ := Option.map_eq_some_iff.mp h
    exact valid_farther (ih hr') [c]
  | case3 c s o ho rest hr =>
    obtain ⟨hpos, hfind⟩ := find?_of_rest? ho hr
    obtain ⟨text, hregion, ht⟩ := isRegion_of_rest? ho hr
    rw [hfind] at h
    obtain rfl := Option.some.inj h
    refine ⟨[], text, rest, ht, rfl, ?_, hregion⟩
    show _ = (c :: s).length - rest.length
    rw [ht, List.length_append, Nat.add_sub_cancel]
  | case4 c s o ho hr ih =>
    obtain ⟨-, attrs, ht, -, -⟩ := Opening.at?_spec ho
    rw [← List.append_assoc] at ht
    rw [find?_of_rest?_none ho hr] at h
    obtain ⟨r', hr', rfl⟩ := Option.map_eq_some_iff.mp h
    have hv := valid_farther (ih hr') ('<' :: o.name ++ attrs)
    rw [← ht] at hv
    have hlen : (c :: s).length - o.body.length = ('<' :: o.name ++ attrs).length := by
      rw [ht, @List.length_append _ _ o.body, Nat.add_sub_cancel]
    rw [hlen]
    exact hv

/-- **A raw region is found where it begins**, whatever follows it. -/
theorem find?_of_isRegion {t : Text} (h : IsRegion t) (rest : Text) :
    ∃ hpos, find? (t ++ rest) = some ⟨0, t.length, hpos⟩ := by
  obtain ⟨name, attrs, body, gap, helem, rfl⟩ := h
  have hat : Opening.at? (elementText name attrs body gap ++ rest) =
      some ⟨name, body ++ (closeTag name ++ (gap ++ '>' :: rest))⟩ := by
    have := Opening.at?_of_mem helem.name_mem helem.word helem.tag
      (body ++ (closeTag name ++ (gap ++ '>' :: rest)))
    rw [elementText]
    simpa only [List.append_assoc, List.singleton_append] using this
  have hrest : (⟨name, body ++ (closeTag name ++ (gap ++ '>' :: rest))⟩ : Opening).rest? =
      some rest :=
    Opening.rest?_eq_some_iff.mpr ⟨body, gap, rfl, helem.first, helem.braces, helem.last⟩
  obtain ⟨hpos, hfind⟩ := find?_of_rest? hat hrest
  have hlen : (elementText name attrs body gap ++ rest).length - rest.length =
      (elementText name attrs body gap).length := by
    rw [List.length_append, Nat.add_sub_cancel]
  simp only [hlen] at hfind
  exact ⟨_, hfind⟩

/-- No tag of a raw element begins in the text. -/
def Unopened (t : Text) : Prop := ∀ name ∈ names, ¬ '<' :: name <:+: t

instance (t : Text) : Decidable (Unopened t) :=
  inferInstanceAs (Decidable (∀ name ∈ names, ¬ '<' :: name <:+: t))

/-- The search passes over a text in which no element is opened. -/
theorem find?_append_of_at? {s t : Text}
    (h : ∀ x, x <:+ s → x ≠ [] → Opening.at? (x ++ t) = none) :
    find? (s ++ t) = (find? t).map (farther s.length) := by
  induction s with
  | nil =>
    show find? t = (find? t).map id
    rw [Option.map_id]
    rfl
  | cons c s ih =>
    have hat : Opening.at? (c :: (s ++ t)) = none := h (c :: s) List.suffix_rfl (by simp)
    rw [List.cons_append, find?_cons_of_none hat,
      ih fun x hx => h x (hx.trans (List.suffix_cons c s)), Option.map_map]
    rfl

/-- **The search passes over a text in which no tag begins**, if none begins in it that goes on in
what follows. -/
theorem find?_append {s t : Text}
    (h : ∀ x, x <:+ s → x ≠ [] → ∀ name ∈ names, ¬ '<' :: name <+: x ++ t) :
    find? (s ++ t) = (find? t).map (farther s.length) := by
  refine find?_append_of_at? fun x hx hne => ?_
  cases ho : Opening.at? (x ++ t) with
  | none => rfl
  | some o =>
    obtain ⟨hname, attrs, ht, -⟩ := Opening.at?_spec ho
    exact absurd ⟨_, ht.symm⟩ (h x hx hne o.name hname)

end Region

end TemplateFormat
