import TemplateFormat.Proofs.Print.Laid
import TemplateFormat.Proofs.Token.Respelled
import TemplateFormat.Proofs.Tree.Formed

/-!
# What is printed for a node, wherever it stands

Where a node stands decides two things about its document: an action with a line of its own is in a
broken group, and a blank line before another action is kept. All the rest is the node's own
(`Node.sheet`). What surrounds a child are the literals next to it and, behind them, the braces of
other actions (`Node.inPlaceAll`): nothing further away is looked at.

Results:
* `Printer.nodeDoc_eq_inPlace`: the document of a node is its sheet in its place.
* `Printer.treeDoc_eq_sheets`: the document of a template, from the sheets of its nodes.
-/

namespace TemplateFormat

/-- An action that opens or closes a block. -/
def Leaf.sheet (spacing : Bool) (l : Leaf) : Doc := .group (l.action.doc spacing) false

/-- The closing action of a block, if it has one. -/
def Frame.stopSheet (spacing : Bool) (frame : Frame) : Doc :=
  (frame.stop.map (Leaf.sheet spacing)).getD .empty

namespace Node

mutual

/-- Nothing in the node is kept as written: no raw region, and no node behind an ignore pragma. -/
def Clear : Node → Prop
  | .action info _ _ => info.ignored = false
  | .raw _ _ => False
  | .block info frame children =>
    info.ignored = false ∧ frame.keyword ≠ .ignoreStartKw ∧ ClearAll children
  | .chain info branches => info.ignored = false ∧ ClearAll branches

/-- Nothing in the nodes is kept as written. -/
def ClearAll : List Node → Prop
  | [] => True
  | n :: ns => Clear n ∧ ClearAll ns

end

theorem clearAll_iff {ns : List Node} : ClearAll ns ↔ ∀ n ∈ ns, n.Clear := by
  induction ns with
  | nil => simp [ClearAll]
  | cons n ns ih => rw [ClearAll, ih, List.forall_mem_cons]

/-- The document of a node in its place: `before` and `after` are what surrounds it. -/
def inPlace (before after : Text) : Node → Doc → Doc
  | .action _ _ _, d => .group (.join [d, keptBlankLine after]) (aloneOnLine before after)
  | .block _ frame _, d => if frame.branch then d else .join [d, keptBlankLine after]
  | .raw _ _, d => .join [d, keptBlankLine after]
  | .chain _ _, d => .join [d, keptBlankLine after]

/-- What stands behind a child that these siblings follow: a literal, and the braces behind it. -/
def behind (tail after : Text) : List Node → Text
  | [] => tail ++ after
  | n :: _ => n.info.lead ++ openBraces

/-- The documents of siblings in their places: `before` is what comes before the first literal,
`after` what comes behind the last. -/
def inPlaceAll (before tail after : Text) : List Node → List Doc → List Doc
  | n :: ns, d :: ds => n.inPlace (before ++ n.info.lead) (behind tail after ns) d ::
      inPlaceAll closeBraces tail after ns ds
  | _, _ => []

mutual

/-- The document of a node, wherever it stands. -/
def sheet (spacing : Bool) (stem : Text) : Node → Doc
  | .action _ _ act => act.doc spacing
  | .raw _ t => .ofText t
  | .block info frame children =>
    let body := Printer.blockBody frame.keyword
      (Printer.bodyParts stem (.ofBlock info frame children)
        (inPlaceAll closeBraces frame.tail openBraces children (sheetAll spacing stem children)))
      (frame.start.sheet spacing) (frame.stopSheet spacing)
    if frame.branch then body else .group body (endsWithNewLine (frame.content children))
  | .chain _ branches =>
    .group (.join (sheetAll spacing stem branches)) (Printer.chainBreaks branches)

/-- The documents of nodes, wherever they stand. -/
def sheetAll (spacing : Bool) (stem : Text) : List Node → List Doc
  | [] => []
  | n :: ns => sheet spacing stem n :: sheetAll spacing stem ns

end

theorem sheetAll_eq_map (spacing : Bool) (stem : Text) (ns : List Node) :
    sheetAll spacing stem ns = ns.map (sheet spacing stem) := by
  induction ns with
  | nil => rw [sheetAll, List.map_nil]
  | cons n ns ih => rw [sheetAll, ih, List.map_cons]

end Node

/-! ## What surrounds a node -/

theorem isBlank_lastLine_append_cons {c : Char} (hc : isBlank c = false) (s t : Text) :
    Text.isBlank (Text.lastLine (s ++ c :: t)) = endsWithNewLine t := by
  rw [isBlank_lastLine, endsWithNewLine_append_cons hc, Text.isBlank_append, Text.isBlank_cons, hc,
    Bool.false_and, Bool.and_false, Bool.or_false]

/-- What comes before a brace does not count for whether a line is blank before a node. -/
theorem isBlank_lastLine_behind {t : Text} (h : ∃ s, t = s ++ ['}']) (pre lead : Text) :
    Text.isBlank (Text.lastLine (pre ++ t ++ lead)) =
      Text.isBlank (Text.lastLine (closeBraces ++ lead)) := by
  obtain ⟨s, rfl⟩ := h
  have hbrace := isBlank_lastLine_append_cons (show isBlank '}' = false by decide)
  rw [show pre ++ (s ++ ['}']) ++ lead = (pre ++ s) ++ '}' :: lead by simp, hbrace]
  exact (hbrace ['}'] lead).symm

/-- The texts are the same up to opening braces. -/
inductive AgreeToBraces : Text → Text → Prop
  | braces (s t : Text) : AgreeToBraces ('{' :: '{' :: s) ('{' :: '{' :: t)
  | char (c : Char) {s t : Text} (h : AgreeToBraces s t) : AgreeToBraces (c :: s) (c :: t)

namespace AgreeToBraces

variable {s t : Text}

theorem append (lead s t : Text) :
    AgreeToBraces (lead ++ '{' :: '{' :: s) (lead ++ '{' :: '{' :: t) := by
  induction lead with
  | nil => exact .braces s t
  | cons c lead ih => exact .char c ih

theorem isBlank_firstLine_eq (h : AgreeToBraces s t) :
    Text.isBlank (Text.firstLine s) = Text.isBlank (Text.firstLine t) := by
  induction h with
  | braces s t => rfl
  | char c h ih => rw [isBlank_firstLine_cons, isBlank_firstLine_cons, ih]

/-- Dropping characters stops at a brace. -/
theorem dropWhile {q : Char → Bool} (hq : q '{' = false) (h : AgreeToBraces s t) :
    AgreeToBraces (s.dropWhile q) (t.dropWhile q) := by
  induction h with
  | braces s t =>
    rw [List.dropWhile_cons_of_neg (by simp [hq]), List.dropWhile_cons_of_neg (by simp [hq])]
    exact .braces s t
  | char c h ih =>
    rw [List.dropWhile_cons, List.dropWhile_cons]
    split
    · exact ih
    · exact .char c h

/-- A line end is no brace. -/
theorem rel_afterLineEnd? (h : AgreeToBraces s t) :
    Option.Rel AgreeToBraces (afterLineEnd? s) (afterLineEnd? t) := by
  have hdrop := h.dropWhile (q := isSpace) (by decide)
  unfold afterLineEnd?
  generalize s.dropWhile isSpace = u at hdrop
  generalize t.dropWhile isSpace = v at hdrop
  cases hdrop with
  | braces s t => exact .none
  | char c h =>
    by_cases hfeed : c = '\n'
    · subst hfeed
      exact .some h
    · by_cases hreturn : c = '\r'
      · subst hreturn
        cases h with
        | braces s t => exact .none
        | char d h =>
          by_cases hd : d = '\n'
          · subst hd
            exact .some h
          · simp [hd]
      · simp [hfeed, hreturn]

theorem blankLineFollows_eq (h : AgreeToBraces s t) : blankLineFollows s = blankLineFollows t := by
  have hbind : Option.Rel AgreeToBraces ((afterLineEnd? s).bind afterLineEnd?)
      ((afterLineEnd? t).bind afterLineEnd?) := by
    have hrel := h.rel_afterLineEnd?
    generalize afterLineEnd? s = u at hrel
    generalize afterLineEnd? t = v at hrel
    cases hrel with
    | none => exact .none
    | some h => exact h.rel_afterLineEnd?
  unfold blankLineFollows
  generalize (afterLineEnd? s).bind afterLineEnd? = u at hbind
  generalize (afterLineEnd? t).bind afterLineEnd? = v at hbind
  cases hbind with
  | none => rfl
  | some h =>
    -- two characters are looked at
    have htwo (c d : Char) (u v : Text) : Text.startsWith openBraces (c :: d :: u) =
        Text.startsWith openBraces (c :: d :: v) := by
      simp only [Text.startsWith, Text.dropStart?, openBraces]
      split_ifs <;> rfl
    have hstarts {u v : Text} (h : AgreeToBraces u v) :
        Text.startsWith openBraces u = Text.startsWith openBraces v := by
      cases h with
      | braces s t => exact htwo _ _ _ _
      | char c h =>
        cases h with
        | braces s t => exact htwo _ _ _ _
        | char d h => exact htwo _ _ _ _
    exact hstarts (h.dropWhile (q := isBlank) (by decide))

end AgreeToBraces

namespace Node

/-! ## Nodes in their places -/

/-- Two places that look alike. -/
theorem inPlace_congr {before before' after after' : Text}
    (halone : aloneOnLine before after = aloneOnLine before' after')
    (hblank : blankLineFollows after = blankLineFollows after') (n : Node) (d : Doc) :
    n.inPlace before after d = n.inPlace before' after' d := by
  have hkept : keptBlankLine after = keptBlankLine after' := by
    rw [keptBlankLine, keptBlankLine, hblank]
  cases n with
  | action info t act => rw [inPlace, inPlace, halone, hkept]
  | raw info t => rw [inPlace, inPlace, hkept]
  | block info frame children => rw [inPlace, inPlace, hkept]
  | chain info branches => rw [inPlace, inPlace, hkept]

/-- A node that is printed starts with braces. -/
theorem exists_text_eq {n : Node} {offset : Nat} (hp : n.Placed offset) (hc : n.Clear) :
    ∃ t, n.text = '{' :: '{' :: t := by
  have hblock {info : Info} {frame : Frame} {children : List Node} {offset : Nat}
      (hp : (block info frame children).Placed offset) :
      ∃ t, (block info frame children).text = '{' :: '{' :: t := by
    obtain ⟨t, ht⟩ := hp.2.1.2.head
    rw [text, ht]
    exact ⟨_, rfl⟩
  cases n with
  | action info t act =>
    rw [text]
    exact hp.2.head
  | raw info t => exact hc.elim
  | block info frame children => exact hblock hp
  | chain info branches =>
    obtain ⟨-, hplaced, hbranches⟩ := hp
    obtain ⟨init, last, rfl, -⟩ := hbranches.closed
    obtain ⟨n, ns, hcons⟩ := List.exists_cons_of_ne_nil (List.append_ne_nil_of_right_ne_nil init
      (List.cons_ne_nil last []))
    rw [hcons] at hplaced hbranches ⊢
    obtain ⟨info, frame, children, rfl, hlead⟩ := (hbranches.joined n List.mem_cons_self).eq_block
    obtain ⟨t, ht⟩ := hblock hplaced.1
    have hlead : (block info frame children).info.lead = [] := hlead
    rw [text, spellAll, hlead, ht]
    exact ⟨_, rfl⟩

/-- A closed node that is printed ends with a brace. -/
theorem exists_text_eq_append {n : Node} {offset : Nat} (hp : n.Placed offset) (hc : n.Clear)
    (hclosed : n.Closed) : ∃ t, n.text = t ++ ['}'] := by
  rcases last_braces hp hclosed with h | h
  · obtain ⟨t, ht⟩ := h
    exact ⟨t ++ ['}'], by rw [← ht]; simp [closeBraces]⟩
  · obtain ⟨t, ht⟩ := exists_text_eq hp hc
    obtain ⟨name, -, ⟨rest, hrest⟩, -⟩ := h
    rw [ht] at hrest
    exact absurd (List.cons.inj hrest).1 (by decide)

end Node

namespace Printer

open Node

variable {σ : Type} {p : Printer σ}

/-- What stands around a node that stands in the source. -/
theorem before_after {n : Node} {pre post : Text} (he : p.source = pre ++ (n.text ++ post))
    (hp : n.Placed (Text.bytes pre)) :
    n.info.span.before p.source = pre ∧ n.info.span.after p.source = post := by
  rw [hp.span_eq, he, Span.before, Span.after, Span.stop, ← Text.bytes_append,
    Text.takeBytes_append, ← List.append_assoc, Text.dropBytes_append]
  exact ⟨rfl, rfl⟩

/-- Something opens behind the node, if it has no closing action. -/
def Followed (n : Node) (post : Text) : Prop := n.Closed ∨ ∃ t, post = '{' :: '{' :: t

/-- What surrounds siblings looks like `before` at the start of their first literal, and like
`after` behind the tail. -/
structure Bordered (pre post before tail after : Text) : Prop where
  start : ∀ lead, Text.isBlank (Text.lastLine (pre ++ lead)) =
    Text.isBlank (Text.lastLine (before ++ lead))
  stop : Text.isBlank (Text.firstLine (tail ++ post)) =
  Text.isBlank (Text.firstLine (tail ++ after))
  blank : blankLineFollows (tail ++ post) = blankLineFollows (tail ++ after)

mutual

/-- **The document of a node is its sheet in its place**, by induction on the tree. -/
theorem nodeDoc_eq_inPlace : ∀ {n : Node} (pre post : Text), p.source = pre ++ (n.text ++ post) →
    n.Placed (Text.bytes pre) → n.Formed → n.Clear → Followed n post →
      p.nodeDoc n = n.inPlace pre post (n.sheet p.settings.bracketSpacing p.stem)
  | .action info t act, pre, post, he, hp, _, hc, _ => by
    obtain ⟨hbefore, hafter⟩ := before_after he hp
    have hc : info.ignored = false := hc
    simp only [Node.info] at hbefore hafter
    rw [nodeDoc, hc, inPlace, sheet, if_neg (by decide), lone, blankLineAt, hbefore, hafter]
  | .raw info t, pre, post, _, _, _, hc, _ => hc.elim
  | .block info frame children, pre, post, he, hp, hf, hc, hfollowed => by
    obtain ⟨hbefore, hafter⟩ := before_after he hp
    obtain ⟨hignored, hkeyword, hclear⟩ := hc
    obtain ⟨-, hstart, hplaced, hsiblings, hstop⟩ := hp
    have hclose : ∃ t, (frame.stop.map Leaf.text).getD [] ++ post = '{' :: '{' :: t := by
      cases hs : frame.stop with
      | none =>
        rcases hfollowed with hclosed | hpost
        · rw [Node.Closed, hs] at hclosed
          exact absurd hclosed (by decide)
        · exact hpost
      | some l =>
        obtain ⟨t, ht⟩ := (hstop l hs).2.head
        exact ⟨t ++ post, by rw [Option.map_some, Option.getD_some, ht]; rfl⟩
    obtain ⟨u, hu⟩ := hclose
    have hagree := AgreeToBraces.append frame.tail u []
    have hborder : Bordered (pre ++ frame.start.text) ((frame.stop.map Leaf.text).getD [] ++ post)
        closeBraces frame.tail openBraces := by
      refine ⟨fun lead => ?_, ?_, ?_⟩
      · exact isBlank_lastLine_behind hstart.2.last pre lead
      · rw [hu]
        exact hagree.isBlank_firstLine_eq
      · rw [hu]
        exact hagree.blankLineFollows_eq
    have hdocs := nodeDocs_eq_inPlaceAll (pre ++ frame.start.text)
      ((frame.stop.map Leaf.text).getD [] ++ post)
      (by rw [he, Node.text]; simp only [List.append_assoc])
      (by rw [Text.bytes_append]; exact hplaced) hsiblings.closed hf.2.2 hclear hborder
    have hstopDoc : p.stopDoc frame.stop = frame.stopSheet p.settings.bracketSpacing := rfl
    rw [nodeDoc, p.blockDoc_of_plain children _ hignored hkeyword, hdocs, hstopDoc, inPlace, sheet,
      blockGroup, blankLineAt, show info.span.after p.source = post from hafter]
    split <;> rfl
  | .chain info branches, pre, post, he, hp, hf, hc, _ => by
    obtain ⟨hbefore, hafter⟩ := before_after he hp
    obtain ⟨-, hplaced, hbranches⟩ := hp
    have hdocs := nodeDocs_eq_sheetAll pre post (by rw [he, Node.text]) hplaced hf.2 hc.2
      (fun n hn => hf.1.isBranch hn) hbranches.joined hbranches.closed
    rw [nodeDoc, p.chainDoc_of_plain branches _ hc.1, hdocs, inPlace, sheet, chain, blankLineAt,
      show info.span.after p.source = post from hafter]

/-- The documents of siblings. -/
theorem nodeDocs_eq_inPlaceAll : ∀ {ns : List Node} (pre post : Text) {before tail after : Text},
    p.source = pre ++ (spellAll ns ++ (tail ++ post)) → PlacedAll (Text.bytes pre) ns →
      (∀ n ∈ ns, n.Closed) → FormedAll ns → ClearAll ns → Bordered pre post before tail after →
        p.nodeDocs ns = inPlaceAll before tail after ns
          (sheetAll p.settings.bracketSpacing p.stem ns)
  | [], _, _, _, _, _, _, _, _, _, _, _ => by
    rw [nodeDocs, sheetAll, inPlaceAll]
    simp
  | n :: ns, pre, post, before, tail, after, he, hp, hclosed, hf, hc, hb => by
    obtain ⟨hn, hns⟩ := List.forall_mem_cons.mp hclosed
    have hplaced : n.Placed (Text.bytes (pre ++ n.info.lead)) := by
      rw [Text.bytes_append]
      exact hp.1
    have hdoc := nodeDoc_eq_inPlace (pre ++ n.info.lead) (spellAll ns ++ (tail ++ post))
      (by rw [he, spellAll]; simp only [List.append_assoc]) hplaced hf.1 hc.1 (.inl hn)
    have hrest := nodeDocs_eq_inPlaceAll
      (pre ++ n.info.lead ++ n.text) post
      (by rw [he, spellAll]; simp only [List.append_assoc])
      (by rw [Text.bytes_append, Text.bytes_append]; exact hp.2) hns hf.2 hc.2
      ⟨isBlank_lastLine_behind (exists_text_eq_append hplaced hc.1 hn) _, hb.stop, hb.blank⟩
    have hplace : aloneOnLine (pre ++ n.info.lead) (spellAll ns ++ (tail ++ post)) =
          aloneOnLine (before ++ n.info.lead) (behind tail after ns) ∧
        blankLineFollows (spellAll ns ++ (tail ++ post)) =
          blankLineFollows (behind tail after ns) := by
      rw [aloneOnLine, aloneOnLine, hb.start]
      cases ns with
      | nil =>
        rw [spellAll, List.nil_append, behind, hb.stop, hb.blank]
        exact ⟨rfl, rfl⟩
      | cons m ns =>
        obtain ⟨t, ht⟩ := exists_text_eq hp.2.1 hc.2.1
        have hagree := AgreeToBraces.append m.info.lead (t ++ spellAll ns ++ (tail ++ post)) []
        have htext : spellAll (m :: ns) ++ (tail ++ post) =
            m.info.lead ++ '{' :: '{' :: (t ++ spellAll ns ++ (tail ++ post)) := by
          rw [spellAll, ht]
          simp
        rw [htext, behind, hagree.isBlank_firstLine_eq, hagree.blankLineFollows_eq]
        exact ⟨rfl, rfl⟩
    rw [nodeDocs, sheetAll, inPlaceAll, hdoc, hrest, inPlace_congr hplace.1 hplace.2]

/-- The documents of the branches of a chain. -/
theorem nodeDocs_eq_sheetAll : ∀ {ns : List Node} (pre post : Text),
    p.source = pre ++ (spellAll ns ++ post) → PlacedAll (Text.bytes pre) ns → FormedAll ns →
      ClearAll ns → (∀ n ∈ ns, ∃ first last, n.IsBranch first last) → (∀ n ∈ ns, n.Joined) →
        (∃ init last, ns = init ++ [last] ∧ last.Closed) →
          p.nodeDocs ns = sheetAll p.settings.bracketSpacing p.stem ns
  | [], _, _, _, _, _, _, _, _, _ => by rw [nodeDocs, sheetAll]
  | n :: ns, pre, post, he, hp, hf, hc, hb, hj, hlast => by
    obtain ⟨hn, hns⟩ := List.forall_mem_cons.mp hb
    obtain ⟨hnj, hnsj⟩ := List.forall_mem_cons.mp hj
    have hplaced : n.Placed (Text.bytes (pre ++ n.info.lead)) := by
      rw [Text.bytes_append]
      exact hp.1
    have hend : ns = [] → n.Closed := by
      rintro rfl
      obtain ⟨init, last, hcut, hclosed⟩ := hlast
      rw [show [n] = [] ++ [n] from rfl] at hcut
      obtain ⟨-, hcut⟩ := List.append_inj' hcut rfl
      exact (List.cons.inj hcut).1 ▸ hclosed
    have hfollowed : Followed n (spellAll ns ++ post) := by
      cases ns with
      | nil => exact .inl (hend rfl)
      | cons m ns =>
        obtain ⟨t, ht⟩ := exists_text_eq hp.2.1 hc.2.1
        have hlead := (hnsj m List.mem_cons_self).lead_eq
        exact .inr ⟨t ++ (spellAll ns ++ post), by rw [spellAll, hlead, ht]; simp⟩
    have hdoc := nodeDoc_eq_inPlace (pre ++ n.info.lead) (spellAll ns ++ post)
      (by rw [he, spellAll]; simp only [List.append_assoc]) hplaced hf.1 hc.1 hfollowed
    have hrest : p.nodeDocs ns = sheetAll p.settings.bracketSpacing p.stem ns := by
      cases ns with
      | nil => rw [nodeDocs, sheetAll]
      | cons m ns =>
        refine nodeDocs_eq_sheetAll (pre ++ n.info.lead ++ n.text) post
          (by rw [he, spellAll]; simp only [List.append_assoc])
          (by rw [Text.bytes_append, Text.bytes_append]; exact hp.2) hf.2 hc.2 hns hnsj ?_
        obtain ⟨init, last, hcut, hclosed⟩ := hlast
        obtain _ | ⟨n', init⟩ := init
        · exact absurd hcut (by simp)
        · exact ⟨init, last, (List.cons.inj hcut).2, hclosed⟩
    obtain ⟨first, last, hbranch⟩ := hn
    have hin (d : Doc) : n.inPlace (pre ++ n.info.lead) (spellAll ns ++ post) d = d := by
      cases n with
      | block info frame children => rw [inPlace, if_pos hbranch.1]
      | _ => exact hbranch.elim
    rw [nodeDocs, sheetAll, hdoc, hin, hrest]

end

/-- **The document of a template**, from the sheets of its nodes. -/
theorem treeDoc_eq_sheets {tree : Tree} (h : tree.Placed p.source) (hf : FormedAll tree.children)
    (hc : ClearAll tree.children) : p.treeDoc tree =
      .join [containerDoc p.stem false (.ofTree tree) (inPlaceAll [] tree.tail [] tree.children
        (sheetAll p.settings.bracketSpacing p.stem tree.children)), .hardline] := by
  have hbordered : Bordered [] [] [] tree.tail [] := ⟨fun _ => rfl, rfl, rfl⟩
  have hdocs := nodeDocs_eq_inPlaceAll (p := p) [] []
    (by rw [List.append_nil]; exact h.spelled.symm) h.children h.siblings.closed hf hc hbordered
  rw [treeDoc, hdocs]

end Printer

end TemplateFormat
