import TemplateFormat.Proofs.Doc.Spread
import TemplateFormat.Proofs.Print.Node
import TemplateFormat.Proofs.Text.Writes
import TemplateFormat.Proofs.Token.Reads
import TemplateFormat.Proofs.Tree.Glyphs
import TemplateFormat.Proofs.Tree.Shape

/-!
# Printed strokes

A printed template writes what the template does: the characters of its literals, and for each token
a text that is read as a token with the same move. `Inks is ss` says that the items of a document do
so on every line that they spread on, and so with every layout.

Results:
* `inks_keptText`, `inks_action`: the documents of single tokens.
* `Printer.inks_containerDoc`: the content of a container, with the documents of its children.
* `Printer.inks_node`: every node that stands in the source prints the strokes of its glyphs.
* `Printer.writes_render`: so does the whole template.
-/

namespace TemplateFormat

open Placeholder

/-! ## Tokens as pieces -/

/-- What a token of the kind does. -/
def Token.Kind.move : Token.Kind → Move
  | .action act => act.move
  | .raw => .raw

theorem Token.move_eq (t : Token) : t.move = t.kind.move := by
  cases h : t.kind with
  | action act => exact Token.move_of_action h
  | raw => exact Token.move_of_raw h

/-- The action is steady, and no raw region can begin in it. -/
def Token.Kind.Steady (spacing : Bool) (text : Text) : Token.Kind → Prop
  | .action act => act.Steady spacing ∧ Region.Unopened (Text.solid text)
  | .raw => True

instance (spacing : Bool) (text : Text) (kind : Token.Kind) : Decidable (kind.Steady spacing text) :=
  match kind with
  | .action act =>
    inferInstanceAs (Decidable (act.Steady spacing ∧ Region.Unopened (Text.solid text)))
  | .raw => inferInstanceAs (Decidable True)

/-- The text is read as a token with the move, and no raw region can begin in an action. -/
def Reprints (t : Text) (m : Move) : Prop :=
  ∃ kind : Token.Kind, kind.Reads t ∧ kind.move = m ∧
    (kind ≠ .raw → Region.Unopened (Text.solid t))

theorem Token.Kind.Reads.ends {kind : Token.Kind} {t : Text} (h : kind.Reads t) :
    t ≠ [] ∧ t.Trimmed := by
  have hframe {c d : Char} (hc : isBlank c = false) (hd : isBlank d = false)
      (hhead : ∃ s, t = c :: s) (hlast : ∃ s, t = s ++ [d]) : t ≠ [] ∧ t.Trimmed := by
    refine ⟨?_, ?_, ?_⟩
    · obtain ⟨s, rfl⟩ := hhead
      simp
    · obtain ⟨s, rfl⟩ := hhead
      simpa using hc
    · obtain ⟨s, rfl⟩ := hlast
      simpa using hd
  cases kind with
  | action act => exact hframe (by decide) (by decide) (ReadsAs.head h) (ReadsAs.last h)
  | raw => exact hframe (by decide) (by decide) (IsRegion.head h) (IsRegion.last h)

theorem firm_reprints : Firm Reprints where
  ne_nil := fun _ _ ⟨_, hreads, _⟩ => hreads.ends.1
  trimmed := fun _ _ ⟨_, hreads, _⟩ => hreads.ends.2
  respaced := by
    rintro p q m ⟨kind, hreads, rfl, hopen⟩ hsqueeze
    have hsolid : Text.solid q = Text.solid p := by
      rw [← Text.solid_squeeze, ← hsqueeze, Text.solid_squeeze]
    cases kind with
    | action act =>
      obtain ⟨act', hact, hkeyword⟩ := ReadsAs.respaced hreads hsqueeze
      refine ⟨.action act', hact, ?_, fun _ => ?_⟩
      · show act'.move = act.move
        rw [Action.move, Action.move, hkeyword]
      · rw [hsolid]
        exact hopen (by simp)
    | raw => exact ⟨.raw, IsRegion.respaced hreads hsqueeze, rfl, fun h => absurd rfl h⟩

namespace Glyph

/-- What the glyph writes. -/
def strokes : Glyph → List (Stroke Move)
  | char c => literalStrokes [c]
  | token _ kind => [.piece kind.move]

/-- The token reads as itself, and still does if it is printed. -/
def Sound (spacing : Bool) : Glyph → Prop
  | char _ => True
  | token t kind => kind.Reads t ∧ kind.Steady spacing t

end Glyph

/-- What the glyphs write. -/
def strokesOf (gs : List Glyph) : List (Stroke Move) := gs.flatMap Glyph.strokes

theorem literalStrokes_append {μ : Type} (s t : Text) :
    (literalStrokes (s ++ t) : List (Stroke μ)) = literalStrokes s ++ literalStrokes t := by
  rw [literalStrokes, Text.solid_append, List.map_append]
  rfl

theorem strokesOf_append (gs hs : List Glyph) :
    strokesOf (gs ++ hs) = strokesOf gs ++ strokesOf hs := List.flatMap_append

theorem strokesOf_cons (g : Glyph) (gs : List Glyph) :
    strokesOf (g :: gs) = g.strokes ++ strokesOf gs := List.flatMap_cons

theorem strokesOf_literal (t : Text) : strokesOf (Glyph.literal t) = literalStrokes t := by
  induction t with
  | nil => rfl
  | cons c t ih =>
    rw [Glyph.literal, List.map_cons, strokesOf_cons, ← List.singleton_append (x := c),
      literalStrokes_append, ← ih]
    rfl

theorem Glyph.Sound.reprints {spacing : Bool} {t : Text} {kind : Token.Kind}
    (h : (Glyph.token t kind).Sound spacing) : Reprints t kind.move := by
  refine ⟨kind, h.1, rfl, fun hne => ?_⟩
  cases kind with
  | action act => exact h.2.2
  | raw => exact absurd rfl hne

/-- The text of sound glyphs writes them. -/
theorem writes_glyphs {spacing : Bool} {gs : List Glyph} (h : ∀ g ∈ gs, g.Sound spacing) :
    Writes Reprints (gs.flatMap Glyph.text) (strokesOf gs) := by
  induction gs with
  | nil => exact .nil
  | cons g gs ih =>
    have hg := h g List.mem_cons_self
    rw [List.flatMap_cons, strokesOf_cons]
    refine Writes.append ?_ (ih fun g' hg' => h g' (List.mem_cons_of_mem g hg'))
    cases g with
    | char c => exact Writes.literal [c]
    | token t kind => exact Writes.of_piece hg.reprints

/-! ## Documents -/

/-- The items write the strokes on every line that they spread on. -/
def Inks (is : List Item) (ss : List (Stroke Move)) : Prop :=
  ∀ x, Spreads is x → Writes Reprints x ss

namespace Inks

variable {is js : List Item} {ss rs : List (Stroke Move)}

theorem nil : Inks [] [] := by
  rintro x ⟨⟩
  exact .nil

theorem line (kind : Line) : Inks [.line kind] [] := by
  intro x hx
  have := Writes.nil (A := Reprints).gaps hx.isBlank_line
  rwa [List.append_nil] at this

theorem append (h : Inks is ss) (h' : Inks js rs) : Inks (is ++ js) (ss ++ rs) := by
  intro x hx
  obtain ⟨y, z, rfl, hy, hz⟩ := hx.split
  exact (h y hy).append (h' z hz)

theorem flat (h : Inks is ss) : Writes Reprints (is.flatMap Item.flat) ss := h _ (spreads_flat is)

/-- Items without soft breaks spread on one line only. -/
theorem of_flat (hsoft : .line .soft ∉ is) (h : Writes Reprints (is.flatMap Item.flat) ss) :
    Inks is ss := fun _ hx => hx.eq_flat hsoft ▸ h

end Inks

theorem line_notMem_ofText (kind : Line) (t : Text) : .line kind ∉ (Doc.ofText t).items := by
  rw [Doc.items_ofText]
  cases t with
  | nil => simp [Doc.items_text_nil]
  | cons c t => simp [Doc.items_text]

/-- Lines with other breaks before them have no soft ones. -/
theorem soft_notMem_lines {kind : Line} (h : kind ≠ .soft) (f : Text → Text) (ls : List Text) :
    .line .soft ∉
      (ls.flatMap fun line => [Doc.line kind, .ofText (f line)]).flatMap Doc.items := by
  rw [List.flatMap_assoc, List.mem_flatMap]
  rintro ⟨line, -, hmem⟩
  simp [line_notMem_ofText, Ne.symm h] at hmem

section Tokens

variable {ss : List (Stroke Move)}

theorem inks_keptBlankLine (after : Text) : Inks (keptBlankLine after).items [] := by
  unfold keptBlankLine
  split
  · exact Inks.line .soft
  · rw [Doc.items_empty]
    exact Inks.nil

/-- A line break that keeps a blank line writes nothing. -/
theorem Inks.join_keptBlankLine {d : Doc} (h : Inks d.items ss) (after : Text) :
    Inks (Doc.join [d, keptBlankLine after]).items ss := by
  rw [Doc.items_join, List.flatMap_cons, List.flatMap_singleton]
  have := h.append (inks_keptBlankLine after)
  rwa [List.append_nil] at this

/-- **Source text that is kept** writes what it does in the source. -/
theorem inks_keptText (before after : Text) {text : Text} (h : Writes Reprints text ss) :
    Inks (keptText before text after).items ss := by
  refine Inks.join_keptBlankLine (Inks.of_flat ?_ ?_) after
  · unfold verbatim
    split
    · simp
    · rw [Doc.items_join, List.flatMap_cons, List.mem_append, not_or]
      exact ⟨line_notMem_ofText .soft _, soft_notMem_lines (by decide) _ _⟩
  · exact h.of_even firm_reprints (even_verbatim before text).symm

theorem soft_notMem_action (act : Action) (spacing : Bool) :
    .line .soft ∉ (act.doc spacing).items := by
  have hstatement (s : Text) (b c : Bool) : .line .soft ∉ (statementDoc s b c).items := by
    unfold statementDoc
    split <;> simp [line_notMem_ofText, Doc.hardline]
  simp [Action.doc, line_notMem_ofText, hstatement]

/-- **A printed action** writes its move. -/
theorem inks_action {text : Text} {act : Action} {spacing : Bool}
    (h : (Glyph.token text (.action act)).Sound spacing) :
    Inks (act.doc spacing).items [.piece act.move] := by
  obtain ⟨hreads, hsteady, hopen⟩ := h
  obtain ⟨act', hact, hkeyword⟩ := Action.readsAs_flat hreads hsteady
  have hsolid := (shows_action hreads.isAction (free_source text) spacing).solid
  refine Inks.of_flat (soft_notMem_action act spacing) (Writes.of_piece ?_)
  refine ⟨.action act', hact, ?_, fun _ => ?_⟩
  · show act'.move = act.move
    rw [Action.move, Action.move, hkeyword]
  · show Region.Unopened (Text.solid (act.doc spacing).flat)
    rwa [hsolid]

end Tokens

/-! ## Containers -/

namespace Word

/-- What the word writes, if slot `i` writes `g i`. -/
def strokes (g : Nat → List (Stroke Move)) : Word → List (Stroke Move)
  | [] => []
  | .char c :: w => literalStrokes [c] ++ strokes g w
  | .slot i :: w => g i ++ strokes g w

variable {g : Nat → List (Stroke Move)}

theorem strokes_append (v w : Word) : strokes g (v ++ w) = strokes g v ++ strokes g w := by
  induction v with
  | nil => rfl
  | cons s v ih =>
    cases s with
    | char c => simp only [List.cons_append, strokes, ih, List.append_assoc]
    | slot i => simp only [List.cons_append, strokes, ih, List.append_assoc]

theorem strokes_ofText (t : Text) : strokes g (ofText t) = literalStrokes t := by
  induction t with
  | nil => rfl
  | cons c t ih =>
    rw [← List.singleton_append (x := c), literalStrokes_append, ← ih]
    rfl

end Word

section Containers

variable {source : Text} {keys : List Text} {docs : List Doc} {g : Nat → List (Stroke Move)}

/-- A character before pieces is printed before them. -/
theorem spreads_consChar {c : Char} {ps : List Splice.Piece} {x : Text}
    (h : Spreads ((Splice.consChar c ps).flatMap fun p => (pieceDoc docs p).items) x) :
    ∃ y, x = c :: y ∧ Spreads (ps.flatMap fun p => (pieceDoc docs p).items) y := by
  unfold Splice.consChar at h
  split at h
  · rename_i t ps
    rw [List.flatMap_cons, pieceDoc, Doc.items_ofText, Doc.items_text (by simp)] at h
    cases h with
    | @text _ _ z hz =>
      refine ⟨t ++ z, rfl, ?_⟩
      rw [List.flatMap_cons, pieceDoc, Doc.items_ofText]
      exact (spreads_text t).append hz
  · rw [List.flatMap_cons, pieceDoc, Doc.items_ofText, Doc.items_text (by simp)] at h
    cases h with
    | text _ hz => exact ⟨_, rfl, hz⟩

/-- A word with documents in its slots, by induction on the word. -/
theorem inks_group {w : Word}
    (h : ∀ i, .slot i ∈ w → Inks (docs.getD i .empty).items (g i)) :
    Inks (w.group.flatMap fun p => (pieceDoc docs p).items) (w.strokes g) := by
  induction w with
  | nil => exact Inks.nil
  | cons s w ih =>
    have hw := ih fun i hi => h i (List.mem_cons_of_mem s hi)
    cases s with
    | char c =>
      intro x hx
      obtain ⟨y, rfl, hy⟩ := spreads_consChar hx
      exact (Writes.literal [c]).append (hw y hy)
    | slot i => exact (h i List.mem_cons_self).append hw

open Markup Splice in
/-- **Laid out markup with documents in place of its placeholders**, by induction on its items: each
text is spelled from a part of the word. -/
theorem inks_of_lays (hkeys : IsKeys source keys)
    (hdocs : ∀ i < keys.length, Inks (docs.getD i .empty).items (g i)) {is : List Item} {t : Text}
    (h : Lays is t) {w : Word} (hspell : w.spell keys = t) (hfresh : w.Fresh source)
    (hwithin : w.Within keys.length) :
    Inks (is.flatMap (Doc.itemsWith (splicedText keys docs))) (w.strokes g) := by
  induction h generalizing w with
  | done hb =>
    subst hspell
    rw [spell_blank hkeys hwithin hb, Word.strokes_ofText, literalStrokes, Text.solid_of_isBlank hb]
    exact Inks.nil
  | line kind _ ih => exact (Inks.line kind).append (ih hspell hfresh hwithin)
  | @text b s t is hb _ hblank _ ih =>
    obtain ⟨w₁, rfl, hrest⟩ := spell_blank_append hkeys hwithin hspell hb
    have hsub : w₁ <:+: Word.ofText b ++ w₁ := (List.suffix_append ..).isInfix
    obtain ⟨v, w, rfl, hv, hw⟩ := spell_split hkeys (hwithin.of_isInfix hsub) hrest hblank
    have hvsub : v <:+: Word.ofText b ++ (v ++ w) := (List.prefix_append ..).isInfix.trans hsub
    have hwsub : w <:+: Word.ofText b ++ (v ++ w) := (List.suffix_append ..).isInfix.trans hsub
    have hpieces : pieces keys s = v.group :=
      hv ▸ pieces_spell hkeys (hfresh.of_isInfix hvsub) (hwithin.of_isInfix hvsub)
    have hitems : Doc.itemsWith (splicedText keys docs) (.text s) =
        v.group.flatMap fun p => (pieceDoc docs p).items := by
      rw [Doc.itemsWith, splicedText, Doc.items_join, List.flatMap_map, hpieces]
    rw [Word.strokes_append, Word.strokes_append, Word.strokes_ofText, literalStrokes,
      Text.solid_of_isBlank hb, List.flatMap_cons, hitems]
    exact (inks_group fun i hi => hdocs i (hwithin.of_isInfix hvsub i hi)).append
      (ih hw (hfresh.of_isInfix hwsub) (hwithin.of_isInfix hwsub))

end Containers

namespace Node

/-- Siblings write the literals before them and themselves. -/
theorem strokes_aliasWord {g : Nat → List (Stroke Move)} : ∀ (k : Nat) (ns : List Node),
    (∀ i n, ns[i]? = some n → g (k + i) = strokesOf n.glyphs) →
      (aliasWord k ns).strokes g = strokesOf (glyphsAll ns)
  | _, [], _ => rfl
  | k, n :: ns, h => by
    have ih := strokes_aliasWord (k + 1) ns fun i m hm => by
      rw [Nat.add_right_comm]
      exact h (i + 1) m hm
    rw [aliasWord, Word.strokes_append, Word.strokes_ofText, glyphsAll, strokesOf_append,
      strokesOf_append, strokesOf_literal, ← ih, ← h 0 n rfl]
    rfl

end Node

/-- The glyphs of the content. -/
def Container.glyphs (c : Container) : List Glyph :=
  Node.glyphsAll c.children ++ Glyph.literal c.tail

namespace Container

theorem text_eq_glyphs (c : Container) : c.text = c.glyphs.flatMap Glyph.text := by
  rw [text, glyphs, List.flatMap_append, Node.spellAll_eq_glyphs, Glyph.text_literal]

/-- What the child with a number writes. -/
def childStrokes (c : Container) (index : Nat) : List (Stroke Move) :=
  (c.children[index]?.map fun n => strokesOf n.glyphs).getD []

theorem strokes_word (c : Container) : c.word.strokes c.childStrokes = strokesOf c.glyphs := by
  rw [word, Word.strokes_append, Word.strokes_ofText, glyphs, strokesOf_append, strokesOf_literal,
    Node.strokes_aliasWord 0 c.children]
  intro i n hn
  rw [Nat.zero_add, childStrokes, hn]
  rfl

end Container

namespace Printer

variable {σ : Type} {source : Text} {p : Printer σ} {ss rs : List (Stroke Move)}

/-- What is printed for siblings writes their glyphs. -/
def InkedAll (ns : List Node) (docs : List Doc) : Prop :=
  List.Forall₂ (fun n d => Inks d.items (strokesOf n.glyphs)) ns docs

/-- **The content of a container**, with the documents of its children. -/
theorem inks_containerDoc {c : Container} {docs : List Doc} (hc : c.Stands source)
    (hdocs : InkedAll c.children docs) (embedded : Bool) :
    Inks (containerDoc (Placeholder.stem source) embedded c docs).items (strokesOf c.glyphs) := by
  have hlength : (c.keys (Placeholder.stem source)).length = c.children.length := List.length_map _
  have hslots : ∀ i < (c.keys (Placeholder.stem source)).length,
      Inks (docs.getD i .empty).items (c.childStrokes i) := by
    intro i hi
    rw [hlength] at hi
    have hlt : i < docs.length := hdocs.length_eq ▸ hi
    rw [List.getD_eq_getElem _ _ hlt, Container.childStrokes, List.getElem?_eq_getElem hi]
    exact hdocs.get hi hlt
  rw [containerDoc, Doc.items_mapText (items_splicedText_nil _ docs), ← c.strokes_word]
  exact inks_of_lays hc.isKeys hslots (Markup.Html.lays_stripped embedded _) (c.spell_word _)
    hc.fresh (c.within_keys _)

/-- Without the line breaks at its ends, a body writes what it does with them. -/
theorem inks_splitEdges {d : Doc} (h : Inks d.items ss) : Inks (splitEdges d).2.1.items ss := by
  obtain ⟨a, b, hlines, hitems⟩ := items_splitEdges d
  rw [List.forall_mem_append] at hlines
  intro x hx
  have hspreads := (spreads_flat a).append (hx.append (spreads_flat b))
  rw [← hitems] at hspreads
  exact ((h _ hspreads).drop_start firm_reprints (isBlank_flat_lines hlines.1)).drop_end
    firm_reprints (isBlank_flat_lines hlines.2)

/-- **The body of a block.** -/
theorem inks_bodyParts {c : Container} {docs : List Doc} (hc : c.Stands source)
    (hdocs : InkedAll c.children docs) :
    Inks (bodyParts (Placeholder.stem source) c docs).2.1.items (strokesOf c.glyphs) := by
  unfold bodyParts
  split
  · rename_i hblank
    rw [← c.strokes_word, word_of_isBlank hc hblank, Word.strokes_ofText, literalStrokes,
      Text.solid_of_isBlank hblank, Doc.items_empty]
    exact Inks.nil
  · exact inks_splitEdges (inks_containerDoc hc hdocs true)

/-- **A body between its opening and its closing action.** -/
theorem inks_blockBody (keyword : Keyword) {edges : Line × Doc × Line} {start stop : Doc}
    {rs ts : List (Stroke Move)} (hstart : Inks start.items ss) (hbody : Inks edges.2.1.items rs)
    (hstop : Inks stop.items ts) :
    Inks (blockBody keyword edges start stop).items (ss ++ (rs ++ ts)) := by
  obtain ⟨leading, body, trailing⟩ := edges
  have hrest := (Inks.line trailing).append hstop
  have hitems : (blockBody keyword (leading, body, trailing) start stop).items = start.items ++
      ((if body.isEmpty then [] else .line leading :: body.items) ++
        (.line trailing :: stop.items)) := by
    unfold blockBody
    by_cases hempty : body.isEmpty = true
    · simp [hempty]
    · by_cases hdefine : keyword = .defineKw <;> simp [hempty, hdefine]
  rw [hitems]
  refine hstart.append (Inks.append ?_ hrest)
  split
  · rename_i hempty
    rwa [(Doc.isEmpty_iff_items body).mp hempty] at hbody
  · exact (Inks.line leading).append hbody

/-- **A body that is kept as written**, between its opening and its closing action. -/
theorem inks_ignoredRegion {start stop : Doc} {content : Text} {rs ts : List (Stroke Move)}
    (hstart : Inks start.items ss) (hbody : Writes Reprints content rs)
    (hstop : Inks stop.items ts) :
    Inks (ignoredRegion start content stop).items (ss ++ (rs ++ ts)) := by
  have hitems : (ignoredRegion start content stop).items = start.removeLines.items ++
      (((ignoredLines content).flatMap fun line => [Doc.line .literal, .ofText line]).flatMap
        Doc.items ++ (.line .hard :: stop.items)) := by
    unfold ignoredRegion
    simp [Doc.hardline]
  rw [hitems]
  refine Inks.append ?_ (Inks.append ?_ ((Inks.line .hard).append hstop))
  · refine Inks.of_flat ?_ ?_
    · rw [Doc.items_removeLines, List.mem_flatMap]
      rintro ⟨i, -, hi⟩
      cases i with
      | text t => simp [Doc.Item.onLine] at hi
      | line kind => cases kind <;> simp [Doc.Item.onLine] at hi
    · have := hstart.flat
      rwa [← Doc.flat, ← Doc.flat_removeLines] at this
  · refine Inks.of_flat (soft_notMem_lines (by decide) id _) ?_
    have hflat : (((ignoredLines content).flatMap fun line =>
        [Doc.line .literal, .ofText line]).flatMap Doc.items).flatMap Item.flat =
          spaced (ignoredLines content) := by
      rw [Doc.flat_flatMap, List.flatMap_assoc]
      simp [spaced, Doc.flat_line, Item.flat]
    rw [hflat]
    exact hbody.of_even firm_reprints (even_ignoredLines content).symm

/-! ## Nodes -/

/-- Every glyph of the node is sound. -/
def Sound (p : Printer σ) (gs : List Glyph) : Prop :=
  ∀ g ∈ gs, g.Sound p.settings.bracketSpacing

theorem Sound.of_subset {gs hs : List Glyph} (h : p.Sound gs) (hsub : hs ⊆ gs) : p.Sound hs :=
  fun g hg => h g (hsub hg)

theorem inks_edge {l : Leaf} (h : p.Sound [l.glyph]) :
    Inks (p.edge l).items (strokesOf [l.glyph]) := by
  rw [edge, Doc.items_group]
  exact inks_action (h l.glyph List.mem_cons_self)

theorem inks_stopDoc {stop : Option Leaf} (h : p.Sound (stop.map Leaf.glyph).toList) :
    Inks (p.stopDoc stop).items (strokesOf (stop.map Leaf.glyph).toList) := by
  cases stop with
  | none =>
    show Inks Doc.empty.items _
    rw [Doc.items_empty]
    exact Inks.nil
  | some l => exact inks_edge h

theorem inks_keptAt {n : Node} (span : Span) (h : p.Sound n.glyphs) :
    Inks (p.keptAt span n.text).items (strokesOf n.glyphs) := by
  rw [n.text_eq_glyphs]
  exact inks_keptText _ _ (writes_glyphs h)

theorem glyphs_block (info : Info) (frame : Frame) (children : List Node) :
    (Node.block info frame children).glyphs = [frame.start.glyph] ++
      ((Container.ofBlock info frame children).glyphs ++ (frame.stop.map Leaf.glyph).toList) := by
  rw [Node.glyphs, Container.glyphs]
  simp [Container.ofBlock]

/-- **A block writes its actions and its content.** -/
theorem inks_blockDoc {info : Info} {frame : Frame} {children : List Node} {docs : List Doc}
    (hp : p.Serves source) (h : (Node.block info frame children).Stands source)
    (hsound : p.Sound (Node.block info frame children).glyphs) (hdocs : InkedAll children docs) :
    Inks (p.blockDoc info frame children docs).items
      (strokesOf (Node.block info frame children).glyphs) := by
  unfold blockDoc
  split
  · exact inks_keptAt info.span hsound
  · rw [glyphs_block] at hsound ⊢
    have hstart := inks_edge (hsound.of_subset (List.subset_append_left ..))
    have hinner := hsound.of_subset (List.subset_append_right ..)
    have hstop := inks_stopDoc (hinner.of_subset (List.subset_append_right ..))
    rw [strokesOf_append, strokesOf_append]
    split
    · have hcontent := writes_glyphs (hinner.of_subset (List.subset_append_left ..))
      rw [← Container.text_eq_glyphs] at hcontent
      exact (inks_ignoredRegion hstart hcontent hstop).join_keptBlankLine _
    · have hbody := inks_bodyParts (Container.stands_ofBlock h) hdocs
      rw [← hp.stem_eq] at hbody
      have hinks := inks_blockBody frame.keyword hstart hbody hstop
      unfold blockGroup
      split
      · exact hinks
      · refine Inks.join_keptBlankLine ?_ _
        rwa [Doc.items_group]

/-- Branches follow each other directly. -/
theorem inks_branches {branches : List Node} {docs : List Doc} (hdocs : InkedAll branches docs)
    (hlead : ∀ n ∈ branches, n.info.lead = []) :
    Inks (Doc.join docs).items (strokesOf (Node.glyphsAll branches)) := by
  rw [Doc.items_join]
  induction hdocs with
  | nil =>
    rw [Node.glyphsAll]
    exact Inks.nil
  | @cons n d ns docs hd _ ih =>
    rw [List.flatMap_cons, Node.glyphsAll, hlead n List.mem_cons_self, strokesOf_append,
      strokesOf_append]
    exact hd.append (ih fun m hm => hlead m (List.mem_cons_of_mem n hm))

mutual

/-- **Every node that stands in the source prints the strokes of its glyphs.** -/
theorem inks_node (hp : p.Serves source) : ∀ {n : Node}, n.Stands source → p.Sound n.glyphs →
    Inks (p.nodeDoc n).items (strokesOf n.glyphs)
  | .action info text act, h, hsound => by
    rw [nodeDoc]
    split
    · have := inks_keptAt info.span hsound
      rwa [Node.text] at this
    · rw [lone, Doc.items_group]
      refine Inks.join_keptBlankLine ?_ _
      rw [Node.glyphs] at hsound ⊢
      exact inks_action (hsound _ List.mem_cons_self)
  | .raw info text, h, hsound => by
    rw [nodeDoc]
    have := inks_keptAt info.span hsound
    rwa [Node.text] at this
  | .block info frame children, h, hsound => by
    rw [nodeDoc]
    refine inks_blockDoc hp h hsound ?_
    refine inks_nodes hp (fun n hn => ((Container.stands_ofBlock h).children n hn).1) ?_
    refine hsound.of_subset ?_
    rw [glyphs_block, Container.glyphs]
    exact List.subset_append_of_subset_right _ (List.subset_append_of_subset_left _
      (List.subset_append_left ..))
  | .chain info branches, h, hsound => by
    rw [nodeDoc, chainDoc]
    split
    · exact inks_keptAt info.span hsound
    · rw [Node.glyphs] at hsound ⊢
      have hdocs := inks_nodes hp h.branches hsound
      obtain ⟨pre, post, -, -, -, hbranches⟩ := h
      refine Inks.join_keptBlankLine ?_ _
      rw [Doc.items_group]
      exact inks_branches hdocs fun n hn => (hbranches.joined n hn).lead_eq

/-- Siblings that stand in the source print the strokes of their glyphs. -/
theorem inks_nodes (hp : p.Serves source) : ∀ {ns : List Node}, (∀ n ∈ ns, n.Stands source) →
    p.Sound (Node.glyphsAll ns) → InkedAll ns (p.nodeDocs ns)
  | [], _, _ => by
    rw [nodeDocs]
    exact .nil
  | n :: ns, h, hsound => by
    rw [nodeDocs]
    rw [Node.glyphsAll] at hsound
    have hrest := hsound.of_subset (List.subset_append_right ..)
    exact .cons (inks_node hp (h n List.mem_cons_self)
        (hrest.of_subset (List.subset_append_left ..)))
      (inks_nodes hp (fun m hm => h m (List.mem_cons_of_mem n hm))
        (hrest.of_subset (List.subset_append_right ..)))

end

/-- **A printed template writes the strokes of the template**, with every layout. -/
theorem writes_render {tree : Tree} (hp : p.Serves source) (h : tree.Placed source)
    (hsound : p.Sound (Container.ofTree tree).glyphs) (page : Page) :
    Writes Reprints ((p.treeDoc tree).render page) (strokesOf (Container.ofTree tree).glyphs) := by
  have hc := Container.stands_ofTree h
  have hdocs : InkedAll tree.children (p.nodeDocs tree.children) :=
    inks_nodes hp (fun n hn => (hc.children n hn).1)
      (hsound.of_subset (List.subset_append_left ..))
  have hcontent := inks_containerDoc hc hdocs false
  rw [← hp.stem_eq] at hcontent
  obtain ⟨x, hx, heven⟩ := Doc.exists_spreads_render page (p.treeDoc tree)
  rw [treeDoc, Doc.items_join, List.flatMap_cons, List.flatMap_singleton] at hx
  have hwrites := hcontent.append (Inks.line .hard) x hx
  rw [List.append_nil] at hwrites
  exact hwrites.of_even firm_reprints heven

end Printer

end TemplateFormat
