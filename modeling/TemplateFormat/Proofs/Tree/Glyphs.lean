import TemplateFormat.Proofs.Tree.Step
import TemplateFormat.Proofs.Tree.Placed

/-!
# The glyphs of a template

A template is written with two kinds of glyphs: the characters of its literals, and its tokens, each
with its text. The tree of a template is written with the same glyphs in the same order as its
tokens: no literal is lost or moved where blocks are closed and chains are put together.

Results:
* `Node.text_eq_glyphs`: the text of a node is that of its glyphs.
* `Builder.glyphs_step`, `Builder.glyphs_steps`: a step adds the glyphs of its token.
* `parse_glyphs`: the glyphs of a tree are those of its tokens.
-/

namespace TemplateFormat

/-- A character of a literal, or a token. -/
inductive Glyph where
  | char (c : Char)
  | token (text : Text) (kind : Token.Kind)
deriving DecidableEq, Repr

namespace Glyph

/-- The source text of the glyph. -/
def text : Glyph → Text
  | char c => [c]
  | token t _ => t

/-- The glyphs of a literal. -/
def literal (t : Text) : List Glyph := t.map char

theorem text_literal (t : Text) : (literal t).flatMap text = t := by
  induction t with
  | nil => rfl
  | cons c t ih =>
    rw [literal, List.map_cons, List.flatMap_cons]
    exact congrArg (c :: ·) ih

end Glyph

open Glyph

/-- The glyph of an action that opens or closes a block. -/
def Leaf.glyph (l : Leaf) : Glyph := .token l.text (.action l.action)

/-- The glyphs of a token and the literal before it. -/
def Token.glyphs (t : Token) : List Glyph := literal t.lead ++ [.token t.text t.kind]

namespace Node

mutual

/-- The glyphs of a node. -/
def glyphs : Node → List Glyph
  | .action _ text act => [.token text (.action act)]
  | .raw _ text => [.token text .raw]
  | .block _ frame children => Leaf.glyph frame.start ::
      (glyphsAll children ++ (literal frame.tail ++ (frame.stop.map Leaf.glyph).toList))
  | .chain _ branches => glyphsAll branches

/-- The glyphs of siblings and the literals before them. -/
def glyphsAll : List Node → List Glyph
  | [] => []
  | n :: ns => literal n.info.lead ++ (glyphs n ++ glyphsAll ns)

end

theorem glyphsAll_append (ms ns : List Node) :
    glyphsAll (ms ++ ns) = glyphsAll ms ++ glyphsAll ns := by
  induction ms with
  | nil => rw [glyphsAll, List.nil_append, List.nil_append]
  | cons m ms ih => simp only [List.cons_append, glyphsAll, ih, List.append_assoc]

theorem glyphsAll_singleton (n : Node) : glyphsAll [n] = literal n.info.lead ++ n.glyphs := by
  rw [glyphsAll, glyphsAll, List.append_nil]

/-- The glyphs of a node are among those of its siblings. -/
theorem mem_glyphsAll {n : Node} {ns : List Node} {g : Glyph} (hn : n ∈ ns) (hg : g ∈ n.glyphs) :
    g ∈ glyphsAll ns := by
  obtain ⟨before, after, rfl⟩ := List.append_of_mem hn
  rw [glyphsAll_append, glyphsAll]
  exact List.mem_append_right _ (List.mem_append_right _ (List.mem_append_left _ hg))

theorem info_chain (info : Info) (branches : List Node) : (chain info branches).info = info := rfl

@[simp] theorem glyphs_setIgnored (ignored : Bool) (n : Node) :
    (n.setIgnored ignored).glyphs = n.glyphs := by
  cases n <;> simp only [setIgnored, glyphs]

mutual

/-- **The text of a node is that of its glyphs.** -/
theorem text_eq_glyphs : ∀ n : Node, n.text = n.glyphs.flatMap Glyph.text
  | .action info t act => by
    rw [text, glyphs, List.flatMap_singleton, Glyph.text]
  | .raw info t => by
    rw [text, glyphs, List.flatMap_singleton, Glyph.text]
  | .block info frame children => by
    rw [text, glyphs, List.flatMap_cons, List.flatMap_append, List.flatMap_append, text_literal,
      ← spellAll_eq_glyphs children, List.append_assoc, List.append_assoc]
    cases frame.stop with
    | none => rfl
    | some l => simp [Leaf.glyph, Glyph.text]
  | .chain info branches => by
    rw [text, glyphs, spellAll_eq_glyphs branches]

theorem spellAll_eq_glyphs : ∀ ns : List Node, spellAll ns = (glyphsAll ns).flatMap Glyph.text
  | [] => by
    rw [spellAll, glyphsAll, List.flatMap_nil]
  | n :: ns => by
    rw [spellAll, glyphsAll, List.flatMap_append, List.flatMap_append, text_literal,
      ← text_eq_glyphs n, ← spellAll_eq_glyphs ns, List.append_assoc]

end

end Node

namespace Builder

open Node

/-- The glyphs from the content of the enclosing container up to the content of the block. -/
def levelGlyphs (level : Level) : List Glyph :=
  glyphsAll level.outer.reverse ++
    (literal level.lead ++ (glyphsAll level.branches.reverse ++ [level.start.glyph]))

/-- The glyphs up to the content of the innermost open block. -/
def openGlyphs : List Level → List Glyph
  | [] => []
  | level :: outer => openGlyphs outer ++ levelGlyphs level

/-- The glyphs read so far. -/
def glyphs (b : Builder) : List Glyph := openGlyphs b.levels ++ glyphsAll b.children.reverse

theorem glyphsAll_attach (ns : List Node) (n : Node) :
    glyphsAll (attach ns n).reverse = glyphsAll ns.reverse ++ (literal n.info.lead ++ n.glyphs) := by
  rw [attach, List.reverse_cons, glyphsAll_append, glyphsAll_singleton, glyphs_setIgnored,
    lead_setIgnored]

theorem glyphs_closeBlock (level : Level) (lead : Text) (children : List Node) (tail : Text)
    (spanStop : Nat) (stop : Option Leaf) (branch : Bool) :
    (closeBlock level lead children tail spanStop stop branch).glyphs = level.start.glyph ::
      (glyphsAll children.reverse ++ (literal tail ++ (stop.map Leaf.glyph).toList)) := by
  simp only [closeBlock, Node.glyphs]

theorem lead_closeBlock (level : Level) (lead : Text) (children : List Node) (tail : Text)
    (spanStop : Nat) (stop : Option Leaf) (branch : Bool) :
    (closeBlock level lead children tail spanStop stop branch).info.lead = lead := rfl

variable {b b' : Builder} {t : Token}

/-- **A step adds the glyphs of its token.** -/
theorem glyphs_step (h : b.step t = .ok b') : b'.glyphs = b.glyphs ++ t.glyphs := by
  have hadv := step_advance b t
  rw [h] at hadv
  unfold Token.glyphs
  cases hadv with
  | raw hkind =>
    rw [hkind]
    simp only [glyphs, addChild, glyphsAll_attach, Node.glyphs, Node.info, List.append_assoc]
  | plain act hkind hk =>
    rw [hkind]
    simp only [glyphs, addChild, glyphsAll_attach, Node.glyphs, Node.info, List.append_assoc]
  | divide act level outer hkind hk hl =>
    rw [hkind]
    simp [glyphs, hl, divideLevel, openGlyphs, levelGlyphs, glyphsAll_append, glyphs_closeBlock,
      lead_closeBlock, glyphsAll, Leaf.glyph, literal]
  | close act k level outer hkind hk hc hl =>
    rw [hkind]
    unfold closeLevel
    split
    · rename_i hbranches
      simp [glyphs, hl, openGlyphs, levelGlyphs, hbranches, glyphsAll_attach, glyphs_closeBlock,
        lead_closeBlock, glyphsAll, Leaf.glyph]
    · simp [glyphs, hl, openGlyphs, levelGlyphs, glyphsAll_attach, Node.glyphs, glyphsAll_append,
        glyphsAll_singleton, glyphs_closeBlock, lead_closeBlock, info_chain, Leaf.glyph, literal]
  | start act k hkind hk ho hd =>
    rw [hkind]
    simp [glyphs, openLevel, openGlyphs, levelGlyphs, glyphsAll, Leaf.glyph]

/-- **After every run the builder holds the glyphs of the tokens it has read**, in order. -/
theorem glyphs_steps {ts : List Token} (h : empty.steps ts = .ok b) :
    b.glyphs = ts.flatMap Token.glyphs := by
  refine steps_invariant (P := fun ts b => b.glyphs = ts.flatMap Token.glyphs) rfl ?_ h
  intro ts c t c' hc hs
  rw [glyphs_step hs, hc, List.flatMap_append, List.flatMap_singleton]

end Builder

/-- **The glyphs of a tree are those of its tokens.** -/
theorem parse_glyphs {source : Text} {tree : Tree} (h : parse source = .ok tree) :
    Node.glyphsAll tree.children = (scan source).tokens.flatMap Token.glyphs ∧
      tree.tail = (scan source).tail := by
  obtain ⟨b, hsteps, hlevels, rfl⟩ := parse_eq_ok h
  have hglyphs := Builder.glyphs_steps hsteps
  rw [Builder.glyphs, hlevels, Builder.openGlyphs, List.nil_append] at hglyphs
  exact ⟨hglyphs, rfl⟩

end TemplateFormat
