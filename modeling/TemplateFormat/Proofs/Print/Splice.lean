import TemplateFormat.Proofs.Print.Session
import TemplateFormat.Proofs.Splice.Fill

/-!
# Printing what is spliced

Splicing prints the slots of a document from left to right, and fails if a placeholder was lost or
doubled. `splicedText` is what a text becomes, given the documents of the slots.

Results:
* `prints_splice`: splicing succeeds if every placeholder is found once.
* `flat_spliced`: on one line, the document has the lines of the slots in place of the placeholders.
-/

namespace TemplateFormat

open PrintM

variable {σ : Type}

/-! ## Texts of a document -/

section Texts

variable {g : Text → PrintM σ Doc} {g' : Text → Doc}

mutual

/-- Replacing the texts of a document is printed from left to right. -/
theorem prints_mapTextM (h : ∀ t, Prints (g t) (g' t)) : ∀ d : Doc,
    Prints (d.mapTextM g) (d.mapText g')
  | .empty => by
    rw [Doc.mapTextM, Doc.mapText]
    exact prints_pure _
  | .text t => by
    rw [Doc.mapTextM, Doc.mapText]
    exact h t
  | .concat ds => by
    rw [Doc.mapTextM, Doc.mapText]
    exact (prints_mapTextAllM h ds).map Doc.concat
  | .indent d => by
    rw [Doc.mapTextM, Doc.mapText]
    exact (prints_mapTextM h d).map Doc.indent
  | .group d broken => by
    rw [Doc.mapTextM, Doc.mapText]
    exact (prints_mapTextM h d).map (Doc.group · broken)
  | .line kind => by
    rw [Doc.mapTextM, Doc.mapText]
    exact prints_pure _

theorem prints_mapTextAllM (h : ∀ t, Prints (g t) (g' t)) : ∀ ds : List Doc,
    Prints (Doc.mapTextAllM g ds) (Doc.mapTextAll g' ds)
  | [] => by
    rw [Doc.mapTextAllM, Doc.mapTextAll]
    exact prints_pure _
  | d :: ds => by
    rw [Doc.mapTextAllM, Doc.mapTextAll]
    exact (prints_mapTextM h d).bind ((prints_mapTextAllM h ds).map _)

end

end Texts

/-! ## Pieces of a text -/

/-- A piece, with the documents of the slots. -/
def pieceDoc (docs : List Doc) : Splice.Piece → Doc
  | .literal t => .ofText t
  | .slot index => docs.getD index .empty

theorem flat_pieceDoc (docs : List Doc) (piece : Splice.Piece) :
    (pieceDoc docs piece).flat = piece.restore fun i => (docs.getD i .empty).flat := by
  cases piece with
  | literal t => exact Doc.flat_ofText t
  | slot i => rfl

variable {slots : List (Slot (PrintM σ))} {docs : List Doc}

theorem prints_printPiece (h : List.Forall₂ (fun s d => Prints s.print d) slots docs) :
    ∀ piece, Prints (Splice.printPiece slots piece) (pieceDoc docs piece)
  | .literal t => prints_pure _
  | .slot index => by
    induction h generalizing index with
    | nil => exact prints_pure _
    | cons hd _ ih =>
      cases index with
      | zero => exact hd
      | succ index => exact ih index

theorem prints_printPieces (h : List.Forall₂ (fun s d => Prints s.print d) slots docs) :
    ∀ pieces, Prints (Splice.printPieces slots pieces) (pieces.map (pieceDoc docs))
  | [] => prints_pure _
  | piece :: pieces => (prints_printPiece h piece).bind ((prints_printPieces h pieces).map _)

/-- A text with the documents of the slots in place of its placeholders. -/
def splicedText (keys : List Text) (docs : List Doc) (t : Text) : Doc :=
  .join ((Splice.pieces keys t).map (pieceDoc docs))

theorem flat_splicedText (keys : List Text) (docs : List Doc) (t : Text) :
    (splicedText keys docs t).flat =
      Splice.fill keys (fun i => (docs.getD i .empty).flat) (.text t) := by
  rw [splicedText, Doc.flat_join, List.flatMap_map, Splice.fill]
  congr 1
  funext piece
  exact flat_pieceDoc docs piece

/-- **Splicing succeeds** if no placeholder is lost or doubled. -/
theorem prints_splice (h : List.Forall₂ (fun s d => Prints s.print d) slots docs) {doc : Doc}
    (span : Span) (hused : Splice.misused? (slots.map Slot.key) doc = none) :
    Prints (Splice.splice doc slots span)
      (doc.mapText (splicedText (slots.map Slot.key) docs)) := by
  have htext (t : Text) :
      Prints (Splice.spliceText slots t) (splicedText (slots.map Slot.key) docs t) :=
    (prints_printPieces h _).map Doc.join
  unfold Splice.splice
  refine (prints_mapTextM htext doc).bind ?_
  rw [hused]
  exact prints_pure _

theorem items_splicedText_nil (keys : List Text) (docs : List Doc) :
    (splicedText keys docs []).items = [] := by
  rw [splicedText, Splice.pieces, List.map_nil, Doc.items_join, List.flatMap_nil]

theorem flat_spliced (keys : List Text) (docs : List Doc) (doc : Doc) :
    (doc.mapText (splicedText keys docs)).flat =
      doc.items.flatMap (Splice.fill keys fun i => (docs.getD i .empty).flat) := by
  rw [Doc.flat_mapText (items_splicedText_nil keys docs)]
  congr 1
  funext item
  cases item with
  | text t => exact flat_splicedText keys docs t
  | line kind => rfl

end TemplateFormat
