import TemplateFormat.Doc.Basic

/-!
# Rebuilding documents

* `Doc.mapText` and `Doc.mapTextM` replace every text of a document.
* `Doc.stripHardline` removes a forced line break at the end.
* `Doc.mergeText` joins neighbouring texts into one.
* `Doc.removeLines` writes a document on one line.
* `Doc.propagate` marks every group that holds a forced line break or a broken group as broken.
-/

namespace TemplateFormat

namespace Doc

mutual

/-- Every text `t` becomes `f t`. -/
def mapText (f : Text → Doc) : Doc → Doc
  | empty => empty
  | text t => f t
  | concat docs => concat (mapTextAll f docs)
  | indent doc => indent (mapText f doc)
  | group doc broken => group (mapText f doc) broken
  | line kind => line kind

/-- Every text `t` of the documents becomes `f t`. -/
def mapTextAll (f : Text → Doc) : List Doc → List Doc
  | [] => []
  | d :: ds => mapText f d :: mapTextAll f ds

end

section Effects

variable {m : Type → Type} [Monad m]

mutual

/-- Every text `t` becomes the result of `f t`, from left to right. -/
def mapTextM (f : Text → m Doc) : Doc → m Doc
  | empty => pure empty
  | text t => f t
  | concat docs => do return concat (← mapTextAllM f docs)
  | indent doc => do return indent (← mapTextM f doc)
  | group doc broken => do return group (← mapTextM f doc) broken
  | line kind => pure (line kind)

/-- Every text `t` of the documents becomes the result of `f t`, from left to right. -/
def mapTextAllM (f : Text → m Doc) : List Doc → m (List Doc)
  | [] => pure []
  | d :: ds => do
    let d' ← mapTextM f d
    return d' :: (← mapTextAllM f ds)

end

end Effects

mutual

/-- The document without a forced line break at its end. -/
def stripHardline : Doc → Doc
  | line kind => if kind.isForced then empty else line kind
  | concat docs => join (stripLast docs)
  | indent doc => nest (stripHardline doc)
  | group doc broken => group (stripHardline doc) broken
  | empty => empty
  | text t => text t

/-- The documents without those at the end that print nothing, and the last of the others without a
forced line break at its end. -/
def stripLast : List Doc → List Doc
  | [] => []
  | d :: ds =>
    if allEmpty ds then (if isEmpty d then [] else [stripHardline d])
    else d :: stripLast ds

end

/-- The documents with texts that follow each other directly joined into one. -/
def joinTexts : List Doc → List Doc
  | [] => []
  | text a :: ds =>
    match joinTexts ds with
    | text b :: rest => text (a ++ b) :: rest
    | rest => text a :: rest
  | d :: ds => d :: joinTexts ds

mutual

/-- The document with neighbouring texts joined and nested sequences made flat. -/
def mergeText : Doc → Doc
  | concat docs => join (joinTexts (mergeParts docs))
  | indent doc => nest (mergeText doc)
  | group doc broken => group (mergeText doc) broken
  | empty => empty
  | text t => text t
  | line kind => line kind

/-- The parts of the merged documents. -/
def mergeParts : List Doc → List Doc
  | [] => []
  | d :: ds => (mergeText d).parts ++ mergeParts ds

end

mutual

/-- The document on one line: soft breaks vanish, the others become a space. -/
def removeLines : Doc → Doc
  | line .soft => empty
  | line _ => text [' ']
  | concat docs => join (removeLinesAll docs)
  | indent doc => nest (removeLines doc)
  | group doc _ => group (removeLines doc) false
  | empty => empty
  | text t => text t

/-- The documents, each on one line. -/
def removeLinesAll : List Doc → List Doc
  | [] => []
  | d :: ds => removeLines d :: removeLinesAll ds

end

mutual

/-- The document holds a forced line break or a broken group. -/
def forcesBreak : Doc → Bool
  | line kind => kind.isForced
  | concat docs => anyForces docs
  | indent doc => forcesBreak doc
  | group doc broken => broken || forcesBreak doc
  | empty => false
  | text _ => false

/-- Some document holds a forced line break or a broken group. -/
def anyForces : List Doc → Bool
  | [] => false
  | d :: ds => forcesBreak d || anyForces ds

end

mutual

/-- The document with every group that must break marked as broken. -/
def propagate : Doc → Doc
  | group doc broken => group (propagate doc) (broken || forcesBreak doc)
  | concat docs => concat (propagateAll docs)
  | indent doc => indent (propagate doc)
  | empty => empty
  | text t => text t
  | line kind => line kind

/-- The documents with every group that must break marked as broken. -/
def propagateAll : List Doc → List Doc
  | [] => []
  | d :: ds => propagate d :: propagateAll ds

end

end Doc

end TemplateFormat
