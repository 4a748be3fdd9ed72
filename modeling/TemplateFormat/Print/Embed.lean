import TemplateFormat.Print.Action
import TemplateFormat.Print.Verbatim
import TemplateFormat.Print.Splice
import TemplateFormat.Settings.Basic
import TemplateFormat.Tree.Basic

/-!
# Printing containers

The content of a container goes through the markup formatter with placeholders for its children, and
the printed children are spliced into the result. A block puts it between its opening and its closing
action: a group that is broken where the closing action starts a line in the source.

The parts of a block are given as computations, so that they are printed when their turn comes: the
opening action, the closing action, the markup, and then the children in the order of their
placeholders.
-/

namespace TemplateFormat

/-- What the printing of every node of a template needs. -/
structure Printer (σ : Type) where
  /-- The template. -/
  source : Text
  /-- The stem of its placeholders. -/
  stem : Text
  settings : Settings
  formatter : MarkupFormatter σ

namespace Printer

variable {σ : Type}

/-- The printer of a tree. -/
def ofTree (tree : Tree) (settings : Settings) (formatter : MarkupFormatter σ) : Printer σ :=
  ⟨tree.source, tree.stem, settings, formatter⟩

/-- The source text at a span, as it stands. -/
def verbatimAt (p : Printer σ) (span : Span) (text : Text) : Doc :=
  verbatim (span.before p.source) text

/-- The source text at a span, as it stands, and the blank line after it. -/
def keptAt (p : Printer σ) (span : Span) (text : Text) : Doc :=
  keptText (span.before p.source) text (span.after p.source)

/-- The line break that keeps a blank line after a span. -/
def blankLineAt (p : Printer σ) (span : Span) : Doc := keptBlankLine (span.after p.source)

/-- An action that stands alone: a group that is broken where it has a line of its own. -/
def lone (p : Printer σ) (span : Span) (act : Action) : Doc :=
  .group (.join [act.doc p.settings.bracketSpacing, p.blankLineAt span])
    (aloneOnLine (span.before p.source) (span.after p.source))

/-- An action that opens or closes a block. -/
def edge (p : Printer σ) (leaf : Leaf) : Doc :=
  .group (leaf.action.doc p.settings.bracketSpacing) false

/-- The last branch ends with a line feed and white space. -/
def chainBreaks (branches : List Node) : Bool :=
  match branches.getLast? with
  | some (.block _ frame children) => endsWithNewLine (frame.content children)
  | _ => false

/-- A chain with its printed branches. -/
def chain (p : Printer σ) (span : Span) (branches : List Node) (docs : List Doc) : Doc :=
  .join [.group (.join docs) (chainBreaks branches), p.blankLineAt span]

/-- Formats the content of a container and splices its children in. -/
def container (p : Printer σ) (embedded : Bool) (aliased : Text) (slots : List (Slot (PrintM σ)))
    (span : Span) : PrintM σ Doc := do
  let doc ← PrintM.formatMarkup p.formatter embedded aliased
  Splice.splice doc.stripHardline.mergeText slots span

/-- Takes normal line breaks off the ends of a body: the breaks that surround it, and the rest. -/
def splitEdges : Doc → Line × Doc × Line
  | .concat docs =>
    let leads := docs.head?.any (Doc.isLine .normal)
    let docs := if leads then docs.tail else docs
    let trails := docs.getLast?.any (Doc.isLine .normal)
    let docs := if trails then docs.dropLast else docs
    (if leads then .normal else .soft, .join docs, if trails then .normal else .soft)
  | doc => (.soft, doc, .soft)

/-- The lines of an ignored body, without a blank one at either end. -/
def ignoredLines (body : Text) : List Text :=
  let lines := (Text.lines body).map Text.trimEnd
  let lines := if lines.getLast? = some [] then lines.dropLast else lines
  if lines.head? = some [] then lines.tail else lines

/-- A block whose body is kept as written, between its printed opening and closing actions. -/
def ignoredRegion (start : Doc) (body : Text) (stop : Doc) : Doc :=
  .join (start.removeLines ::
    (ignoredLines body).flatMap (fun line => [.line .literal, .ofText line]) ++ [.hardline, stop])

/-- The body of a block between its printed opening and closing actions. -/
def blockBody (keyword : Keyword) (edges : Line × Doc × Line) (start stop : Doc) : Doc :=
  let (leading, body, trailing) := edges
  let inner := .join [.line leading, body]
  let body :=
    if body.isEmpty then .empty else if keyword = .defineKw then inner else .nest inner
  .join [start, body, .line trailing, stop]

/-- Prints an optional part. -/
def optional : Option (PrintM σ Doc) → PrintM σ Doc
  | none => pure .empty
  | some part => part

/-- Prints the body of a block, and tells which line breaks surround it. A blank body is none. -/
def bodyEdges (p : Printer σ) (aliased : Text) (slots : List (Slot (PrintM σ))) (span : Span) :
    PrintM σ (Line × Doc × Line) :=
  if Text.isBlank aliased then pure (.soft, .empty, .soft)
  else do return splitEdges (← p.container true aliased slots span)

/-- The printed block, in a group of its own if it is no branch. -/
def blockGroup (p : Printer σ) (info : Info) (frame : Frame) (content : Text) (doc : Doc) : Doc :=
  if frame.branch then doc
  else .join [.group doc (endsWithNewLine content), p.blankLineAt info.span]

/-- Prints a block from its parts. -/
def block (p : Printer σ) (info : Info) (frame : Frame) (children : List Node)
    (start : PrintM σ Doc) (stop : Option (PrintM σ Doc)) (slots : List (Slot (PrintM σ))) :
    PrintM σ Doc :=
  let content := frame.content children
  if info.ignored then pure (p.keptAt info.span (Node.block info frame children).text)
  else do
    let startDoc ← start
    let stopDoc ← optional stop
    if frame.keyword = .ignoreStartKw then
      return .join [ignoredRegion startDoc content stopDoc, p.blankLineAt info.span]
    else
      let edges ← p.bodyEdges (frame.aliased p.stem children) slots info.span
      return p.blockGroup info frame content (blockBody frame.keyword edges startDoc stopDoc)

/-- Prints a whole template from its parts. -/
def root (p : Printer σ) (tree : Tree) (slots : List (Slot (PrintM σ))) : PrintM σ Doc := do
  return .join [← p.container false tree.aliased slots tree.span, .hardline]

end Printer

end TemplateFormat
