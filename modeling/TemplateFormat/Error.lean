import TemplateFormat.Keyword
import TemplateFormat.Span

/-!
# Errors

The causes for which a template is not formatted. `FormatError.message` is the text shown for a cause,
`FormatError.label` the note at its place in the source, and `FormatError.span` that place.
-/

namespace TemplateFormat

/-- Why a template was not formatted. -/
inductive FormatError where
  /-- A block is still open at the end: the keyword and place of its latest opening action. -/
  | unterminatedBlock (keyword : Keyword) (span : Span)
  /-- A closing action without an open block. -/
  | unexpectedEnd (keyword : Keyword) (span : Span)
  /-- An `else` action without an open block. -/
  | unexpectedElse (span : Span)
  /-- An action without a statement. -/
  | missingStatement (span : Span)
  /-- More open blocks than `limit`. -/
  | nestingTooDeep (limit : Nat) (span : Span)
  /-- A node could not be put into its formatted markup. -/
  | embedFailure (message : String) (span : Option Span)
  /-- The settings are not valid; the reason is the reader's. -/
  | config (reason : String)
  /-- A file could not be read; the reason is the system's. -/
  | io (reason : String)
deriving DecidableEq, Repr, Inhabited

namespace FormatError

/-- The text shown for the error. -/
def message : FormatError → String
  | unterminatedBlock _ _ => "missing end block"
  | unexpectedEnd keyword _ => "Encountered unexpected " ++ keyword.name ++ " keyword."
  | unexpectedElse _ => "Encountered else outside of a block."
  | missingStatement _ => "Template action without statement."
  | nestingTooDeep limit _ =>
    "Blocks nested deeper than " ++ String.ofList (Nat.toDigits 10 limit) ++ " levels."
  | embedFailure message _ => "Failed to embed template node: " ++ message
  | config reason => "Invalid configuration: " ++ reason
  | io reason => "I/O error: " ++ reason

/-- Where in the source the error is, if it has a place. -/
def span : FormatError → Option Span
  | unterminatedBlock _ span | unexpectedEnd _ span | unexpectedElse span
  | missingStatement span | nestingTooDeep _ span => some span
  | embedFailure _ span => span
  | config _ | io _ => none

/-- The note at the error's place. -/
def label : FormatError → String
  | unterminatedBlock keyword _ => "this " ++ keyword.name ++ " block is never closed"
  | unexpectedEnd keyword _ => "no open block for this " ++ keyword.name
  | unexpectedElse _ => "no open block for this else"
  | missingStatement _ => "empty action"
  | nestingTooDeep _ _ => "nested too deeply"
  | embedFailure _ _ => "while formatting this"
  | config reason => message (config reason)
  | io reason => message (io reason)

/-- The error is one of the template's structure. -/
def isParseError : FormatError → Bool
  | unterminatedBlock _ _ | unexpectedEnd _ _ | unexpectedElse _
  | missingStatement _ | nestingTooDeep _ _ => true
  | embedFailure _ _ | config _ | io _ => false

end FormatError

end TemplateFormat
