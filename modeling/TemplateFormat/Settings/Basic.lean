import TemplateFormat.Doc.Render

/-!
# Settings

What a user can choose about the output.
-/

namespace TemplateFormat

/-- What happens when a node cannot be put into its formatted markup. -/
inductive EmbedErrors where
  /-- The template is not formatted. -/
  | strict
  /-- The node is kept as written. -/
  | passthrough
deriving DecidableEq, Repr, Inhabited

/-- The settings of the formatter. -/
structure Settings extends Page where
  /-- Put a space between the braces of an action and its statement. -/
  bracketSpacing : Bool := true
  /-- What happens when a node cannot be put into its formatted markup. -/
  embedErrors : EmbedErrors := .strict
deriving DecidableEq, Repr, Inhabited

end TemplateFormat
