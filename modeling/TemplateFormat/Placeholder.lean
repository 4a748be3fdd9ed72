import TemplateFormat.Text.Basic

/-!
# Placeholders

While the markup of a container is formatted, each of its nodes is represented by a placeholder: a stem
that does not occur in the source, a number, and a low line. The stem is `_gt` followed by the fewest
`x` that make it new.

The low line at the end keeps the placeholder of 1 from being found in the one of 11.
-/

namespace TemplateFormat

namespace Placeholder

/-- What every stem begins with. -/
def base : Text := "_gt".toList

/-- The number of `x` after the base that makes a stem longer than each one in the text. -/
def demand : Text → Nat
  | [] => 0
  | c :: t =>
    match Text.dropStart? base (c :: t) with
    | some rest => max ((rest.takeWhile (· == 'x')).length + 1) (demand t)
    | none => demand t

/-- The stem of the placeholders of a source. -/
def stem (source : Text) : Text := base ++ List.replicate (demand source) 'x'

/-- The placeholder with number `n`. -/
def token (stem : Text) (n : Nat) : Text := stem ++ Nat.toDigits 10 n ++ ['_']

/-- The first `count` placeholders of a source. -/
def tokens (source : Text) (count : Nat) : List Text :=
  (List.range count).map (token (stem source))

end Placeholder

end TemplateFormat
