import TemplateFormat.Text.Basic

/-!
# Spans

A span is a range of bytes of a source text: where it starts, and how long it is.
-/

namespace TemplateFormat

/-- A range of bytes of a source text. -/
structure Span where
  /-- Offset of the first byte. -/
  index : Nat
  /-- Length in bytes. -/
  length : Nat
deriving DecidableEq, Repr, Inhabited

namespace Span

/-- The span from `start` up to `stop`; empty if the bounds are out of order. -/
def ofBounds (start stop : Nat) : Span := ⟨start, stop - start⟩

/-- Offset just after the last byte. -/
def stop (s : Span) : Nat := s.index + s.length

/-- `inner` lies entirely inside `s`. -/
def contains (s inner : Span) : Bool := s.index ≤ inner.index && inner.stop ≤ s.stop

theorem stop_ofBounds {start stop : Nat} (h : start ≤ stop) : (ofBounds start stop).stop = stop :=
  Nat.add_sub_cancel' h

/-- The part of `source` that the span covers. -/
def slice (s : Span) (source : Text) : Text :=
  Text.takeBytes s.length (Text.dropBytes s.index source)

/-- The part of `source` before the span. -/
def before (s : Span) (source : Text) : Text := Text.takeBytes s.index source

/-- The part of `source` after the span. -/
def after (s : Span) (source : Text) : Text := Text.dropBytes s.stop source

end Span

end TemplateFormat
