/-!
# Numbers of 64 bits

Widths are unsigned numbers of 64 bits. The room that is left on a line is a signed one, so that a width
from 2^63 on acts as a negative number.
-/

namespace TemplateFormat

namespace Word64

/-- The number of words: 2^64. -/
def size : Nat := 18446744073709551616

/-- The number of signed words that are not negative: 2^63. -/
def half : Nat := 9223372036854775808

/-- The number is an unsigned word. -/
def isUnsigned (n : Nat) : Bool := n < size

/-- The number is a signed word. -/
def isSigned (n : Int) : Bool := -(half : Int) ≤ n && n < half

/-- The signed word with the same bits as a number. -/
def signed (n : Int) : Int := Int.bmod n size

theorem size_eq : size = half + half := rfl

/-- A signed word stands for itself. -/
theorem signed_of_isSigned {n : Int} (h : isSigned n = true) : signed n = n := by
  simp only [isSigned, Bool.and_eq_true, decide_eq_true_eq] at h
  have hs : (size : Int) = 2 * half := by decide
  exact Int.bmod_eq_of_le (by omega) (by omega)

end Word64

end TemplateFormat
