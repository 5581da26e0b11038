import Mathlib.Tactic.Positivity
import Mathlib.Tactic.NormNum

/-!
# Signed machine words over the integers

A signed word of `width` bits is an integer of `[-2 ^ (width - 1), 2 ^ (width - 1))`. A conversion
keeps the low bits, so it keeps every value in range and never leaves the range.
-/

namespace Chewie.Signed

/-- Conversion to a signed word, in two's complement. -/
def wrap (width : Nat) (value : Int) : Int := value.bmod (2 ^ width)

variable {width : Nat} {value : Int}

theorem wrap_of_fits (lower : -2 ^ width ≤ value) (upper : value < 2 ^ width) :
    wrap (width + 1) value = value := by
  apply Int.bmod_eq_of_le
  · push_cast
    omega
  · push_cast
    omega

theorem wrap_lt (width : Nat) (value : Int) : wrap (width + 1) value < 2 ^ width := by
  have bound := @Int.bmod_lt value (2 ^ (width + 1)) (Nat.two_pow_pos _)
  push_cast at bound
  unfold wrap
  omega

end Chewie.Signed
