import Chewie.Lib.Word
import Mathlib.Data.Nat.Sqrt
import Mathlib.Tactic.Linarith

/-!
# Square roots of fixed-point numbers

Newton's iteration in unsigned words. Beside the root the loop returns the exact sums that it forms,
which wrap if they do not fit. An iterate is never below the root, and the loop ends at the first
that is not above it.
-/

namespace Chewie.Libc.Fixedmath

open Word List

/-- The loop of the square roots. A division by zero is zero. -/
def newton (width n xk : Nat) : List Nat × Nat :=
  let sum := xk + n / xk
  let xk1 := wrap width sum >>> 1
  if xk1 < xk then (sum :: (newton width n xk1).1, (newton width n xk1).2)
  else ([sum], xk)

/-- The square root of a number of `width` bits. -/
def ubsqrt (width a : Nat) : List Nat × Nat :=
  let (sums, root) := newton width a (if a = 2 ^ width - 1 then 2 ^ (width - 1) else a)
  (sums, wrap (width / 2) root)

def ub32sqrtub16 : Nat → List Nat × Nat := ubsqrt 64

def ub16sqrtub8 : Nat → List Nat × Nat := ubsqrt 32

variable {width n xk : Nat}

theorem lt_next_square (n : Nat) (positive : 0 < xk) :
    n < ((xk + n / xk) / 2 + 1) * ((xk + n / xk) / 2 + 1) := by
  have rest := Nat.lt_mul_div_succ n positive
  have mean := four_mul_le_sq_add xk (n / xk + 1)
  have half : xk + (n / xk + 1) ≤ 2 * ((xk + n / xk) / 2 + 1) := by omega
  nlinarith [Nat.pow_le_pow_left half 2]

/-- No sum wraps if the first does not, and the loop ends at the root. -/
theorem newton_spec (wide : 3 ≤ width) (fits : n < 2 ^ width) (sum : xk + n / xk < 2 ^ width)
    (above : n < (xk + 1) * (xk + 1)) :
    (∀ value ∈ (newton width n xk).1, value < 2 ^ width) ∧
      (newton width n xk).2 = Nat.sqrt n := by
  induction xk using Nat.strong_induction_on with
  | _ xk ih =>
    rw [newton]
    simp only [wrap_of_lt sum, Nat.shiftRight_one]
    by_cases less : (xk + n / xk) / 2 < xk
    · have next := lt_next_square n (Nat.zero_lt_of_lt less)
      have later : (xk + n / xk) / 2 + n / ((xk + n / xk) / 2) < 2 ^ width := by
        by_cases two : 2 ≤ (xk + n / xk) / 2
        · have half : n / ((xk + n / xk) / 2) ≤ n / 2 := Nat.div_le_div_left two (by decide)
          omega
        · have least : 2 ^ 3 ≤ 2 ^ width := Nat.pow_le_pow_right (by decide) wide
          have one : (xk + n / xk) / 2 + 1 ≤ 2 := by omega
          have small := Nat.lt_of_lt_of_le next (Nat.mul_le_mul one one)
          have whole := Nat.div_le_self n ((xk + n / xk) / 2)
          omega
      rw [if_pos less]
      have rest := ih _ less later next
      exact ⟨forall_mem_cons.mpr ⟨sum, rest.1⟩, rest.2⟩
    · rw [if_neg less]
      refine ⟨forall_mem_singleton.mpr sum, Nat.eq_sqrt.mpr ⟨?_, above⟩⟩
      exact Nat.le_trans (Nat.mul_le_mul_left xk (by omega)) (Nat.mul_div_le n xk)

theorem ubsqrt_spec {half a : Nat} (wide : 2 ≤ half) (fits : a < 2 ^ (2 * half)) :
    (∀ value ∈ (ubsqrt (2 * half) a).1, value < 2 ^ (2 * half)) ∧
      (ubsqrt (2 * half) a).2 = Nat.sqrt a := by
  have least : 2 ^ 3 ≤ 2 ^ (2 * half - 1) := Nat.pow_le_pow_right (by decide) (by omega)
  have double : 2 ^ (2 * half - 1) * 2 = 2 ^ (2 * half) := Nat.two_pow_pred_mul_two (by omega)
  have first : ∃ start, ubsqrt (2 * half) a = ((newton (2 * half) a start).1,
      wrap (2 * half / 2) (newton (2 * half) a start).2) ∧ a ≤ 2 * start ∧
      start + a / start < 2 ^ (2 * half) := by
    refine ⟨_, rfl, ?_⟩
    split
    · have quotient : a / 2 ^ (2 * half - 1) < 2 := Nat.div_lt_of_lt_mul (by omega)
      omega
    · have quotient : a / a ≤ 1 := Nat.div_le_of_le_mul (by omega)
      omega
  obtain ⟨start, result, near, sum⟩ := first
  have spec := newton_spec (by omega) fits sum (by nlinarith)
  have square : a < 2 ^ half * 2 ^ half := by rwa [← Nat.pow_add, ← Nat.two_mul]
  rw [result, spec.2, Nat.mul_div_cancel_left half (by decide)]
  exact ⟨spec.1, wrap_of_lt (Nat.sqrt_lt.mpr square)⟩

/-- The square roots of fixed-point numbers form no sum that wraps, and are rounded down. -/
theorem fixed_sqrt (a : BitVec 64) (b : BitVec 32) :
    ((∀ sum ∈ (ub32sqrtub16 a.toNat).1, sum < 2 ^ 64) ∧
        (ub32sqrtub16 a.toNat).2 = Nat.sqrt a.toNat) ∧
      (∀ sum ∈ (ub16sqrtub8 b.toNat).1, sum < 2 ^ 32) ∧
        (ub16sqrtub8 b.toNat).2 = Nat.sqrt b.toNat :=
  ⟨@ubsqrt_spec 32 a.toNat (by decide) a.isLt, @ubsqrt_spec 16 b.toNat (by decide) b.isLt⟩

end Chewie.Libc.Fixedmath
