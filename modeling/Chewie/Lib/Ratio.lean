import Mathlib.Data.Rat.Floor

/-!
# Divided counts and rounded fractions

A count that is too large for a counter is divided first. `divider limit count` is the smallest
divider after which at most `limit` steps are left. A fraction with `bits` bits behind the point is
rounded to the nearest integer, halves up, when half a unit is added before the bits are dropped.
-/

namespace Chewie.Ratio

/-- The smallest divider that brings a count down to the limit. -/
def divider (limit count : Nat) : Nat := (count + (limit - 1)) / limit

/-- Round a fraction with this many bits behind the point. -/
def nearest (bits value : Nat) : Nat := (value + 2 ^ (bits - 1)) / 2 ^ bits

variable {limit count bits : Nat}

theorem divider_pos (positive : 0 < limit) (nonempty : 0 < count) : 0 < divider limit count :=
  Nat.div_pos (by omega) positive

theorem div_divider_le (positive : 0 < limit) (count : Nat) :
    count / divider limit count ≤ limit := by
  apply Nat.div_le_of_le_mul
  have bound : count + (limit - 1) < limit * ((count + (limit - 1)) / limit) + limit := by
    rw [Nat.mul_comm]
    exact Nat.lt_div_mul_add positive
  unfold divider
  rw [Nat.mul_comm]
  omega

theorem lt_of_divider (positive : 0 < limit) (nonempty : 0 < count) :
    (divider limit count - 1) * limit < count := by
  have bound := Nat.div_mul_le_self (count + (limit - 1)) limit
  unfold divider at *
  rw [Nat.sub_mul]
  omega

theorem half_le_div_divider (positive : 0 < limit) (divided : 1 < divider limit count) :
    (limit + 1) / 2 ≤ count / divider limit count := by
  have nonempty : 0 < count := by
    apply Nat.pos_of_ne_zero
    intro zero
    subst zero
    have empty : divider limit 0 = 0 := Nat.div_eq_of_lt (by omega)
    omega
  have lower := lt_of_divider positive nonempty
  generalize divider limit count = parts at *
  apply (Nat.le_div_iff_mul_le (by omega)).2
  obtain ⟨more, rfl⟩ : ∃ more, parts = more + 2 := ⟨parts - 2, by omega⟩
  obtain ⟨rest, rfl⟩ : ∃ rest, limit = rest + 1 := ⟨limit - 1, by omega⟩
  have half : (rest + 1 + 1) / 2 * 2 ≤ rest + 2 := by omega
  have scaled := Nat.mul_le_mul_right (more + 2) half
  have total : (more + 2 - 1) * (rest + 1) = more * rest + more + rest + 1 := by
    rw [show more + 2 - 1 = more + 1 by omega]
    ring
  have product : (rest + 2) * (more + 2) = more * rest + 2 * more + 2 * rest + 4 := by ring
  have double : (rest + 1 + 1) / 2 * 2 * (more + 2) = 2 * ((rest + 1 + 1) / 2 * (more + 2)) := by
    ring
  omega

theorem nearest_eq_round (value : Nat) (positive : 0 < bits) :
    (nearest bits value : Int) = round ((value : ℚ) / 2 ^ bits) := by
  have half : (2 : ℚ) ^ bits = 2 * 2 ^ (bits - 1) := by
    rw [← pow_succ', show bits - 1 + 1 = bits by omega]
  have sum : (value : ℚ) / 2 ^ bits + 1 / 2 = ((value + 2 ^ (bits - 1) : Nat) : ℚ) /
      ((2 ^ bits : Nat) : ℚ) := by
    push_cast
    rw [half]
    field_simp
  rw [round_eq, sum, Rat.floor_natCast_div_natCast]
  rfl

theorem nearest_mono {less more : Nat} (ordered : less ≤ more) :
    nearest bits less ≤ nearest bits more :=
  Nat.div_le_div_right (Nat.add_le_add_right ordered _)

theorem nearest_mul (whole : Nat) (positive : 0 < bits) : nearest bits (2 ^ bits * whole) = whole := by
  unfold nearest
  rw [Nat.mul_add_div (Nat.two_pow_pos bits),
    Nat.div_eq_of_lt (Nat.pow_lt_pow_right (by decide) (by omega)), Nat.add_zero]

end Chewie.Ratio
