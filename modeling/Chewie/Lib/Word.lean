import Mathlib.Data.Nat.Bitwise

/-!
# Unsigned machine words over the naturals

A word of `width` bits is a natural below `2 ^ width`. The operations are the
unsigned C operations: addition and subtraction wrap, and `andNot` is `x & ~mask`.
The lemmas say when an operation agrees with exact natural arithmetic, and what
the two masks in common use compute: a low mask rounds down to its granule, and
the top bit splits a word into a flag and the magnitude below it.
-/

namespace Chewie.Word

/-- Conversion to an unsigned word discards the high bits. -/
def wrap (width value : Nat) : Nat := value % 2 ^ width

/-- Unsigned addition. -/
def add (width left right : Nat) : Nat := wrap width (left + right)

/-- Unsigned subtraction, as addition of the two's complement. -/
def sub (width left right : Nat) : Nat := wrap width (left + (2 ^ width - wrap width right))

/-- `x & ~mask` in a word of `width` bits. -/
def andNot (width value mask : Nat) : Nat := value &&& (2 ^ width - 1 - mask)

variable {width left right value : Nat}

theorem wrap_lt (width value : Nat) : wrap width value < 2 ^ width :=
  Nat.mod_lt _ (Nat.two_pow_pos width)

theorem wrap_of_lt (fits : value < 2 ^ width) : wrap width value = value :=
  Nat.mod_eq_of_lt fits

theorem add_of_lt (fits : left + right < 2 ^ width) : add width left right = left + right :=
  Nat.mod_eq_of_lt fits

theorem add_lt (width left right : Nat) : add width left right < 2 ^ width := wrap_lt _ _

theorem sub_of_le (ordered : right ≤ left) (fits : left < 2 ^ width) :
    sub width left right = left - right := by
  have rightFits : right < 2 ^ width := Nat.lt_of_le_of_lt ordered fits
  unfold sub
  rw [wrap_of_lt rightFits]
  unfold wrap
  rw [Nat.mod_eq_sub_mod (by omega), Nat.mod_eq_of_lt (by omega)]
  omega

theorem sub_wrap (ordered : right ≤ left) :
    sub width (wrap width left) (wrap width right) = wrap width (left - right) := by
  obtain ⟨distance, rfl⟩ := Nat.exists_eq_add_of_le ordered
  have split := Nat.div_add_mod right (2 ^ width)
  have total : right + distance + (2 ^ width - right % 2 ^ width) =
      distance + 2 ^ width * (right / 2 ^ width + 1) := by
    rw [Nat.mul_add]
    omega
  simp only [sub, wrap, Nat.mod_mod]
  rw [Nat.mod_add_mod, total, Nat.add_mul_mod_self_left, Nat.add_sub_cancel_left]

theorem andNot_low (shift : Nat) (inside : shift ≤ width) (fits : value < 2 ^ width) :
    andNot width value (2 ^ shift - 1) = value / 2 ^ shift * 2 ^ shift := by
  have power : 2 ^ shift ≤ 2 ^ width := Nat.pow_le_pow_right (by decide) inside
  have mask : 2 ^ width - 1 - (2 ^ shift - 1) = 2 ^ width - (2 ^ shift - 1 + 1) := by omega
  apply Nat.eq_of_testBit_eq
  intro bit
  unfold andNot
  rw [mask, Nat.testBit_and, Nat.testBit_two_pow_sub_succ (by omega),
    Nat.testBit_two_pow_sub_one, Nat.mul_comm, Nat.testBit_two_pow_mul, Nat.testBit_div_two_pow]
  by_cases low : bit < shift
  · simp [low, show ¬shift ≤ bit by omega]
  by_cases high : bit < width
  · simp [low, high, show shift ≤ bit by omega]
  · have clear : value.testBit bit = false :=
      Nat.testBit_lt_two_pow (Nat.lt_of_lt_of_le fits
        (Nat.pow_le_pow_right (by decide) (by omega)))
    simp [low, high, clear, show shift ≤ bit by omega]

theorem andNot_top (value bit : Nat) : andNot (bit + 1) value (2 ^ bit) = value % 2 ^ bit := by
  have mask : 2 ^ (bit + 1) - 1 - 2 ^ bit = 2 ^ bit - 1 := by
    omega
  rw [andNot, mask, Nat.and_two_pow_sub_one_eq_mod]

/-- A magnitude below the flag bit, with the flag added when `flag` holds. -/
def tag (bit magnitude : Nat) (flag : Bool) : Nat := magnitude + if flag then 2 ^ bit else 0

section Tag

variable {bit magnitude other : Nat} {flag : Bool}

section

variable (small : magnitude < 2 ^ bit)

include small

theorem tag_lt : tag bit magnitude flag < 2 ^ (bit + 1) := by
  unfold tag
  split <;> omega

theorem tag_and : tag bit magnitude flag &&& 2 ^ bit = if flag then 2 ^ bit else 0 := by
  cases flag with
  | false =>
    simp only [tag, Bool.false_eq_true, ↓reduceIte, Nat.add_zero]
    rw [Nat.and_two_pow, Nat.testBit_lt_two_pow small]
    simp
  | true =>
    simp only [tag, ↓reduceIte]
    rw [Nat.and_two_pow, Nat.add_comm, Nat.testBit_two_pow_add_eq, Nat.testBit_lt_two_pow small]
    simp

theorem tag_andNot : andNot (bit + 1) (tag bit magnitude flag) (2 ^ bit) = magnitude := by
  rw [andNot_top]
  cases flag with
  | false => simpa [tag] using Nat.mod_eq_of_lt small
  | true => simpa [tag] using Nat.mod_eq_of_lt small

theorem tag_or : tag bit magnitude flag ||| 2 ^ bit = tag bit magnitude true := by
  have set : magnitude ||| 2 ^ bit = magnitude + 2 ^ bit := Nat.or_two_pow_eq_add_of_lt small
  cases flag with
  | false => simpa [tag] using set
  | true =>
    simp only [tag, ↓reduceIte]
    rw [← set, Nat.or_assoc, Nat.or_self]

theorem or_tag_and (otherSmall : other < 2 ^ bit) :
    magnitude ||| (tag bit other flag &&& 2 ^ bit) = tag bit magnitude flag := by
  rw [tag_and otherSmall]
  cases flag with
  | false => simp [tag]
  | true =>
    have set := @tag_or bit magnitude false small
    simpa [tag] using set

end

end Tag

end Chewie.Word
