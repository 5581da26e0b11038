import Mathlib.Logic.Function.Basic
import Mathlib.Data.Nat.Basic

/-!
# Tables of bits kept in words

A table of machine words read as one long row of bits. `editRange` changes a range of bits that
lies in one or two consecutive words, with one mask for each of them. `bit_editRange` says what it
does to every bit of the row; masks of low bits are compared through `and_ones_eq` and
`and_ones_zero`. `setRun` counts the set bits from a place on.
-/

namespace Chewie.Bitmap

open BitVec Function

variable {w : Nat}

/-- A bit of the row. -/
def bit (words : Nat → BitVec w) (index : Nat) : Bool := (words (index / w)).getLsbD (index % w)

/-- The mask of the low `count` bits: a full word shifted right by `w - count`. A shift count out of
range gives the empty mask. -/
def ones (w count : Nat) : BitVec w :=
  if count ≤ w then BitVec.allOnes w >>> (w - count) else 0

/-- Edit the `count` bits from `start` on. `edit` changes a word in the places of a mask. -/
def editRange (edit : BitVec w → BitVec w → BitVec w) (words : Nat → BitVec w)
    (start count : Nat) : Nat → BitVec w :=
  let index := start / w
  let offset := start % w
  let avail := w - offset
  if avail < count then
    let words := Function.update words index (edit (words index) (BitVec.allOnes w <<< offset))
    Function.update words (index + 1) (edit (words (index + 1)) (ones w (count - avail)))
  else
    Function.update words index (edit (words index) (ones w count <<< offset))

/-- The number of set bits from `start` on, at most `limit`. -/
def setRun (row : Nat → Bool) : Nat → Nat → Nat
  | _, 0 => 0
  | start, limit + 1 => if row start then setRun row (start + 1) limit + 1 else 0

section Masks

variable {count j : Nat} {word : BitVec w}

theorem getLsbD_ones (fits : count ≤ w) : (ones w count).getLsbD j = decide (j < count) := by
  rw [ones, if_pos fits, getLsbD_ushiftRight, getLsbD_allOnes]
  apply decide_eq_decide.mpr
  omega

theorem and_ones_congr (fits : count ≤ w) (other : BitVec w) :
    word &&& ones w count = other &&& ones w count ↔
      ∀ j < count, word.getLsbD j = other.getLsbD j := by
  constructor
  · intro same j below
    have here := congrArg (fun word => word.getLsbD j) same
    simpa [getLsbD_and, getLsbD_ones fits, below] using here
  · intro same
    apply eq_of_getLsbD_eq
    intro j inside
    rw [getLsbD_and, getLsbD_and, getLsbD_ones fits]
    by_cases below : j < count
    · rw [same j below]
    · simp [below]

theorem and_ones_eq (fits : count ≤ w) :
    word &&& ones w count = ones w count ↔ ∀ j < count, word.getLsbD j = true := by
  simpa +contextual [getLsbD_ones fits] using and_ones_congr fits (ones w count)

theorem and_ones_zero (fits : count ≤ w) :
    word &&& ones w count = 0 ↔ ∀ j < count, word.getLsbD j = false := by
  simpa using and_ones_congr fits 0

end Masks

section Ranges

variable {edit : BitVec w → BitVec w → BitVec w} {change : Bool → Bool → Bool}
variable {words : Nat → BitVec w} {start count : Nat}

theorem bit_update (bitwise : ∀ word mask j, j < w →
      (edit word mask).getLsbD j = change (word.getLsbD j) (mask.getLsbD j))
    (positive : 0 < w) (index : Nat) (mask : BitVec w) (k : Nat) :
    bit (update words index (edit (words index) mask)) k =
      if k / w = index then change (bit words k) (mask.getLsbD (k % w)) else bit words k := by
  unfold bit
  by_cases here : k / w = index
  · rw [if_pos here, here, update_self, bitwise _ _ _ (Nat.mod_lt _ positive)]
  · rw [if_neg here, update_of_ne here]

theorem word_cases (positive : 0 < w) (start k : Nat) :
    (k < start / w * w ∧ k / w < start / w) ∨
    (k / w = start / w ∧ k = start / w * w + k % w) ∨
    (k / w = start / w + 1 ∧ k = start / w * w + w + k % w) ∨
    (start / w * w + 2 * w ≤ k ∧ start / w + 1 < k / w) := by
  have own := Nat.div_add_mod' k w
  have low := Nat.mod_lt k positive
  by_cases before : k / w < start / w
  · have apart := Nat.mul_le_mul_right w (show k / w + 1 ≤ start / w from before)
    rw [Nat.add_mul] at apart
    exact Or.inl ⟨by omega, before⟩
  by_cases first : k / w = start / w
  · rw [first] at own
    exact Or.inr (Or.inl ⟨first, own.symm⟩)
  by_cases second : k / w = start / w + 1
  · rw [second, Nat.add_mul, Nat.one_mul] at own
    exact Or.inr (Or.inr (Or.inl ⟨second, own.symm⟩))
  · have apart := Nat.mul_le_mul_right w (show start / w + 2 ≤ k / w by omega)
    rw [Nat.add_mul] at apart
    exact Or.inr (Or.inr (Or.inr ⟨by omega, by omega⟩))

/-- `editRange` changes the bits of the range and no others. -/
theorem bit_editRange (bitwise : ∀ word mask j, j < w →
      (edit word mask).getLsbD j = change (word.getLsbD j) (mask.getLsbD j))
    (keeps : ∀ b, change b false = b) (positive : 0 < w) (fits : count ≤ w) (k : Nat) :
    bit (editRange edit words start count) k =
      if start ≤ k ∧ k < start + count then change (bit words k) true else bit words k := by
  have place := Nat.div_add_mod' start w
  have low := Nat.mod_lt start positive
  have ownLow := Nat.mod_lt k positive
  have mask : ∀ (test : Prop) [Decidable test],
      change (bit words k) (decide test) = if test then change (bit words k) true
        else bit words k := by
    intro test _
    by_cases holds : test
    · rw [if_pos holds, decide_eq_true holds]
    · rw [if_neg holds, decide_eq_false holds, keeps]
  unfold editRange
  by_cases split : w - start % w < count
  · simp only [if_pos split]
    rw [bit_update bitwise positive, bit_update bitwise positive, getLsbD_ones (by omega),
      getLsbD_shiftLeft, getLsbD_allOnes]
    rcases word_cases positive start k with before | here | next | after
    · rw [if_neg (by omega), if_neg (by omega), if_neg (by omega)]
    · rw [if_neg (by omega), if_pos here.1]
      simp only [ownLow, decide_true, Bool.true_and]
      rw [show (decide (k % w - start % w < w)) = true from decide_eq_true (by omega),
        Bool.and_true, ← decide_not, mask]
      exact if_congr (by omega) rfl rfl
    · rw [if_pos next.1, if_neg (by omega), mask]
      exact if_congr (by omega) rfl rfl
    · rw [if_neg (by omega), if_neg (by omega), if_neg (by omega)]
  · simp only [if_neg split]
    rw [bit_update bitwise positive, getLsbD_shiftLeft, getLsbD_ones fits]
    rcases word_cases positive start k with before | here | next | after
    · rw [if_neg (by omega), if_neg (by omega)]
    · rw [if_pos here.1]
      simp only [ownLow, decide_true, Bool.true_and]
      rw [← decide_not, ← Bool.decide_and, mask]
      exact if_congr (by omega) rfl rfl
    · rw [if_neg (by omega), if_neg (by omega)]
    · rw [if_neg (by omega), if_neg (by omega)]

end Ranges

section Runs

variable {row : Nat → Bool} {start limit : Nat}

theorem setRun_le : setRun row start limit ≤ limit := by
  induction limit generalizing start with
  | zero => exact Nat.le_refl 0
  | succ limit ih =>
    unfold setRun
    split
    · exact Nat.succ_le_succ ih
    · exact Nat.zero_le _

theorem le_setRun_iff {length : Nat} (inside : length ≤ limit) :
    length ≤ setRun row start limit ↔ ∀ j < length, row (start + j) = true := by
  induction limit generalizing start length with
  | zero =>
    rw [Nat.le_zero.mp inside]
    exact ⟨fun _ j below => absurd below (Nat.not_lt_zero j), fun _ => Nat.zero_le _⟩
  | succ limit ih =>
    cases length with
    | zero => exact ⟨fun _ j below => absurd below (Nat.not_lt_zero j), fun _ => Nat.zero_le _⟩
    | succ length =>
      have later : (∀ j < length + 1, row (start + j) = true) ↔
          row start = true ∧ ∀ j < length, row (start + 1 + j) = true := by
        rw [Nat.forall_lt_succ_left]
        apply and_congr_right
        intro set
        apply forall_congr'
        intro j
        rw [Nat.add_comm j 1, Nat.add_assoc]
      rw [later, setRun]
      cases set : row start with
      | false => simp
      | true =>
        simp only [true_and, ↓reduceIte, Nat.add_le_add_iff_right]
        exact ih (Nat.le_of_succ_le_succ inside)

theorem setRun_full : setRun row start limit = limit ↔ ∀ j < limit, row (start + j) = true := by
  rw [← le_setRun_iff (Nat.le_refl limit)]
  exact ⟨fun full => Nat.le_of_eq full.symm, Nat.le_antisymm setRun_le⟩

theorem setRun_stop (ends : setRun row start limit < limit) :
    row (start + setRun row start limit) = false := by
  apply Bool.eq_false_iff.mpr
  intro set
  have longer : setRun row start limit + 1 ≤ setRun row start limit := by
    apply (le_setRun_iff ends).mpr
    intro j before
    by_cases last : j = setRun row start limit
    · rw [last]
      exact set
    · exact (le_setRun_iff (Nat.le_of_lt ends)).mp (Nat.le_refl _) j (by omega)
  omega

end Runs

end Chewie.Bitmap
