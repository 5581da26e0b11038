import Mathlib.Data.List.Basic
import Mathlib.Algebra.GroupWithZero.Nat

/-!
# Exclusive sums

`xorSum` is the exclusive or of the values of a list of indices. Parity codes are such sums: they
are linear, and an error in one place changes them by the value of that place alone.
-/

namespace Chewie.Parity

open BitVec List

variable {ι : Type} {width : Nat}

/-- The exclusive or of the values of the indices. -/
def xorSum (value : ι → BitVec width) : List ι → BitVec width
  | [] => 0
  | index :: rest => value index ^^^ xorSum value rest

theorem xorSum_xor (first second : ι → BitVec width) (indices : List ι) :
    xorSum (fun index => first index ^^^ second index) indices =
      xorSum first indices ^^^ xorSum second indices := by
  induction indices with
  | nil => exact (xor_zero).symm
  | cons index rest ih =>
    rw [xorSum, xorSum, xorSum, ih]
    ac_rfl

theorem xorSum_eq_zero {value : ι → BitVec width} {indices : List ι}
    (zero : ∀ index ∈ indices, value index = 0) : xorSum value indices = 0 := by
  induction indices with
  | nil => rfl
  | cons index rest ih =>
    rw [xorSum, zero index mem_cons_self, ih fun other mem => zero other (mem_cons_of_mem _ mem)]
    exact xor_zero

theorem xorSum_single {value : ι → BitVec width} {indices : List ι} {place : ι}
    (nodup : indices.Nodup) (mem : place ∈ indices)
    (zero : ∀ index ∈ indices, index ≠ place → value index = 0) :
    xorSum value indices = value place := by
  induction indices with
  | nil => exact absurd mem not_mem_nil
  | cons index rest ih =>
    have fresh := nodup_cons.mp nodup
    rw [xorSum]
    obtain here | later := mem_cons.mp mem
    · have others : xorSum value rest = 0 := by
        refine xorSum_eq_zero fun other found => zero other (mem_cons_of_mem _ found) ?_
        rintro rfl
        exact fresh.1 (here ▸ found)
      rw [others, here]
      exact xor_zero
    · have other : index ≠ place := by
        rintro rfl
        exact fresh.1 later
      rw [zero index mem_cons_self other,
        ih fresh.2 later fun next found => zero next (mem_cons_of_mem _ found)]
      exact zero_xor

theorem ite_xor (left right : Bool) (value : BitVec width) :
    (if (left ^^ right) = true then value else 0) =
      (if left = true then value else 0) ^^^ (if right = true then value else 0) := by
  cases left <;> cases right <;> simp

section Weights

/-- The number of bits that are set. -/
def weight (word : BitVec width) : Nat :=
  ((List.range width).map fun index => (word.getLsbD index).toNat).sum

theorem toNat_xor (left right : Bool) :
    (left ^^ right).toNat + 2 * (left && right).toNat = left.toNat + right.toNat := by
  cases left <;> cases right <;> rfl

theorem weight_xor (left right : BitVec width) :
    weight (left ^^^ right) + 2 * weight (left &&& right) = weight left + weight right := by
  simp only [weight, getLsbD_xor, getLsbD_and]
  induction range width with
  | nil => rfl
  | cons index rest ih =>
    have here := toNat_xor (left.getLsbD index) (right.getLsbD index)
    simp only [map_cons, sum_cons]
    omega

theorem weight_and_le (left right : BitVec width) : weight (left &&& right) ≤ weight right := by
  simp only [weight, getLsbD_and]
  induction range width with
  | nil => exact Nat.le_refl _
  | cons index rest ih =>
    have here : (left.getLsbD index && right.getLsbD index).toNat ≤
        (right.getLsbD index).toNat := by
      cases left.getLsbD index <;> simp
    simp only [map_cons, sum_cons]
    omega

theorem eq_zero_of_weight {word : BitVec width} (empty : weight word = 0) : word = 0 := by
  refine eq_of_getLsbD_eq fun index below => ?_
  have zero := List.sum_eq_zero_iff_forall_eq_nat.mp empty _ (mem_map_of_mem (mem_range.mpr below))
  exact (Bool.toNat_eq_zero.mp zero).trans getLsbD_zero.symm

end Weights

end Chewie.Parity
