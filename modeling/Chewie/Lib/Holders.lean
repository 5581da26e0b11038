import Mathlib.Data.List.Perm.Basic

/-!
# What finitely many holders hold

Each of finitely many holders, given by numbers below a bound, holds one value or nothing. `held`
lists the values. A holder that takes a value adds it to the list, and one that gives its value away
removes it.
-/

namespace Chewie.Holders

open List Function

variable {α : Type} {bound holder : Nat} {hold : Nat → Option α}

/-- The values that are held. -/
def held (bound : Nat) (hold : Nat → Option α) : List α := (List.range bound).filterMap hold

theorem held_split (inside : holder < bound) (hold : Nat → Option α) :
    (held bound hold).Perm
      ((hold holder).toList ++ ((range bound).erase holder).filterMap hold) := by
  have mem : holder ∈ range bound := mem_range.mpr inside
  refine ((perm_cons_erase mem).filterMap hold).trans ?_
  cases found : hold holder with
  | none => rw [filterMap_cons_none found]; exact Perm.refl _
  | some value => rw [filterMap_cons_some found]; exact Perm.refl _

theorem held_update (inside : holder < bound) (hold : Nat → Option α) (change : Option α) :
    (held bound (update hold holder change)).Perm
      (change.toList ++ ((range bound).erase holder).filterMap hold) := by
  have split := held_split inside (update hold holder change)
  have others : ((range bound).erase holder).filterMap (update hold holder change) =
      ((range bound).erase holder).filterMap hold := by
    refine filterMap_congr fun other mem => update_of_ne ?_ _ _
    exact (nodup_range.mem_erase_iff.mp mem).1
  rwa [update_self, others] at split

theorem held_take (inside : holder < bound) (empty : hold holder = none) (value : α) :
    (held bound (update hold holder (some value))).Perm (value :: held bound hold) := by
  have before := held_split inside hold
  rw [empty] at before
  exact (held_update inside hold (some value)).trans (before.symm.cons value)

theorem held_give (inside : holder < bound) {value : α} (holds : hold holder = some value) :
    (held bound hold).Perm (value :: held bound (update hold holder none)) := by
  have before := held_split inside hold
  rw [holds] at before
  exact before.trans ((held_update inside hold none).symm.cons value)

end Chewie.Holders
