import Mathlib.Data.List.Perm.Basic

/-!
# Lists in the order of priority, first come first served

`insert` puts a value behind all values of the same or a higher rank. A list that is filled this way
is ordered by falling rank, and values of one rank stand in the order in which they came. `since`
says when a value came.
-/

namespace Chewie.Stable

open List

variable {α : Type} {key since : α → Nat}

/-- Put a value behind the values of the same or a higher rank. -/
def insert (key : α → Nat) (rank : Nat) (value : α) : List α → List α
  | [] => [value]
  | next :: rest =>
    if rank ≤ key next then next :: insert key rank value rest else value :: next :: rest

/-- A value comes before another: its rank is higher, or it is the same and it came earlier. -/
def Before (key since : α → Nat) (first second : α) : Prop :=
  key second < key first ∨ (key second = key first ∧ since first < since second)

theorem insert_perm (key : α → Nat) (rank : Nat) (value : α) (list : List α) :
    (insert key rank value list).Perm (value :: list) := by
  induction list with
  | nil => exact Perm.refl _
  | cons next rest ih =>
    rw [insert]
    split
    · exact (ih.cons next).trans (Perm.swap value next rest)
    · exact Perm.refl _

theorem insert_pairwise {related : α → α → Prop} {value : α} {list : List α}
    (falling : ∀ first second, related first second → key second ≤ key first)
    (higher : ∀ second, key second < key value → related value second)
    (later : ∀ first ∈ list, key value ≤ key first → related first value)
    (ordered : list.Pairwise related) : (insert key (key value) value list).Pairwise related := by
  induction list with
  | nil => exact pairwise_singleton _ _
  | cons next rest ih =>
    have parts := pairwise_cons.mp ordered
    rw [insert]
    split
    · rename_i behind
      refine pairwise_cons.mpr ⟨fun other mem => ?_, ?_⟩
      · rcases mem_cons.mp ((insert_perm key _ value rest).mem_iff.mp mem) with rfl | old
        · exact later next mem_cons_self behind
        · exact parts.1 other old
      · exact ih (fun first mem => later first (mem_cons_of_mem next mem)) parts.2
    · rename_i above
      refine pairwise_cons.mpr ⟨fun other mem => higher other ?_, ordered⟩
      rcases mem_cons.mp mem with rfl | old
      · omega
      · have lower := falling next other (parts.1 other old)
        omega

theorem insert_ordered {value : α} {list : List α} (ordered : list.Pairwise (Before key since))
    (latest : ∀ other ∈ list, since other < since value) :
    (insert key (key value) value list).Pairwise (Before key since) := by
  refine insert_pairwise (fun first second before => ?_) (fun second lower => Or.inl lower)
    (fun first mem behind => ?_) ordered
  · simp only [Before] at before
    omega
  · have earlier := latest first mem
    simp only [Before]
    omega

end Chewie.Stable
