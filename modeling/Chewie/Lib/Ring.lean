import Mathlib.Data.List.Basic

/-!
# Circular buffers with one free slot

A circular buffer is a function of slots with the index of the next value to take and the index of
the next slot to fill. It is empty when the two are equal, and full when the second stands right
before the first, so that one slot always stays free. `contents` lists the values from the one
index to the other. Taking a value removes its first element, and filling a slot adds an element
at its end.
-/

namespace Chewie.Ring

open List

/-- The index after an index. -/
def next (size index : Nat) : Nat := if size ≤ index + 1 then 0 else index + 1

/-- The number of values from the index to take to the index to fill. -/
def used (size take fill : Nat) : Nat :=
  if fill < take then size - take + fill else fill - take

/-- The number of slots that can be filled before the buffer is full. -/
def free (size take fill : Nat) : Nat :=
  if fill < take then take - fill - 1 else size - fill + take - 1

/-- The index at a distance of less than one round from an index. -/
def position (size index offset : Nat) : Nat :=
  if index + offset < size then index + offset else index + offset - size

variable {α : Type} {size take fill : Nat}

/-- The values from the index to take to the index to fill. -/
def contents (size : Nat) (slots : Nat → α) (take fill : Nat) : List α :=
  (List.range (used size take fill)).map fun offset => slots (position size take offset)

theorem next_lt {index : Nat} (inside : index < size) : next size index < size := by
  simp only [next]
  split <;> omega

section

variable (takeInside : take < size) (fillInside : fill < size)

include takeInside fillInside

theorem used_add_free : used size take fill + free size take fill = size - 1 := by
  simp only [used, free]
  split <;> omega

theorem used_take (nonempty : fill ≠ take) :
    used size take fill = used size (next size take) fill + 1 := by
  simp only [used, next]
  split <;> split <;> split <;> omega

theorem used_fill (room : next size fill ≠ take) :
    used size take (next size fill) = used size take fill + 1 := by
  by_cases last : size ≤ fill + 1
  · have wraps : next size fill = 0 := if_pos last
    simp only [used]
    split <;> split <;> omega
  · have moves : next size fill = fill + 1 := if_neg last
    rw [moves] at room ⊢
    simp only [used]
    split <;> split <;> omega

theorem position_used : position size take (used size take fill) = fill := by
  simp only [position, used]
  split <;> split <;> omega

end

theorem position_ne (takeInside : take < size) {offset : Nat}
    (before : offset < used size take fill) : position size take offset ≠ fill := by
  simp only [position, used] at before ⊢
  split at before <;> split <;> omega

theorem position_next (takeInside : take < size) (offset : Nat) (short : offset + 1 < size) :
    position size (next size take) offset = position size take (offset + 1) := by
  simp only [position, next]
  split <;> split <;> split <;> omega

theorem contents_empty (slots : Nat → α) (empty : fill = take) :
    contents size slots take fill = [] := by
  simp [contents, used, empty]

theorem length_contents (slots : Nat → α) :
    (contents size slots take fill).length = used size take fill := by
  simp [contents]

theorem contents_take (slots : Nat → α) (takeInside : take < size) (fillInside : fill < size)
    (nonempty : fill ≠ take) :
    contents size slots take fill = slots take :: contents size slots (next size take) fill := by
  have fewer := used_take takeInside fillInside nonempty
  have bound : used size take fill < size := by
    have all := used_add_free takeInside fillInside
    omega
  have first : position size take 0 = take := by simp [position, takeInside]
  rw [contents, fewer, range_succ_eq_map, map_cons, map_map, first]
  refine congrArg (slots take :: ·) (map_congr_left fun offset mem => ?_)
  rw [mem_range] at mem
  rw [position_next takeInside offset (by omega)]
  rfl

theorem contents_fill (slots : Nat → α) (value : α) (takeInside : take < size)
    (fillInside : fill < size) (room : next size fill ≠ take) :
    contents size (Function.update slots fill value) take (next size fill) =
      contents size slots take fill ++ [value] := by
  rw [contents, used_fill takeInside fillInside room, range_succ, map_append,
    map_singleton, position_used takeInside fillInside, Function.update_self]
  refine congrArg (· ++ [value]) (map_congr_left fun offset mem => ?_)
  rw [mem_range] at mem
  rw [Function.update_of_ne (position_ne takeInside mem)]

end Chewie.Ring
