import Mathlib.Data.List.Basic

/-!
# Overwriting a stretch of a list

`overwrite` replaces the elements of a list from an offset on, and extends the list when the new
elements run past its end. The lemmas say how it acts on a list that is split in two and on a
window of a list.
-/

namespace Chewie.Overwrite

open List

variable {α : Type}

/-- The old elements, with the new ones from `offset` on. -/
def overwrite (old : List α) (offset : Nat) (new : List α) : List α :=
  old.take offset ++ new ++ old.drop (offset + new.length)

variable {old left right new first second : List α} {offset : Nat}

theorem overwrite_length (inside : offset ≤ old.length) :
    (overwrite old offset new).length = max old.length (offset + new.length) := by
  unfold overwrite
  simp only [length_append, length_take, length_drop]
  omega

theorem overwrite_nil : overwrite old offset [] = old := by
  unfold overwrite
  rw [append_nil, length_nil, Nat.add_zero, take_append_drop]

theorem overwrite_empty : overwrite [] 0 new = new := by
  unfold overwrite
  rw [take_nil, drop_nil, nil_append, append_nil]

theorem overwrite_append_left (fits : offset + new.length ≤ left.length) :
    overwrite (left ++ right) offset new = overwrite left offset new ++ right := by
  unfold overwrite
  rw [take_append_of_le_length (by omega), drop_append_of_le_length fits,
    append_assoc, append_assoc, append_assoc]

theorem overwrite_append_right (behind : left.length ≤ offset) :
    overwrite (left ++ right) offset new = left ++ overwrite right (offset - left.length) new := by
  unfold overwrite
  rw [take_append, take_of_length_le behind, drop_append, drop_of_length_le (by omega), nil_append,
    append_assoc, append_assoc, append_assoc, Nat.sub_add_comm behind]

theorem overwrite_append_cross (meets : offset + first.length = left.length) :
    overwrite (left ++ right) offset (first ++ second) =
      overwrite left offset first ++ overwrite right 0 second := by
  unfold overwrite
  rw [take_append_of_le_length (by omega), drop_append,
    drop_of_length_le (by rw [length_append]; omega),
    drop_of_length_le (Nat.le_of_eq meets.symm), length_append,
    show offset + (first.length + second.length) - left.length = 0 + second.length by omega]
  simp

theorem overwrite_extend (reaches : left.length ≤ offset + first.length) :
    overwrite left offset (first ++ second) = overwrite left offset first ++ second := by
  unfold overwrite
  rw [drop_of_length_le (by rw [length_append]; omega), drop_of_length_le reaches]
  simp

theorem overwrite_drop (start : Nat) (inside : start + offset ≤ old.length) :
    (overwrite old (start + offset) new).drop start = overwrite (old.drop start) offset new := by
  unfold overwrite
  rw [append_assoc, drop_append_of_le_length
    (by rw [length_take]; omega), drop_take, Nat.add_sub_cancel_left, drop_drop,
    append_assoc, Nat.add_assoc]

theorem overwrite_take {length : Nat} (inside : offset ≤ length) (bounded : length ≤ old.length)
    (room : offset + new.length ≤ old.length) :
    (overwrite old offset new).take (max length (offset + new.length)) =
      overwrite (old.take length) offset new := by
  unfold overwrite
  rw [take_take, Nat.min_eq_left inside, take_append, length_append,
    length_take, Nat.min_eq_left (by omega), take_of_length_le
      (by rw [length_append, length_take]; omega), drop_take]
  congr 2
  omega

end Chewie.Overwrite
