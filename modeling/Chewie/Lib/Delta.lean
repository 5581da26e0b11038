import Mathlib.Algebra.Ring.Int.Defs
import Mathlib.Algebra.BigOperators.Group.List.Basic

/-!
# Lists of differences

A queue of times can store each time as the difference to the one before it. `absolute` reads the
times back, starting from the present. Taking an entry out and putting one in change a single
further entry (`carry`), and `absolute_remove` and `absolute_insert` show that no other time moves.
-/

namespace Chewie.Delta

open List

variable {α : Type}

/-- The times of the entries, from the present on. -/
def absolute (now : Int) : List (α × Int) → List (α × Int)
  | [] => []
  | (item, lag) :: rest => (item, now + lag) :: absolute (now + lag) rest

/-- The time that all entries take together. -/
def span (list : List (α × Int)) : Int := (list.map Prod.snd).sum

/-- Give an amount to the next entry. -/
def carry (amount : Int) : List (α × Int) → List (α × Int)
  | [] => []
  | (item, lag) :: rest => (item, lag + amount) :: rest

@[simp] theorem span_nil : span ([] : List (α × Int)) = 0 := rfl

@[simp] theorem span_cons (entry : α × Int) (rest : List (α × Int)) :
    span (entry :: rest) = entry.2 + span rest := rfl

@[simp] theorem span_append (front back : List (α × Int)) :
    span (front ++ back) = span front + span back := by
  unfold span
  rw [map_append, sum_append]

theorem absolute_append (now : Int) (front back : List (α × Int)) :
    absolute now (front ++ back) = absolute now front ++ absolute (now + span front) back := by
  induction front generalizing now with
  | nil => simp [absolute]
  | cons entry rest ih =>
    cases entry with
    | mk item lag =>
      simp only [cons_append, absolute, span_cons]
      rw [ih, Int.add_assoc]

theorem absolute_carry (now amount : Int) (list : List (α × Int)) :
    absolute now (carry amount list) = absolute (now + amount) list := by
  cases list with
  | nil => rfl
  | cons entry rest =>
    cases entry with
    | mk item lag =>
      have same : now + (lag + amount) = now + amount + lag := by omega
      simp only [carry, absolute, same]

theorem absolute_shift (now shift : Int) (list : List (α × Int)) :
    absolute (now + shift) list =
      (absolute now list).map fun entry => (entry.1, entry.2 + shift) := by
  induction list generalizing now with
  | nil => rfl
  | cons entry rest ih =>
    have same : now + shift + entry.2 = now + entry.2 + shift := by omega
    simp only [absolute, map_cons, same]
    rw [ih]

theorem absolute_items (now : Int) (list : List (α × Int)) :
    (absolute now list).map Prod.fst = list.map Prod.fst := by
  induction list generalizing now with
  | nil => rfl
  | cons entry rest ih =>
    simp only [absolute, map_cons]
    rw [ih]

@[simp] theorem absolute_length (now : Int) (list : List (α × Int)) :
    (absolute now list).length = list.length := by
  have items := congrArg length (absolute_items now list)
  rw [length_map, length_map] at items
  exact items

@[simp] theorem carry_items (amount : Int) (list : List (α × Int)) :
    (carry amount list).map Prod.fst = list.map Prod.fst := by
  cases list <;> rfl

theorem absolute_middle (now : Int) (front back : List (α × Int)) (item : α) (lag : Int) :
    absolute now (front ++ (item, lag) :: back) = absolute now front ++
      (item, now + span front + lag) :: absolute (now + span front + lag) back := by
  rw [absolute_append]
  rfl

theorem absolute_remove (now : Int) (front back : List (α × Int)) (lag : Int) :
    absolute now (front ++ carry lag back) =
      absolute now front ++ absolute (now + span front + lag) back := by
  rw [absolute_append, absolute_carry]

theorem absolute_insert (now delay : Int) (front back : List (α × Int)) (item : α) :
    absolute now (front ++ (item, delay - span front) :: carry (span front - delay) back) =
      absolute now front ++ (item, now + delay) :: absolute (now + span front) back := by
  have here : now + span front + (delay - span front) = now + delay := by omega
  have returned : now + delay + (span front - delay) = now + span front := by omega
  rw [absolute_middle, here, absolute_carry, returned]

end Chewie.Delta
