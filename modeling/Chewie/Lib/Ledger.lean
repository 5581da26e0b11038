import Mathlib.Data.Multiset.AddSub
import Mathlib.Data.List.GetD

/-!
# Ledgers of raised levels

A ledger has a floor, a level that is raised above it, and a list of further levels to fall back to.
Raising the level records a demand, and releasing a demand removes one entry: the level itself when
nothing above the demand is left, or an entry of the list that matches. `recorded` is what is
recorded in all. A ledger that records only demands that exist keeps doing so when a demand ends,
and so does a ledger that records every demand that exists, unless its only record is dropped for a
demand below the floor.
-/

namespace Chewie

open Multiset

/-- A level with what it can fall back to. -/
@[ext] structure Ledger where
  floor : Nat
  level : Nat
  pending : List Nat

namespace Ledger

/-- Append an entry if there is room. -/
def push (room entry : Nat) (pending : List Nat) : List Nat :=
  if pending.length < room then pending ++ [entry] else pending

/-- The index of the first largest entry. -/
def highest (pending : List Nat) : Nat :=
  (List.range' 1 (pending.length - 1)).foldl
    (fun best index => if pending.getD best 0 < pending.getD index 0 then index else best) 0

/-- Remove an entry by putting the last one in its place. -/
def dropAt (pending : List Nat) (index : Nat) : List Nat :=
  let last := pending.length - 1
  (if 0 < last then pending.set index (pending.getD last 0) else pending).take last

/-- Record a demand. -/
def raise (room demand : Nat) (ledger : Ledger) : Ledger :=
  if ledger.floor < demand then
    if ledger.level < demand then
      { ledger with
        pending := if ledger.floor < ledger.level then push room ledger.level ledger.pending
          else ledger.pending
        level := demand }
    else { ledger with pending := push room demand ledger.pending }
  else ledger

/-- Remove a demand. -/
def release (demand : Nat) (ledger : Ledger) : Ledger :=
  if ledger.level = ledger.floor then ledger
  else if ledger.pending.length < 1 then { ledger with level := ledger.floor, pending := [] }
  else if ledger.level ≤ demand then
    let index := highest ledger.pending
    { ledger with
      level := ledger.pending.getD index 0
      pending := dropAt ledger.pending index }
  else match ledger.pending.idxOf? demand with
    | some index => { ledger with pending := dropAt ledger.pending index }
    | none => ledger

/-- The recorded demands. -/
def recorded (ledger : Ledger) : Multiset Nat :=
  if ledger.floor < ledger.level then ledger.level ::ₘ ledger.pending else ledger.pending

/-- The level is the largest record, and all records are above the floor. -/
structure Ordered (ledger : Ledger) : Prop where
  floor_le : ledger.floor ≤ ledger.level
  between : ∀ entry ∈ ledger.pending, ledger.floor < entry ∧ entry ≤ ledger.level

variable {ledger : Ledger} {room demand : Nat} {pending : List Nat}

theorem foldl_highest (pending order : List Nat) (start : Nat) :
    let best := order.foldl
      (fun best index => if pending.getD best 0 < pending.getD index 0 then index else best) start
    (best = start ∨ best ∈ order) ∧ pending.getD start 0 ≤ pending.getD best 0 ∧
      ∀ index ∈ order, pending.getD index 0 ≤ pending.getD best 0 := by
  induction order generalizing start with
  | nil => exact ⟨Or.inl rfl, Nat.le_refl _, fun index vacant => absurd vacant List.not_mem_nil⟩
  | cons index rest ih =>
    rw [List.foldl_cons]
    generalize chosen : (if pending.getD start 0 < pending.getD index 0 then index else start) =
      next
    obtain ⟨origin, above⟩ : (next = start ∨ next = index) ∧
        pending.getD start 0 ≤ pending.getD next 0 ∧
          pending.getD index 0 ≤ pending.getD next 0 := by
      split_ifs at chosen with larger <;> subst chosen
      · exact ⟨Or.inr rfl, Nat.le_of_lt larger, Nat.le_refl _⟩
      · exact ⟨Or.inl rfl, Nat.le_refl _, Nat.not_lt.1 larger⟩
    have found := ih next
    refine ⟨?_, Nat.le_trans above.1 found.2.1, List.forall_mem_cons.2
      ⟨Nat.le_trans above.2 found.2.1, found.2.2⟩⟩
    grind

theorem highest_spec (nonempty : 0 < pending.length) : highest pending < pending.length ∧
    ∀ entry ∈ pending, entry ≤ pending.getD (highest pending) 0 := by
  have found := foldl_highest pending (List.range' 1 (pending.length - 1)) 0
  constructor
  · rcases found.1 with same | listed
    · unfold highest
      omega
    · have bounds := List.mem_range'_1.1 listed
      unfold highest
      omega
  · intro entry present
    obtain ⟨index, inside, rfl⟩ := List.mem_iff_getElem.1 present
    rw [← List.getD_eq_getElem pending 0 inside]
    by_cases first : index = 0
    · rw [first]
      exact found.2.1
    · exact found.2.2 index (List.mem_range'_1.2 ⟨by omega, by omega⟩)

theorem getD_highest_mem (nonempty : 0 < pending.length) :
    pending.getD (highest pending) 0 ∈ pending := by
  have inside := (highest_spec nonempty).1
  rw [List.getD_eq_getElem _ _ inside]
  exact List.getElem_mem inside

/-- Removing an entry leaves the others. -/
theorem dropAt_cons {index : Nat} (inside : index < pending.length) :
    pending.getD index 0 ::ₘ (dropAt pending index : Multiset Nat) = pending := by
  obtain ⟨initial, last, rfl⟩ : ∃ initial last, pending = initial ++ [last] :=
    (List.eq_nil_or_concat' pending).resolve_left (List.ne_nil_of_length_pos (by omega))
  have length : (initial ++ [last]).length - 1 = initial.length := by simp
  have final : (initial ++ [last]).getD initial.length 0 = last := by simp
  unfold dropAt
  dsimp only
  rw [length, final]
  by_cases front : index < initial.length
  · have divided : (initial ++ [last]).set index last = initial.set index last ++ [last] :=
      List.set_append_left index last front
    rw [if_pos (by omega), divided, List.take_left' List.length_set, List.getD_append _ _ _ _ front,
      List.getD_eq_getElem initial 0 front, cons_coe, coe_eq_coe]
    have moved := (List.set_perm_cons_eraseIdx front last)
    have whole := List.getElem_cons_eraseIdx_perm front
    calc (initial[index] :: initial.set index last).Perm
          (initial[index] :: last :: initial.eraseIdx index) := moved.cons _
      List.Perm _ (last :: initial[index] :: initial.eraseIdx index) := List.Perm.swap _ _ _
      List.Perm _ (last :: initial) := whole.cons _
      List.Perm _ (initial ++ [last]) := (List.perm_append_singleton last initial).symm
  · have same : index = initial.length := by
      omega
    have kept : (if 0 < initial.length then (initial ++ [last]).set index last
        else initial ++ [last]) = initial ++ [last] := by
      split
      · rw [same, List.set_append_right _ _ (Nat.le_refl _), Nat.sub_self]
        rfl
      · rfl
    rw [kept, List.take_left, same, final, cons_coe, coe_eq_coe]
    exact (List.perm_append_singleton last initial).symm

theorem push_coe {entry : Nat} (fits : pending.length < room) :
    (push room entry pending : Multiset Nat) = entry ::ₘ pending := by
  unfold push
  rw [if_pos fits, cons_coe, coe_eq_coe]
  exact List.perm_append_singleton entry pending

theorem mem_push {entry other : Nat} (present : other ∈ push room entry pending) :
    other = entry ∨ other ∈ pending := by
  unfold push at present
  split at present
  · rcases List.mem_append.1 present with old | new
    · exact Or.inr old
    · exact Or.inl (List.mem_singleton.1 new)
  · exact Or.inr present

theorem mem_of_mem_dropAt {index entry : Nat} (inside : index < pending.length)
    (present : entry ∈ dropAt pending index) : entry ∈ pending := by
  have whole := dropAt_cons inside
  have added : entry ∈ (pending : Multiset Nat) := by
    rw [← whole]
    exact mem_cons_of_mem (mem_coe.2 present)
  exact mem_coe.1 added

theorem raise_floor : (raise room demand ledger).floor = ledger.floor := by
  unfold raise
  split
  · split <;> rfl
  · rfl

theorem release_floor : (release demand ledger).floor = ledger.floor := by
  unfold release
  split
  · rfl
  · split
    · rfl
    · split
      · rfl
      · split <;> rfl

theorem raise_low (low : demand ≤ ledger.floor) : raise room demand ledger = ledger := by
  unfold raise
  rw [if_neg (Nat.not_lt.2 low)]

section

variable (ordered : Ordered ledger)

include ordered

theorem Ordered.raise : Ordered (ledger.raise room demand) := by
  unfold Ledger.raise
  split
  · rename_i above
    split
    · rename_i higher
      refine ⟨Nat.le_of_lt above, fun entry present => ?_⟩
      change ledger.floor < entry ∧ entry ≤ demand
      split at present
      · rename_i raised
        rcases mem_push present with rfl | old
        · exact ⟨raised, Nat.le_of_lt higher⟩
        · have bounds := ordered.between entry old
          omega
      · have bounds := ordered.between entry present
        omega
    · rename_i covered
      refine ⟨ordered.floor_le, fun entry present => ?_⟩
      rcases mem_push present with rfl | old
      · exact ⟨above, Nat.not_lt.1 covered⟩
      · exact ordered.between entry old
  · exact ordered

theorem Ordered.release : Ordered (ledger.release demand) := by
  unfold Ledger.release
  split
  · exact ordered
  · split
    · exact ⟨Nat.le_refl _, fun entry vacant => absurd vacant List.not_mem_nil⟩
    · rename_i several
      have found := highest_spec (Nat.not_lt.1 several)
      split
      · have largest := getD_highest_mem (Nat.not_lt.1 several)
        refine ⟨Nat.le_of_lt (ordered.between _ largest).1, fun entry present => ?_⟩
        have old := mem_of_mem_dropAt found.1 present
        exact ⟨(ordered.between entry old).1, found.2 entry old⟩
      · split
        · rename_i index located
          have inside := (List.idxOf?_eq_some_iff.1 located).1
          exact ⟨ordered.floor_le, fun entry present =>
            ordered.between entry (mem_of_mem_dropAt inside present)⟩
        · exact ordered

theorem Ordered.release_level : (ledger.release demand).level ≤ ledger.level := by
  unfold Ledger.release
  split
  · exact Nat.le_refl _
  · split
    · exact ordered.floor_le
    · rename_i several
      split
      · exact (ordered.between _ (getD_highest_mem (Nat.not_lt.1 several))).2
      · split <;> exact Nat.le_refl _

theorem Ordered.mem_recorded {entry : Nat} (present : entry ∈ ledger.recorded) :
    ledger.floor < entry ∧ entry ≤ ledger.level := by
  unfold recorded at present
  split at present
  · rename_i raised
    rcases mem_cons.1 present with rfl | old
    · exact ⟨raised, Nat.le_refl _⟩
    · exact ordered.between entry (mem_coe.1 old)
  · exact ordered.between entry (mem_coe.1 present)

theorem Ordered.recorded_eq_zero (down : ledger.level = ledger.floor) : ledger.recorded = 0 := by
  refine eq_zero_of_forall_notMem fun entry present => ?_
  have bounds := ordered.mem_recorded present
  omega

theorem Ordered.eq_floor (empty : ledger.recorded = 0) :
    ledger.level = ledger.floor ∧ ledger.pending = [] := by
  unfold recorded at empty
  split at empty
  · exact absurd empty cons_ne_zero
  · rename_i down
    have low := ordered.floor_le
    exact ⟨by omega, (coe_eq_zero _).1 empty⟩

end

theorem raise_recorded (above : ledger.floor < demand)
    (fits : ledger.floor < ledger.level → ledger.pending.length < room) :
    (raise room demand ledger).recorded = demand ::ₘ ledger.recorded := by
  unfold raise recorded
  rw [if_pos above]
  by_cases higher : ledger.level < demand
  · rw [if_pos higher]
    rw [if_pos above]
    by_cases raised : ledger.floor < ledger.level
    · rw [if_pos raised, if_pos raised, push_coe (fits raised)]
    · rw [if_neg raised, if_neg raised]
  · have raised : ledger.floor < ledger.level := by omega
    rw [if_neg higher]
    rw [if_pos raised, if_pos raised, push_coe (fits raised)]
    exact cons_swap _ _ _

section

variable (ordered : Ordered ledger)

include ordered

theorem release_last (last : ledger.pending = []) : (release demand ledger).recorded = 0 := by
  unfold release
  split
  · rename_i down
    exact ordered.recorded_eq_zero down
  · have empty : ledger.pending.length < 1 := by
      rw [last]
      exact Nat.zero_lt_one
    rw [if_pos empty]
    exact if_neg (Nat.lt_irrefl _)

theorem release_recorded (several : ledger.pending ≠ []) :
    (release demand ledger).recorded = ledger.recorded.erase (min ledger.level demand) := by
  obtain ⟨entry, present⟩ := List.exists_mem_of_ne_nil _ several
  have bounds := ordered.between entry present
  have raised : ledger.floor < ledger.level := by omega
  have length : 0 < ledger.pending.length := List.length_pos_of_mem present
  unfold release
  rw [if_neg (by omega), if_neg (by omega)]
  by_cases covered : ledger.level ≤ demand
  · have found := highest_spec length
    have largest := found.2 entry present
    rw [if_pos covered, Nat.min_eq_left covered]
    unfold recorded
    dsimp only
    rw [if_pos raised, if_pos (by omega), dropAt_cons found.1, erase_cons_head]
  have ne : ledger.level ≠ demand := by omega
  rw [if_neg covered, Nat.min_eq_right (by omega)]
  split
  · rename_i index located
    have spec := List.idxOf?_eq_some_iff.1 located
    have whole := dropAt_cons spec.1
    rw [List.getD_eq_getElem _ _ spec.1, spec.2.1] at whole
    unfold recorded
    rw [if_pos raised, if_pos raised, erase_cons_tail _ ne, ← whole, erase_cons_head]
  · rename_i missing
    have absent := List.idxOf?_eq_none_iff.1 missing
    unfold recorded
    rw [if_pos raised, erase_cons_tail _ ne, erase_of_notMem (fun old => absent (mem_coe.1 old))]

theorem release_recorded_le {demands : Multiset Nat} (exist : ledger.recorded ≤ demands) :
    (release demand ledger).recorded ≤ demands.erase demand := by
  by_cases last : ledger.pending = []
  · rw [release_last ordered last]
    exact zero_le _
  rw [release_recorded ordered last]
  by_cases covered : ledger.level < demand
  · have absent : demand ∉ ledger.recorded := fun present => by
      have bounds := ordered.mem_recorded present
      omega
    calc ledger.recorded.erase (min ledger.level demand)
        ≤ ledger.recorded := erase_le _ _
      _ = ledger.recorded.erase demand := (erase_of_notMem absent).symm
      _ ≤ demands.erase demand := erase_le_erase _ exist
  · rw [Nat.min_eq_right (by omega)]
    exact erase_le_erase _ exist

theorem le_release_recorded {demands : Multiset Nat} (covers : demands ≤ ledger.recorded)
    (present : demand ∈ demands) : demands.erase demand ≤ (release demand ledger).recorded := by
  have old := mem_of_le covers present
  have bounds := ordered.mem_recorded old
  by_cases last : ledger.pending = []
  · have single : ledger.recorded = {ledger.level} := by
      unfold recorded
      rw [if_pos (by omega), last]
      rfl
    have small := card_le_card covers
    rw [single] at small
    have gone : demands.erase demand = 0 := by
      rw [← card_eq_zero, card_erase_of_mem present]
      exact Nat.sub_eq_zero_of_le small
    rw [gone]
    exact zero_le _
  · rw [release_recorded ordered last, Nat.min_eq_right bounds.2]
    exact erase_le_erase _ covers

theorem release_le_recorded : (release demand ledger).recorded ≤ ledger.recorded :=
  (release_recorded_le ordered (le_refl _)).trans (erase_le _ _)

end

theorem release_down (down : ledger.level = ledger.floor) : release demand ledger = ledger := by
  unfold release
  rw [if_pos down]

theorem release_low (ordered : Ordered ledger) (low : demand ≤ ledger.floor)
    (several : ledger.level = ledger.floor ∨ ledger.pending ≠ []) :
    (release demand ledger).recorded = ledger.recorded := by
  rcases several with down | several
  · rw [release_down down]
  · have floor_le := ordered.floor_le
    rw [release_recorded ordered several]
    refine erase_of_notMem fun present => ?_
    have bounds := ordered.mem_recorded present
    omega

/-- The level meets every demand, and every demand is recorded where there is room for records. -/
structure Covers (room : Nat) (ledger : Ledger) (demands : Multiset Nat) : Prop where
  high : ∀ entry ∈ demands, entry ≤ ledger.level
  all : 0 < room → demands ≤ ledger.recorded

theorem Covers.zero : Covers room ledger 0 :=
  ⟨fun entry vacant => absurd vacant (notMem_zero entry), fun _ => zero_le _⟩

theorem Covers.mono {demands fewer : Multiset Nat} (covers : Covers room ledger demands)
    (le : fewer ≤ demands) : Covers room ledger fewer :=
  ⟨fun entry present => covers.high entry (mem_of_le le present),
    fun nonempty => le.trans (covers.all nonempty)⟩

theorem Ordered.covers (ordered : Ordered ledger) {demands : Multiset Nat}
    (recorded : demands ≤ ledger.recorded) : Covers room ledger demands :=
  ⟨fun _ present => (ordered.mem_recorded (mem_of_le recorded present)).2,
    fun _ => recorded⟩

theorem Ordered.raise_level (ordered : Ordered ledger) :
    (ledger.raise room demand).level = max ledger.level demand := by
  have floor_le := ordered.floor_le
  unfold Ledger.raise
  split
  · split
    · rename_i higher
      exact (Nat.max_eq_right (Nat.le_of_lt higher)).symm
    · rename_i covered
      exact (Nat.max_eq_left (Nat.not_lt.1 covered)).symm
  · exact (Nat.max_eq_left (by omega)).symm

theorem Covers.raise {demands : Multiset Nat} (covers : Covers room ledger demands)
    (ordered : Ordered ledger) (above : ledger.floor < demand)
    (fits : 0 < room → ledger.floor < ledger.level → ledger.pending.length < room) :
    Covers room (ledger.raise room demand) (demand ::ₘ demands) := by
  constructor
  · intro entry present
    rw [ordered.raise_level]
    rcases mem_cons.1 present with rfl | old
    · exact Nat.le_max_right _ _
    · exact Nat.le_trans (covers.high entry old) (Nat.le_max_left _ _)
  · intro nonempty
    rw [raise_recorded above (fits nonempty)]
    exact cons_le_cons _ (covers.all nonempty)

theorem Covers.release {demands : Multiset Nat} (covers : Covers room ledger demands)
    (ordered : Ordered ledger) (nonempty : 0 < room)
    (several : demand ∈ demands ∨ demand ≤ ledger.floor ∧ ledger.pending ≠ []) :
    Covers room (ledger.release demand) (demands.erase demand) := by
  apply ordered.release.covers
  rcases several with present | low
  · exact le_release_recorded ordered (covers.all nonempty) present
  · rw [release_low ordered low.1 (Or.inr low.2)]
    exact (erase_le _ _).trans (covers.all nonempty)

end Ledger

end Chewie
