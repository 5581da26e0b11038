import Chewie.Lib.Run
import Chewie.Lib.Stable
import Chewie.Sched.Sem.Model
import Mathlib.Data.List.Sort

/-!
# Counts and waiters

The count of a semaphore also counts its waiters. `Counted` says how, and the lemmas here say what
each change of the semaphores and tasks does to the number of waiters (`waitCount_block`,
`waitCount_unblock`) and to the order of the list of waiting tasks.
-/

namespace Chewie.Sched

open Function List Kernel

variable {ι : Type} [DecidableEq ι]

/-- The number of listed tasks that wait for the semaphore. -/
def Kernel.waitCount (kernel : Kernel ι) (sem : ι) : Nat :=
  kernel.waiting.countP fun task => (kernel.tcb task).waitsem = some sem

/-- A count is in the range of its type. -/
def Narrow (count : Int) : Prop := -0x8000 ≤ count ∧ count ≤ semValueMax

theorem int16_of_narrow {count : Int} (narrow : Narrow count) : int16 count = count := by
  unfold Narrow semValueMax at narrow
  unfold int16
  rw [Int.bmod_eq_of_le (by omega) (by omega)]

theorem int16_narrow (count : Int) : Narrow (int16 count) := by
  have least := @Int.le_bmod count (2 ^ 16) (by decide)
  have most := @Int.bmod_lt count (2 ^ 16) (by decide)
  unfold Narrow semValueMax int16
  omega

section Insertion

variable {priority : Nat → Nat} {task : Nat} {list : List Nat}

theorem schedAddprioritized_eq (priority : Nat → Nat) (task : Nat) (list : List Nat) :
    schedAddprioritized priority task list = Stable.insert priority (priority task) task list := by
  induction list with
  | nil => rfl
  | cons next rest ih => rw [schedAddprioritized, Stable.insert, ih]

theorem schedAddprioritized_perm (priority : Nat → Nat) (task : Nat) (list : List Nat) :
    (schedAddprioritized priority task list).Perm (task :: list) := by
  rw [schedAddprioritized_eq]
  exact Stable.insert_perm priority _ task list

/-- A task comes before another in the list: its priority is higher, or it is the same and the task
has waited longer. -/
def Before (priority since : Nat → Nat) (first second : Nat) : Prop :=
  priority second < priority first ∨
    (priority second = priority first ∧ since first < since second)

theorem ordered_congr {since priority' since' : Nat → Nat}
    (ordered : list.Pairwise (Before priority since))
    (samePriority : ∀ other ∈ list, priority' other = priority other)
    (sameSince : ∀ other ∈ list, since' other = since other) :
    list.Pairwise (Before priority' since') := by
  apply ordered.imp_of_mem
  intro first second memFirst memSecond before
  unfold Before at before ⊢
  rw [samePriority first memFirst, samePriority second memSecond, sameSince first memFirst,
    sameSince second memSecond]
  exact before

end Insertion

section Changes

variable {kernel : Kernel ι} {task : Nat} {sem : ι}

@[simp] theorem Kernel.setCount_tcb (kernel : Kernel ι) (sem : ι) (count : Int) :
    (kernel.setCount sem count).tcb = kernel.tcb := rfl

@[simp] theorem Kernel.setCount_same (kernel : Kernel ι) (sem : ι) (count : Int) :
    (kernel.setCount sem count).semcount sem = int16 count := update_self _ _ _

theorem Kernel.setCount_other (kernel : Kernel ι) {sem other : ι} (count : Int)
    (different : other ≠ sem) :
    (kernel.setCount sem count).semcount other = kernel.semcount other :=
  update_of_ne different _ _

@[simp] theorem Kernel.setCount_waitCount (kernel : Kernel ι) (sem other : ι) (count : Int) :
    (kernel.setCount sem count).waitCount other = kernel.waitCount other := rfl

theorem waitCount_setTcb (absent : task ∉ kernel.waiting) (tcb : Tcb ι) (other : ι) :
    (kernel.setTcb task tcb).waitCount other = kernel.waitCount other := by
  unfold waitCount setTcb
  apply countP_congr
  intro listed mem
  have different : listed ≠ task := fun same => absent (same ▸ mem)
  simp only [update_of_ne different]

theorem waitCount_block (absent : task ∉ kernel.waiting) (other : ι) :
    (kernel.block task sem).waitCount other =
      kernel.waitCount other + if sem = other then 1 else 0 := by
  have listed := @waitCount_setTcb ι _ kernel task absent
    { kernel.tcb task with waitsem := some sem, pterrno := .ok, taskState := .waitSem } other
  unfold waitCount at listed ⊢
  unfold block
  rw [(schedAddprioritized_perm _ _ _).countP_eq, countP_cons]
  simp only [setTcb, update_self, Option.some.injEq, decide_eq_true_eq] at listed ⊢
  rw [listed]

theorem waitCount_forget (mem : task ∈ kernel.waiting) (distinct : kernel.waiting.Nodup)
    (waits : (kernel.tcb task).waitsem = some sem) {tcb : Tcb ι} (free : tcb.waitsem = none)
    (other : ι) :
    (kernel.setTcb task tcb).waitCount other + (if sem = other then 1 else 0) =
      kernel.waitCount other := by
  have perm := perm_cons_erase mem
  have apart : ∀ listed ∈ kernel.waiting.erase task, listed ≠ task := by
    intro listed there same
    rw [same] at there
    exact distinct.not_mem_erase there
  unfold waitCount setTcb
  rw [perm.countP_eq, perm.countP_eq, countP_cons, countP_cons]
  simp only [update_self, free, waits, Option.some.injEq, decide_eq_true_eq, reduceCtorEq,
    decide_false, Bool.false_eq_true, if_false, Nat.add_zero]
  congr 1
  apply countP_congr
  intro listed there
  simp only [update_of_ne (apart listed there)]

theorem waitCount_erase (free : (kernel.tcb task).waitsem = none) (other : ι) :
    ({ kernel with waiting := kernel.waiting.erase task } : Kernel ι).waitCount other =
      kernel.waitCount other := by
  unfold waitCount
  by_cases mem : task ∈ kernel.waiting
  · rw [(perm_cons_erase mem).countP_eq, countP_cons, free]
    simp
  · rw [erase_of_not_mem mem]

theorem waitCount_unblock (mem : task ∈ kernel.waiting) (distinct : kernel.waiting.Nodup)
    (waits : (kernel.tcb task).waitsem = some sem) (errcode : Errno) (other : ι) :
    (kernel.unblock task errcode).waitCount other + (if sem = other then 1 else 0) =
      kernel.waitCount other := by
  let tcb : Tcb ι :=
    { kernel.tcb task with waitsem := none, pterrno := errcode, taskState := .ready }
  have erased := @waitCount_erase ι _ (kernel.setTcb task tcb) task (by simp [setTcb, tcb]) other
  have forgotten := @waitCount_forget ι _ kernel task sem mem distinct waits tcb rfl other
  rw [← forgotten, ← erased]
  rfl

theorem waitCount_remove (free : (kernel.tcb task).waitsem = none) (other : ι) :
    (taskRemove kernel task).waitCount other = kernel.waitCount other := by
  rw [← waitCount_erase free other]
  unfold taskRemove waitCount setTcb
  apply countP_congr
  intro listed _
  by_cases same : listed = task
  · subst same
    simp
  · simp [update_of_ne same]

end Changes

/-- The list of waiting tasks agrees with the control blocks. -/
structure Kernel.Listed (kernel : Kernel ι) : Prop where
  blocked : ∀ task, task ∈ kernel.waiting ↔ (kernel.tcb task).taskState = .waitSem
  distinct : kernel.waiting.Nodup
  waits : ∀ task sem, (kernel.tcb task).waitsem = some sem →
    (kernel.tcb task).taskState = .waitSem

section Lists

variable {kernel : Kernel ι} {task : Nat} {sem : ι}

section

omit [DecidableEq ι]

theorem Kernel.Listed.absent (listed : kernel.Listed)
    (awake : (kernel.tcb task).taskState ≠ .waitSem) : task ∉ kernel.waiting :=
  fun mem => awake ((listed.blocked task).mp mem)

theorem Kernel.Listed.change (listed : kernel.Listed) {waiting : List Nat} {tcb : Tcb ι}
    (distinct : waiting.Nodup)
    (others : ∀ other, other ≠ task → (other ∈ waiting ↔ other ∈ kernel.waiting))
    (here : task ∈ waiting ↔ tcb.taskState = .waitSem)
    (waits : ∀ sem, tcb.waitsem = some sem → tcb.taskState = .waitSem) :
    ({ kernel.setTcb task tcb with waiting := waiting } : Kernel ι).Listed := by
  unfold setTcb
  constructor
  · intro other
    by_cases same : other = task
    · subst same
      simp only [update_self]
      exact here
    · simp only [update_of_ne same]
      rw [others other same]
      exact listed.blocked other
  · exact distinct
  · intro other sem waiting
    by_cases same : other = task
    · subst same
      simp only [update_self] at waiting ⊢
      exact waits sem waiting
    · simp only [update_of_ne same] at waiting ⊢
      exact listed.waits other sem waiting

theorem Kernel.Listed.setTcb (listed : kernel.Listed) {tcb : Tcb ι}
    (same : tcb.taskState = (kernel.tcb task).taskState)
    (waits : ∀ sem, tcb.waitsem = some sem → (kernel.tcb task).taskState = .waitSem) :
    (kernel.setTcb task tcb).Listed := by
  apply listed.change listed.distinct (fun other _ => Iff.rfl)
  · rw [same]
    exact listed.blocked task
  · rw [same]
    exact waits

theorem Kernel.Listed.block (listed : kernel.Listed) (sem : ι)
    (awake : (kernel.tcb task).taskState ≠ .waitSem) : (kernel.block task sem).Listed := by
  have perm := fun priority => schedAddprioritized_perm priority task kernel.waiting
  have absent := listed.absent awake
  apply listed.change
  · exact (perm _).nodup_iff.mpr (nodup_cons.mpr ⟨absent, listed.distinct⟩)
  · intro other different
    exact (perm _).mem_iff.trans (mem_cons.trans (or_iff_right different))
  · exact iff_of_true ((perm _).mem_iff.mpr mem_cons_self) rfl
  · intro sem _
    rfl

theorem Kernel.Listed.erase (listed : kernel.Listed) (task : Nat) {tcb : Tcb ι}
    (awake : tcb.taskState ≠ .waitSem) (free : tcb.waitsem = none) :
    ({ kernel.setTcb task tcb with waiting := kernel.waiting.erase task } : Kernel ι).Listed := by
  apply listed.change (listed.distinct.erase task)
  · intro other different
    simp [different]
  · rw [listed.distinct.mem_erase_iff]
    simp [awake]
  · intro sem waiting
    rw [free] at waiting
    cases waiting

theorem Kernel.Listed.unblock (listed : kernel.Listed) (task : Nat) (errcode : Errno) :
    (kernel.unblock task errcode).Listed :=
  listed.erase task (by simp) rfl

theorem Kernel.Listed.remove (listed : kernel.Listed)
    (free : (kernel.tcb task).waitsem = none) : (taskRemove kernel task).Listed :=
  listed.erase task (by simp) free

end

theorem Kernel.Listed.setCount (listed : kernel.Listed) (sem : ι) (count : Int) :
    (kernel.setCount sem count).Listed :=
  ⟨listed.blocked, listed.distinct, listed.waits⟩

theorem firstWaiter_some (found : kernel.firstWaiter sem = some task) :
    task ∈ kernel.waiting ∧ (kernel.tcb task).waitsem = some sem := by
  refine ⟨mem_of_find?_eq_some found, ?_⟩
  have test := List.find?_some found
  simpa using test

theorem firstWaiter_isSome (waits : 0 < kernel.waitCount sem) :
    ∃ task, kernel.firstWaiter sem = some task := by
  obtain ⟨task, mem, test⟩ := countP_pos_iff.mp waits
  cases found : kernel.firstWaiter sem with
  | none =>
    have refused := List.find?_eq_none.mp found task mem
    exact absurd test refused
  | some first => exact ⟨first, rfl⟩

theorem nxsemPost_cases (kernel : Kernel ι) (sem : ι) :
    (∃ stcb, kernel.firstWaiter sem = some stcb ∧ int16 (kernel.semcount sem + 1) ≤ 0 ∧
      nxsemPost kernel sem =
        ((kernel.setCount sem (kernel.semcount sem + 1)).unblock stcb .ok, some stcb)) ∨
    ((kernel.firstWaiter sem = none ∨ 0 < int16 (kernel.semcount sem + 1)) ∧
      nxsemPost kernel sem = (kernel.setCount sem (kernel.semcount sem + 1), none)) := by
  have same : (kernel.setCount sem (kernel.semcount sem + 1)).firstWaiter sem =
      kernel.firstWaiter sem := rfl
  unfold nxsemPost
  simp only [setCount_same, same]
  by_cases waits : int16 (kernel.semcount sem + 1) ≤ 0
  · rw [if_pos waits]
    cases found : kernel.firstWaiter sem with
    | none => exact Or.inr ⟨Or.inl rfl, rfl⟩
    | some stcb => exact Or.inl ⟨stcb, rfl, waits, rfl⟩
  · rw [if_neg waits]
    exact Or.inr ⟨Or.inr (by omega), rfl⟩

end Lists

end Chewie.Sched
