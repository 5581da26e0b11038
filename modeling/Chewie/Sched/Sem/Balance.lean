import Chewie.Sched.Sem.Count

/-!
# Balance of counts and waiters

`Kernel.Counted` ties every count to the number of its waiters and `Kernel.Queued` keeps the waiting
tasks in the order of priority and age. There is one lemma for each way in which an operation
changes the semaphores and tasks.
-/

namespace Chewie.Sched

open Chewie Function Kernel

variable {ι : Type} [DecidableEq ι]

namespace Kernel

/-- Every count agrees with the number of its waiters. -/
structure Counted (kernel : Kernel ι) : Prop where
  listed : kernel.Listed
  waiters : ∀ sem, (kernel.waitCount sem : Int) = max 0 (-kernel.semcount sem)
  narrow : ∀ sem, Narrow (kernel.semcount sem)

/-- The waiting tasks are in the order of priority and, among equals, of age. -/
structure Queued (kernel : Kernel ι) (since : Nat → Nat) (clock : Nat) : Prop where
  ordered : kernel.waiting.Pairwise (Before (fun task => (kernel.tcb task).schedPriority) since)
  past : ∀ task ∈ kernel.waiting, since task < clock

/-- A change that takes tasks from the list and leaves priorities alone. -/
structure Shrinks (kernel next : Kernel ι) : Prop where
  list : next.waiting.Sublist kernel.waiting
  priority : ∀ task, (next.tcb task).schedPriority = (kernel.tcb task).schedPriority

section Changes

variable {kernel next : Kernel ι} {task : Nat} {sem : ι}

section

omit [DecidableEq ι]

theorem Queued.shrink {since : Nat → Nat} {clock : Nat} (queued : kernel.Queued since clock)
    (shrinks : kernel.Shrinks next) : next.Queued since clock := by
  constructor
  · apply ordered_congr (queued.ordered.sublist shrinks.list)
    · intro other _
      exact shrinks.priority other
    · intro other _
      rfl
  · intro other mem
    exact queued.past other (shrinks.list.subset mem)

theorem Shrinks.trans {last : Kernel ι} (first : kernel.Shrinks next)
    (second : next.Shrinks last) : kernel.Shrinks last :=
  ⟨second.list.trans first.list, fun task => (second.priority task).trans (first.priority task)⟩

theorem shrinks_setTcb (kernel : Kernel ι) (task : Nat) (tcb : Tcb ι)
    (same : tcb.schedPriority = (kernel.tcb task).schedPriority) :
    kernel.Shrinks (kernel.setTcb task tcb) := by
  refine ⟨List.Sublist.refl _, fun other => ?_⟩
  unfold setTcb
  by_cases here : other = task
  · subst here
    simp only [update_self]
    exact same
  · simp only [update_of_ne here]

theorem shrinks_erase {tcb : Tcb ι} (same : tcb.schedPriority = (kernel.tcb task).schedPriority) :
    kernel.Shrinks { kernel.setTcb task tcb with waiting := kernel.waiting.erase task } :=
  ⟨List.erase_sublist, (kernel.shrinks_setTcb task tcb same).priority⟩

theorem shrinks_unblock (kernel : Kernel ι) (task : Nat) (errcode : Errno) :
    kernel.Shrinks (kernel.unblock task errcode) :=
  shrinks_erase rfl

theorem shrinks_taskRemove (kernel : Kernel ι) (task : Nat) :
    kernel.Shrinks (taskRemove kernel task) :=
  shrinks_erase rfl

theorem Queued.block {since : Nat → Nat} {clock : Nat} (queued : kernel.Queued since clock)
    (absent : task ∉ kernel.waiting) (sem : ι) :
    (kernel.block task sem).Queued (update since task clock) (clock + 1) := by
  have perm := fun priority => schedAddprioritized_perm priority task kernel.waiting
  have apart : ∀ other ∈ kernel.waiting, other ≠ task := by
    intro other mem same
    exact absent (same ▸ mem)
  have shrinks := kernel.shrinks_setTcb task
    { kernel.tcb task with waitsem := some sem, pterrno := .ok, taskState := .waitSem } rfl
  constructor
  · dsimp only [Kernel.block]
    rw [schedAddprioritized_eq]
    apply Stable.insert_ordered
    · apply ordered_congr queued.ordered
      · intro other _
        exact shrinks.priority other
      · intro other mem
        rw [update_of_ne (apart other mem)]
    · intro other mem
      rw [update_self, update_of_ne (apart other mem)]
      exact queued.past other mem
  · intro other mem
    cases List.mem_cons.mp ((perm _).mem_iff.mp mem) with
    | inl same =>
      rw [same, update_self]
      omega
    | inr old =>
      rw [update_of_ne (apart other old)]
      have earlier := queued.past other old
      omega

end

theorem shrinks_setCount (kernel : Kernel ι) (sem : ι) (count : Int) :
    kernel.Shrinks (kernel.setCount sem count) :=
  ⟨List.Sublist.refl _, fun _ => rfl⟩

theorem shrinks_nxsemPost (kernel : Kernel ι) (sem : ι) :
    kernel.Shrinks (nxsemPost kernel sem).1 := by
  have stored := shrinks_setCount kernel sem (kernel.semcount sem + 1)
  rcases nxsemPost_cases kernel sem with ⟨stcb, _, _, done⟩ | ⟨_, done⟩
  · rw [done]
    exact stored.trans (shrinks_unblock _ stcb .ok)
  · rw [done]
    exact stored

end Changes

section Counts

variable {kernel : Kernel ι} {task : Nat} {sem : ι}

section

variable (counted : kernel.Counted)

include counted

theorem Counted.change {next : Kernel ι} (listed : next.Listed) {count : Int}
    (narrow : Narrow count) (counts : next.semcount = (kernel.setCount sem count).semcount)
    (here : (next.waitCount sem : Int) = max 0 (-count))
    (others : ∀ other, other ≠ sem → next.waitCount other = kernel.waitCount other) :
    next.Counted := by
  constructor
  · exact listed
  · intro other
    rw [counts]
    by_cases same : other = sem
    · subst same
      rw [setCount_same, int16_of_narrow narrow]
      exact here
    · rw [setCount_other kernel count same, others other same]
      exact counted.waiters other
  · intro other
    rw [counts]
    by_cases same : other = sem
    · subst same
      rw [setCount_same]
      exact int16_narrow count
    · rw [setCount_other kernel count same]
      exact counted.narrow other

theorem Counted.negative (waits : (kernel.tcb task).waitsem = some sem) :
    kernel.semcount sem < 0 := by
  have mem := (counted.listed.blocked task).mpr (counted.listed.waits task sem waits)
  have positive : 0 < kernel.waitCount sem := List.countP_pos_iff.mpr ⟨task, mem, by simp [waits]⟩
  have total := counted.waiters sem
  omega

theorem Counted.setCount (free : 0 ≤ kernel.semcount sem) (count : Int) (least : 0 ≤ count)
    (most : count ≤ semValueMax) : (kernel.setCount sem count).Counted := by
  apply counted.change (counted.listed.setCount sem count) ⟨by omega, most⟩ rfl
  · rw [setCount_waitCount, counted.waiters sem]
    omega
  · intro other _
    rfl

theorem Counted.setTcb (awake : (kernel.tcb task).taskState ≠ .waitSem) {tcb : Tcb ι}
    (same : tcb.taskState = (kernel.tcb task).taskState) (free : tcb.waitsem = none) :
    (kernel.setTcb task tcb).Counted := by
  have absent := counted.listed.absent awake
  constructor
  · apply counted.listed.setTcb same
    intro sem waits
    rw [free] at waits
    cases waits
  · intro other
    rw [waitCount_setTcb absent]
    exact counted.waiters other
  · exact counted.narrow

theorem Counted.take (awake : (kernel.tcb task).taskState = .ready)
    (there : 0 < kernel.semcount sem) :
    ((kernel.setCount sem (kernel.semcount sem - 1)).setTcb task
      { kernel.tcb task with waitsem := none }).Counted := by
  have narrow := (counted.narrow sem).2
  have set := counted.setCount (Int.le_of_lt there) (kernel.semcount sem - 1) (by omega) (by omega)
  have running : (kernel.tcb task).taskState ≠ .waitSem := by
    rw [awake]
    decide
  exact set.setTcb running rfl rfl

theorem Counted.block (awake : (kernel.tcb task).taskState ≠ .waitSem)
    (taken : kernel.semcount sem ≤ 0) (room : -0x8000 < kernel.semcount sem) :
    ((kernel.setCount sem (kernel.semcount sem - 1)).block task sem).Counted := by
  have listed := counted.listed.setCount sem (kernel.semcount sem - 1)
  have absent := counted.listed.absent awake
  have blocked := @waitCount_block ι _ (kernel.setCount sem (kernel.semcount sem - 1)) task sem
    absent
  apply counted.change (listed.block sem awake) ⟨by omega, by unfold semValueMax; omega⟩ rfl
  · rw [blocked, if_pos rfl, setCount_waitCount]
    have total := counted.waiters sem
    omega
  · intro other different
    rw [blocked, if_neg (Ne.symm different), setCount_waitCount, Nat.add_zero]

theorem Counted.leave {next : Kernel ι} (waits : (kernel.tcb task).waitsem = some sem)
    (listed : next.Listed)
    (counts : next.semcount = (kernel.setCount sem (kernel.semcount sem + 1)).semcount)
    (fewer : ∀ other, next.waitCount other + (if sem = other then 1 else 0) = kernel.waitCount other) :
    next.Counted := by
  have negative := counted.negative waits
  have narrow := counted.narrow sem
  apply counted.change listed
    ⟨by unfold Narrow at narrow; omega, by unfold semValueMax; omega⟩ counts
  · have gone := fewer sem
    rw [if_pos rfl] at gone
    have total := counted.waiters sem
    omega
  · intro other different
    have gone := fewer other
    rw [if_neg (Ne.symm different)] at gone
    exact gone

end

section

variable (counted : kernel.Counted)

include counted

theorem Counted.unblock (waits : (kernel.tcb task).waitsem = some sem) (errcode : Errno) :
    ((kernel.setCount sem (kernel.semcount sem + 1)).unblock task errcode).Counted := by
  have mem := (counted.listed.blocked task).mpr (counted.listed.waits task sem waits)
  have listed := counted.listed.setCount sem (kernel.semcount sem + 1)
  apply counted.leave waits (listed.unblock task errcode) rfl
  exact @waitCount_unblock ι _ (kernel.setCount sem (kernel.semcount sem + 1)) task sem mem
    counted.listed.distinct waits errcode

theorem Counted.forget (waits : (kernel.tcb task).waitsem = some sem) :
    ((kernel.setCount sem (kernel.semcount sem + 1)).setTcb task
      { kernel.tcb task with waitsem := none }).Counted := by
  have blocked := counted.listed.waits task sem waits
  have mem := (counted.listed.blocked task).mpr blocked
  have listed := @Listed.setTcb ι _ task
    (counted.listed.setCount sem (kernel.semcount sem + 1))
    { kernel.tcb task with waitsem := none } rfl (fun _ _ => blocked)
  apply counted.leave waits listed rfl
  exact @waitCount_forget ι _ (kernel.setCount sem (kernel.semcount sem + 1)) task sem mem
    counted.listed.distinct waits { kernel.tcb task with waitsem := none } rfl

theorem Counted.remove (free : (kernel.tcb task).waitsem = none) :
    (taskRemove kernel task).Counted := by
  constructor
  · exact counted.listed.remove free
  · intro other
    rw [waitCount_remove free]
    exact counted.waiters other
  · exact counted.narrow

theorem Counted.firstWaiter (negative : kernel.semcount sem < 0) :
    ∃ stcb, kernel.firstWaiter sem = some stcb := by
  apply firstWaiter_isSome
  have total := counted.waiters sem
  omega

theorem Counted.firstWaiter_none (free : 0 ≤ kernel.semcount sem) :
    kernel.firstWaiter sem = none := by
  cases found : kernel.firstWaiter sem with
  | none => rfl
  | some stcb =>
    have negative := counted.negative (firstWaiter_some found).2
    omega

/-- Posting keeps counts and waiters in agreement: it adds one to the count and gives it to the
first waiter if there is one. -/
theorem Counted.post (sem : ι) (room : kernel.semcount sem < semValueMax) :
    (nxsemPost kernel sem).1.Counted ∧
      (nxsemPost kernel sem).1.semcount =
        update kernel.semcount sem (kernel.semcount sem + 1) ∧
      (nxsemPost kernel sem).2 = kernel.firstWaiter sem := by
  have narrow := counted.narrow sem
  have stored : int16 (kernel.semcount sem + 1) = kernel.semcount sem + 1 :=
    int16_of_narrow ⟨by unfold Narrow at narrow; omega, by omega⟩
  have counts : (kernel.setCount sem (kernel.semcount sem + 1)).semcount =
      update kernel.semcount sem (kernel.semcount sem + 1) := by
    unfold Kernel.setCount
    rw [stored]
  rcases nxsemPost_cases kernel sem with ⟨stcb, found, _, done⟩ | ⟨idle, done⟩
  · rw [done, found]
    exact ⟨counted.unblock (firstWaiter_some found).2 .ok, counts, rfl⟩
  have free : 0 ≤ kernel.semcount sem := by
    by_contra negative
    obtain ⟨stcb, found⟩ := counted.firstWaiter (Int.not_le.mp negative)
    rw [found] at idle
    rcases idle with never | positive
    · cases never
    · omega
  rw [done, counted.firstWaiter_none free]
  exact ⟨counted.setCount free _ (by omega) (by omega), counts, rfl⟩

end

end Counts

end Kernel

end Chewie.Sched
