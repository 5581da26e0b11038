import Chewie.Mm.Iob.Pool

/-!
# The callers of the pool

Tasks that wait for a buffer claim one, and a task that was restarted with a count is due one.
`release_spec` says what posting a semaphore does to the callers, and the other lemmas what happens
when a task begins to wait, is restarted with an error, or goes on.
-/

namespace Chewie.Mm.Iob

open Chewie Sched Pool List Function

/-- The callers that wait or were restarted with a count. -/
def Pool.claims (pool : Pool) (throttled : Bool) : Nat :=
  pool.callers.countP fun caller =>
    caller.2 = throttled ∧ (pool.kernel.tcb caller.1).pterrno = .ok

/-- The callers that were restarted with a count. -/
def Pool.due (pool : Pool) (throttled : Bool) : Nat :=
  pool.callers.countP fun caller =>
    caller.2 = throttled ∧ (pool.kernel.tcb caller.1).pterrno = .ok ∧
      (pool.kernel.tcb caller.1).taskState ≠ .waitSem

/-- The tasks of the pool. -/
structure Pool.Tasks (pool : Pool) : Prop where
  listed : pool.kernel.Listed
  names : (pool.callers.map Prod.fst).Nodup
  blocked : ∀ task, (pool.kernel.tcb task).taskState = .waitSem →
    (pool.kernel.tcb task).pterrno = .ok ∧ ∃ throttled, (task, throttled) ∈ pool.callers ∧
      (pool.kernel.tcb task).waitsem = some (semOf throttled)

section Callers

variable {callers : List (Nat × Bool)} {task : Nat} {throttled : Bool}

theorem callers_apart (names : (callers.map Prod.fst).Nodup) (mem : (task, throttled) ∈ callers) :
    ∀ other ∈ callers.erase (task, throttled), other.1 ≠ task := by
  have perm := (perm_cons_erase mem).map Prod.fst
  have parts := nodup_cons.mp (perm.nodup_iff.mp names)
  intro other there same
  exact parts.1 (mem_map.mpr ⟨other, there, same⟩)

theorem countP_change (names : (callers.map Prod.fst).Nodup) (mem : (task, throttled) ∈ callers)
    {before after : Nat × Bool → Bool}
    (others : ∀ other ∈ callers, other.1 ≠ task → after other = before other) :
    callers.countP after + (if before (task, throttled) then 1 else 0) =
      callers.countP before + if after (task, throttled) then 1 else 0 := by
  have perm := perm_cons_erase mem
  have apart := callers_apart names mem
  have rest : (callers.erase (task, throttled)).countP after =
      (callers.erase (task, throttled)).countP before := by
    apply countP_congr
    intro other there
    rw [others other (mem_of_mem_erase there) (apart other there)]
  rw [perm.countP_eq, perm.countP_eq, countP_cons, countP_cons]
  omega

theorem countP_leave (mem : (task, throttled) ∈ callers) (counted : Nat × Bool → Bool) :
    callers.countP counted = (callers.erase (task, throttled)).countP counted +
      if counted (task, throttled) then 1 else 0 := by
  rw [(perm_cons_erase mem).countP_eq, countP_cons]

end Callers

section Tasks

variable {pool : Pool} {task : Nat} {throttled : Bool}

theorem semOf_injective {first second : Bool} (same : semOf first = semOf second) :
    first = second := by
  cases first <;> cases second <;> first | rfl | cases same

theorem semOf_surjective (sem : IobSem) : ∃ throttled, semOf throttled = sem := by
  cases sem with
  | iob => exact ⟨false, rfl⟩
  | throttle => exact ⟨true, rfl⟩

theorem semOf_not (throttled : Bool) : semOf (!throttled) ≠ semOf throttled := by
  cases throttled <;> decide

theorem Pool.Tasks.waits (tasks : pool.Tasks)
    (waits : (pool.kernel.tcb task).waitsem = some (semOf throttled)) :
    (task, throttled) ∈ pool.callers ∧ (pool.kernel.tcb task).taskState = .waitSem ∧
      (pool.kernel.tcb task).pterrno = .ok := by
  have state := tasks.listed.waits task _ waits
  have place := tasks.blocked task state
  obtain ⟨kind, mem, sem⟩ := place.2
  rw [waits] at sem
  have same := semOf_injective (Option.some.inj sem)
  subst same
  exact ⟨mem, state, place.1⟩

/-- What posting a semaphore of the pool does. -/
structure Released (pool after : Pool) (throttled : Bool) : Prop where
  tasks : after.Tasks
  claims : ∀ kind, after.claims kind = pool.claims kind
  count : after.kernel.semcount (semOf throttled) = pool.kernel.semcount (semOf throttled) + 1
  other : after.kernel.semcount (semOf !throttled) = pool.kernel.semcount (semOf !throttled)
  due : after.due (!throttled) = pool.due (!throttled)
  waits : ∀ task sem, (after.kernel.tcb task).waitsem = some sem →
    (pool.kernel.tcb task).waitsem = some sem
  woken : pool.kernel.semcount (semOf throttled) < 0 → ∀ task,
    (pool.kernel.tcb task).waitsem = some (semOf throttled) →
      after.due throttled = pool.due throttled + 1
  awake : ∀ task, (pool.kernel.tcb task).taskState ≠ .waitSem →
    after.kernel.tcb task = pool.kernel.tcb task
  stored : 0 ≤ pool.kernel.semcount (semOf throttled) → after.kernel.tcb = pool.kernel.tcb

/-- The pool after a waiting task was restarted. -/
def Pool.unblock (pool : Pool) (task : Nat) (sem : IobSem) (errcode : Sched.Errno) : Pool :=
  { pool with
    kernel := (pool.kernel.setCount sem (pool.kernel.semcount sem + 1)).unblock task errcode }

theorem Pool.unblock_same (pool : Pool) (task : Nat) (sem : IobSem) (errcode : Sched.Errno) :
    (pool.unblock task sem errcode).kernel.tcb task =
      { pool.kernel.tcb task with waitsem := none, pterrno := errcode, taskState := .ready } :=
  update_self _ _ _

theorem Pool.unblock_other (pool : Pool) (sem : IobSem) (errcode : Sched.Errno) {other : Nat}
    (different : other ≠ task) :
    (pool.unblock task sem errcode).kernel.tcb other = pool.kernel.tcb other :=
  update_of_ne different _ _

theorem Pool.Tasks.unblock (tasks : pool.Tasks) (task : Nat) (sem : IobSem)
    (errcode : Sched.Errno) : (pool.unblock task sem errcode).Tasks := by
  constructor
  · exact (tasks.listed.setCount sem _).unblock task errcode
  · exact tasks.names
  · intro other state
    by_cases same : other = task
    · subst same
      rw [unblock_same] at state
      cases state
    · rw [unblock_other _ _ _ same] at state ⊢
      exact tasks.blocked other state

section

variable (tasks : pool.Tasks) (waits : (pool.kernel.tcb task).waitsem = some (semOf throttled))
    (sem : IobSem) (errcode : Sched.Errno) (kind : Bool)

include tasks waits sem errcode kind

theorem Pool.Tasks.unblock_claims :
    (pool.unblock task sem errcode).claims kind +
        (if throttled = kind ∧ errcode ≠ .ok then 1 else 0) = pool.claims kind := by
  have caller := tasks.waits waits
  have change := @countP_change pool.callers task throttled tasks.names caller.1
    (fun caller => caller.2 = kind ∧ (pool.kernel.tcb caller.1).pterrno = .ok)
    (fun caller => caller.2 = kind ∧
      ((pool.unblock task sem errcode).kernel.tcb caller.1).pterrno = .ok)
    (fun other _ different => by rw [unblock_other _ _ _ different])
  simp only [unblock_same, caller.2.2, decide_eq_true_eq, and_true] at change
  have callers : (pool.unblock task sem errcode).callers = pool.callers := rfl
  unfold claims
  rw [callers]
  by_cases same : throttled = kind
  · by_cases fine : errcode = .ok
    · simp only [same, fine, and_true, if_true, not_true_eq_false, and_false, if_false, ne_eq]
        at change ⊢
      omega
    · simp only [same, fine, and_false, if_true, not_false_eq_true, and_true, if_false, ne_eq]
        at change ⊢
      omega
  · simp only [same, false_and, if_false] at change ⊢
    omega

theorem Pool.Tasks.unblock_due :
    (pool.unblock task sem errcode).due kind =
      pool.due kind + if throttled = kind ∧ errcode = .ok then 1 else 0 := by
  have caller := tasks.waits waits
  have change := @countP_change pool.callers task throttled tasks.names caller.1
    (fun caller => caller.2 = kind ∧ (pool.kernel.tcb caller.1).pterrno = .ok ∧
      (pool.kernel.tcb caller.1).taskState ≠ .waitSem)
    (fun caller => caller.2 = kind ∧
      ((pool.unblock task sem errcode).kernel.tcb caller.1).pterrno = .ok ∧
      ((pool.unblock task sem errcode).kernel.tcb caller.1).taskState ≠ .waitSem)
    (fun other _ different => by rw [unblock_other _ _ _ different])
  simp only [unblock_same, caller.2.1, decide_eq_true_eq, ne_eq, not_true_eq_false, and_false,
    if_false, reduceCtorEq, not_false_eq_true, and_true, Nat.add_zero] at change
  exact change

end

theorem Pool.unblock_waits (pool : Pool) (task : Nat) (sem : IobSem) (errcode : Sched.Errno)
    {other : Nat} {waited : IobSem}
    (waits : ((pool.unblock task sem errcode).kernel.tcb other).waitsem = some waited) :
    (pool.kernel.tcb other).waitsem = some waited := by
  by_cases same : other = task
  · subst same
    rw [unblock_same] at waits
    cases waits
  · rw [unblock_other _ _ _ same] at waits
    exact waits

theorem Pool.Tasks.firstWaiter (tasks : pool.Tasks)
    (waits : (pool.kernel.tcb task).waitsem = some (semOf throttled)) :
    ∃ stcb, pool.kernel.firstWaiter (semOf throttled) = some stcb := by
  apply firstWaiter_isSome
  have mem := (tasks.listed.blocked task).mpr (tasks.waits waits).2.1
  exact countP_pos_iff.mpr ⟨task, mem, by simp [waits]⟩

/-- Posting a semaphore of the pool. -/
theorem release_spec (tasks : pool.Tasks) (throttled : Bool)
    (narrow : Narrow (pool.kernel.semcount (semOf throttled) + 1)) :
    Released pool (release pool throttled) throttled := by
  have stored := int16_of_narrow narrow
  have counts : ∀ kernel : Kernel IobSem, kernel.semcount =
      (pool.kernel.setCount (semOf throttled)
        (pool.kernel.semcount (semOf throttled) + 1)).semcount →
      kernel.semcount (semOf throttled) = pool.kernel.semcount (semOf throttled) + 1 ∧
        kernel.semcount (semOf !throttled) = pool.kernel.semcount (semOf !throttled) := by
    intro kernel same
    rw [same, Kernel.setCount_same, stored, Kernel.setCount_other _ _ (semOf_not throttled)]
    exact ⟨rfl, rfl⟩
  rcases nxsemPost_cases pool.kernel (semOf throttled) with ⟨stcb, found, low, done⟩ | ⟨idle, done⟩
  · have waits := (firstWaiter_some found).2
    have after : release pool throttled = pool.unblock stcb (semOf throttled) .ok := by
      unfold release
      rw [done]
      rfl
    rw [after]
    have count := counts (pool.unblock stcb (semOf throttled) .ok).kernel rfl
    constructor
    · exact tasks.unblock stcb _ .ok
    · intro kind
      have kept := tasks.unblock_claims waits (semOf throttled) .ok kind
      simpa using kept
    · exact count.1
    · exact count.2
    · rw [tasks.unblock_due waits]
      simp
    · intro task sem
      exact pool.unblock_waits stcb _ .ok
    · intro _ _ _
      rw [tasks.unblock_due waits]
      simp
    · intro task running
      apply unblock_other
      intro same
      rw [same] at running
      exact running (tasks.waits waits).2.1
    · intro free
      rw [stored] at low
      omega
  · have after : release pool throttled =
        { pool with
          kernel := pool.kernel.setCount (semOf throttled)
            (pool.kernel.semcount (semOf throttled) + 1) } := by
      unfold release
      rw [done]
    rw [after]
    have count := counts (pool.kernel.setCount (semOf throttled) _) rfl
    constructor
    · exact ⟨tasks.listed.setCount _ _, tasks.names, tasks.blocked⟩
    · intro kind
      rfl
    · exact count.1
    · exact count.2
    · rfl
    · intro task sem waits
      exact waits
    · intro negative task waits
      obtain ⟨stcb, found⟩ := tasks.firstWaiter waits
      rw [found] at idle
      rcases idle with never | positive
      · cases never
      · omega
    · intro task _
      rfl
    · intro _
      rfl

theorem Pool.due_le (pool : Pool) (throttled : Bool) :
    pool.due throttled ≤ pool.claims throttled := by
  apply countP_mono_left
  intro caller _ both
  simp only [decide_eq_true_eq] at both ⊢
  exact ⟨both.1, both.2.1⟩

/-- A caller goes on: it is no longer one of those in `iob_allocwait`. -/
def Pool.leave (pool : Pool) (task : Nat) (throttled : Bool) : Pool :=
  { pool with callers := pool.callers.erase (task, throttled) }

theorem Pool.leave_claims (mem : (task, throttled) ∈ pool.callers) (kind : Bool) :
    pool.claims kind = (pool.leave task throttled).claims kind +
      if throttled = kind ∧ (pool.kernel.tcb task).pterrno = .ok then 1 else 0 := by
  unfold claims
  rw [countP_leave mem]
  simp only [decide_eq_true_eq]
  rfl

theorem Pool.Tasks.due_lt (tasks : pool.Tasks)
    (waits : (pool.kernel.tcb task).waitsem = some (semOf throttled)) :
    pool.due throttled < pool.claims throttled := by
  have caller := tasks.waits waits
  have claimed := leave_claims caller.1 throttled
  have restarted : pool.due throttled = (pool.leave task throttled).due throttled + _ :=
    countP_leave caller.1 _
  have fewer := (pool.leave task throttled).due_le throttled
  rw [if_pos ⟨rfl, caller.2.2⟩] at claimed
  rw [if_neg (by simp [caller.2.1])] at restarted
  omega

theorem Pool.Tasks.waiter (tasks : pool.Tasks)
    (more : pool.due throttled < pool.claims throttled) :
    ∃ task, (pool.kernel.tcb task).waitsem = some (semOf throttled) := by
  by_contra none
  have all : pool.claims throttled ≤ pool.due throttled := by
    apply countP_mono_left
    intro caller mem both
    simp only [decide_eq_true_eq] at both ⊢
    refine ⟨both.1, both.2, fun state => ?_⟩
    obtain ⟨_, kind, there, waits⟩ := tasks.blocked caller.1 state
    have same : kind = throttled := by
      by_contra different
      have other : caller ≠ (caller.1, kind) :=
        fun same => different ((congrArg Prod.snd same).symm.trans both.1)
      exact callers_apart tasks.names there caller ((mem_erase_of_ne other).mpr mem) rfl
    rw [same] at waits
    exact none ⟨caller.1, waits⟩
  omega

/-- The pool after a task began to wait. -/
def Pool.block (pool : Pool) (task : Nat) (throttled : Bool) : Pool :=
  { pool with
    kernel := (pool.kernel.setCount (semOf throttled)
      (pool.kernel.semcount (semOf throttled) - 1)).block task (semOf throttled)
    callers := (task, throttled) :: pool.callers }

theorem Pool.block_same (pool : Pool) (task : Nat) (throttled : Bool) :
    (pool.block task throttled).kernel.tcb task =
      { pool.kernel.tcb task with
        waitsem := some (semOf throttled), pterrno := .ok, taskState := .waitSem } :=
  update_self _ _ _

theorem Pool.block_other (pool : Pool) (throttled : Bool) {other : Nat}
    (different : other ≠ task) :
    (pool.block task throttled).kernel.tcb other = pool.kernel.tcb other :=
  update_of_ne different _ _

theorem absent_apart {callers : List (Nat × Bool)} (absent : task ∉ callers.map Prod.fst) :
    ∀ other ∈ callers, other.1 ≠ task :=
  fun other mem same => absent (mem_map.mpr ⟨other, mem, same⟩)

theorem Pool.Tasks.block (tasks : pool.Tasks)
    (ready : (pool.kernel.tcb task).taskState = .ready) (absent : task ∉ pool.callers.map Prod.fst)
    (throttled : Bool) : (pool.block task throttled).Tasks := by
  have awake : (pool.kernel.tcb task).taskState ≠ .waitSem := by
    rw [ready]
    decide
  constructor
  · exact (tasks.listed.setCount _ _).block _ awake
  · exact nodup_cons.mpr ⟨absent, tasks.names⟩
  · intro other state
    by_cases same : other = task
    · subst same
      rw [block_same]
      exact ⟨rfl, throttled, mem_cons_self, rfl⟩
    · rw [block_other _ _ same] at state ⊢
      obtain ⟨fine, kind, mem, waits⟩ := tasks.blocked other state
      exact ⟨fine, kind, mem_cons_of_mem _ mem, waits⟩

theorem Pool.block_claims (absent : task ∉ pool.callers.map Prod.fst) (throttled kind : Bool) :
    (pool.block task throttled).claims kind =
      pool.claims kind + if throttled = kind then 1 else 0 := by
  have others : pool.callers.countP (fun caller => caller.2 = kind ∧
      ((pool.block task throttled).kernel.tcb caller.1).pterrno = .ok) = pool.claims kind := by
    apply countP_congr
    intro other mem
    rw [block_other _ _ (absent_apart absent other mem)]
  rw [← others]
  change List.countP _ ((task, throttled) :: pool.callers) = _
  rw [countP_cons, block_same]
  simp only [and_true, decide_eq_true_eq]

theorem Pool.block_due (absent : task ∉ pool.callers.map Prod.fst) (throttled kind : Bool) :
    (pool.block task throttled).due kind = pool.due kind := by
  have others : pool.callers.countP (fun caller => caller.2 = kind ∧
      ((pool.block task throttled).kernel.tcb caller.1).pterrno = .ok ∧
      ((pool.block task throttled).kernel.tcb caller.1).taskState ≠ .waitSem) = pool.due kind := by
    apply countP_congr
    intro other mem
    rw [block_other _ _ (absent_apart absent other mem)]
  rw [← others]
  change List.countP _ ((task, throttled) :: pool.callers) = _
  rw [countP_cons, block_same]
  simp

theorem Pool.Tasks.leave (tasks : pool.Tasks)
    (ready : (pool.kernel.tcb task).taskState = .ready) (throttled : Bool) :
    (pool.leave task throttled).Tasks := by
  constructor
  · exact tasks.listed
  · exact tasks.names.sublist (erase_sublist.map _)
  · intro other state
    change (pool.kernel.tcb other).taskState = .waitSem at state
    obtain ⟨fine, kind, mem, waits⟩ := tasks.blocked other state
    have different : (other, kind) ≠ (task, throttled) := by
      intro same
      have equal : other = task := congrArg Prod.fst same
      rw [equal, ready] at state
      cases state
    exact ⟨fine, kind, (mem_erase_of_ne different).mpr mem, waits⟩

theorem Pool.Tasks.leave_absent (tasks : pool.Tasks) (mem : (task, throttled) ∈ pool.callers) :
    task ∉ (pool.leave task throttled).callers.map Prod.fst := by
  intro there
  obtain ⟨other, rest, same⟩ := mem_map.mp there
  exact callers_apart tasks.names mem other rest same

theorem Pool.leave_due (mem : (task, throttled) ∈ pool.callers)
    (ready : (pool.kernel.tcb task).taskState = .ready) (kind : Bool) :
    pool.due kind = (pool.leave task throttled).due kind +
      if throttled = kind ∧ (pool.kernel.tcb task).pterrno = .ok then 1 else 0 := by
  unfold due
  rw [countP_leave mem]
  simp only [decide_eq_true_eq, ready, ne_eq, reduceCtorEq, not_false_eq_true, and_true]
  rfl

end Tasks

end Chewie.Mm.Iob
