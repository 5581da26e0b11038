import Chewie.Mm.Iob.Callers

/-!
# Throttled allocations

`Pool.Sound` ties the counts of both semaphores to the number of available buffers and to the tasks
that have a count or wait for one. `Pool.Calm` adds that every committed buffer is for a restarted
task that is not throttled, and that no such task waits while a buffer is free. Steps that leave
committed buffers to the tasks they are for keep both, and a throttled allocation then leaves enough
buffers.
-/

namespace Chewie.Mm.Iob

open Chewie Sched Kernel Pool List

/-- The buffers that are not allocated. -/
def Pool.available (pool : Pool) : Nat := pool.freelist.length + pool.committed.length

/-- How much lower a semaphore starts than the number of buffers. -/
def origin (throttle : Nat) : Bool → Nat
  | true => throttle
  | false => 0

/-- Every buffer is in one place. -/
def Pool.Places (nbuffers : Nat) (pool : Pool) : Prop :=
  (pool.freelist ++ pool.committed ++ pool.owned.map Owned.buffer).Perm (List.range nbuffers)

/-- Each available buffer is counted, or is for a caller, unless it is one of those held back. -/
def Pool.Balance (throttle : Nat) (pool : Pool) : Prop :=
  ∀ throttled, pool.kernel.semcount (semOf throttled) + origin throttle throttled +
    pool.claims throttled = pool.available

/-- The pool is in order: counts, callers and buffers agree. -/
structure Pool.Sound (nbuffers throttle : Nat) (pool : Pool) : Prop where
  tasks : pool.Tasks
  places : pool.Places nbuffers
  balance : pool.Balance throttle
  narrow : ∀ sem, Narrow (pool.kernel.semcount sem)
  size : (nbuffers : Int) ≤ semValueMax

/-- Committed buffers are for those that are due one. -/
structure Pool.Calm (pool : Pool) : Prop where
  /-- There is one committed buffer for each restarted task that is not throttled. -/
  reserved : pool.committed.length = pool.due false
  /-- While a buffer is free no task waits for `g_iob_sem`. -/
  idle : pool.freelist ≠ [] → ∀ task, (pool.kernel.tcb task).waitsem ≠ some .iob

/-- Enough buffers are left for allocations that are not throttled, and none of them waits. -/
def Pool.Leaves (throttle : Nat) (pool : Pool) : Prop :=
  throttle ≤ pool.available ∧ ∀ task, (pool.kernel.tcb task).waitsem ≠ some .iob

/-- An allocation between two states that was throttled leaves enough buffers. -/
def Kept (throttle : Nat) (pool after : Pool) : Prop :=
  ∀ entry, after.owned = entry :: pool.owned → entry.throttled = true → after.Leaves throttle

section Steps

variable {nbuffers throttle : Nat} {pool : Pool} {task : Nat} {throttled : Bool}

theorem Kept.of_same {after : Pool} (same : after.owned = pool.owned) :
    Kept throttle pool after := by
  intro entry grown
  rw [same] at grown
  have longer := congrArg length grown
  rw [length_cons] at longer
  omega

theorem Pool.Places.available_le (places : pool.Places nbuffers) : pool.available ≤ nbuffers := by
  have total := places.length_eq
  unfold available
  simp only [length_append, length_map, length_range] at total
  omega

/-- What a step has to say about the counts. -/
theorem Pool.Sound.of_counts {after : Pool} (sound : pool.Sound nbuffers throttle)
    (tasks : after.Tasks) (places : after.Places nbuffers)
    (counts : ∀ kind, after.kernel.semcount (semOf kind) + after.claims kind + pool.available =
      pool.kernel.semcount (semOf kind) + pool.claims kind + after.available)
    (narrow : ∀ kind, Narrow (after.kernel.semcount (semOf kind))) :
    after.Sound nbuffers throttle := by
  refine ⟨tasks, places, fun kind => ?_, fun sem => ?_, sound.size⟩
  · have balance := sound.balance kind
    have change := counts kind
    omega
  · obtain ⟨kind, rfl⟩ := semOf_surjective sem
    exact narrow kind

theorem setCount_semOf (kernel : Kernel IobSem) (kind other : Bool) (value : Int) :
    (kernel.setCount (semOf kind) value).semcount (semOf other) =
      if kind = other then int16 value else kernel.semcount (semOf other) := by
  split
  · rename_i same
    rw [same, setCount_same]
  · rename_i differ
    exact setCount_other _ _ fun equal => differ (semOf_injective equal.symm)

theorem Pool.Sound.stored (sound : pool.Sound nbuffers throttle)
    (room : -0x8000 < pool.kernel.semcount (semOf throttled)) :
    int16 (pool.kernel.semcount (semOf throttled) - 1) =
      pool.kernel.semcount (semOf throttled) - 1 := by
  have narrow := sound.narrow (semOf throttled)
  exact int16_of_narrow ⟨by omega, by unfold Narrow at narrow; omega⟩

theorem iobTryalloc_none (done : iobTryalloc pool task throttled = none) :
    0 < pool.kernel.semcount (semOf throttled) → pool.freelist = [] := by
  intro there
  unfold iobTryalloc at done
  rw [if_pos there] at done
  cases free : pool.freelist with
  | nil => rfl
  | cons iob rest =>
    rw [free] at done
    cases done

/-- What a step from one state to another keeps. -/
structure Follows (nbuffers throttle : Nat) (pool after : Pool) : Prop where
  sound : after.Sound nbuffers throttle
  calm : after.Calm
  kept : Kept throttle pool after

theorem Follows.of_same {middle after : Pool} (follows : Follows nbuffers throttle middle after)
    (same : middle.owned = pool.owned) : Follows nbuffers throttle pool after := by
  refine ⟨follows.sound, follows.calm, ?_⟩
  intro entry
  rw [← same]
  exact follows.kept entry

section

variable (sound : pool.Sound nbuffers throttle)

include sound

theorem Pool.Sound.tryalloc_follows {after : Pool} (calm : pool.Calm) (room : Room pool)
    (done : iobTryalloc pool task throttled = some after) :
    Follows nbuffers throttle pool after := by
  rw [iobTryalloc] at done
  have there : 0 < pool.kernel.semcount (semOf throttled) := by
    by_contra vacant
    rw [if_neg vacant] at done
    cases done
  rw [if_pos there] at done
  obtain ⟨iob, rest, free⟩ := @exists_cons_of_ne_nil _ pool.freelist fun vacant => by
    rw [vacant] at done
    cases done
  rw [free] at done
  cases done
  have counts : ∀ kind, (lower (lower pool.kernel .iob) .throttle).semcount (semOf kind) =
      pool.kernel.semcount (semOf kind) - 1 := by
    intro kind
    have stored := sound.stored (room kind)
    cases kind <;> exact stored
  have idle := calm.idle (by rw [free]; exact cons_ne_nil _ _)
  refine ⟨?_, ⟨calm.reserved, fun _ => idle⟩, ?_⟩
  · apply sound.of_counts
    · exact ⟨(sound.tasks.listed.setCount _ _).setCount _ _, sound.tasks.names, sound.tasks.blocked⟩
    · apply Perm.trans _ sound.places
      rw [free]
      exact perm_middle
    · intro kind
      unfold available
      rw [counts kind, free, length_cons]
      change _ + (pool.claims kind : Int) + _ =
        _ + ((rest.length + pool.committed.length : Nat) : Int)
      omega
    · intro kind
      have least := room kind
      have most := (sound.narrow (semOf kind)).2
      rw [counts]
      exact ⟨by omega, by omega⟩
  · intro entry grown flagged
    rw [← (cons.inj grown).1] at flagged
    have kind : throttled = true := flagged
    subst kind
    have balance := sound.balance true
    unfold available at balance
    rw [free, length_cons, origin] at balance
    refine ⟨?_, idle⟩
    change throttle ≤ rest.length + pool.committed.length
    omega

/-- Each available buffer is counted by `g_iob_sem` or is for a caller. -/
theorem Pool.Sound.iob_balance : pool.kernel.semcount .iob + pool.claims false =
    pool.freelist.length + pool.committed.length := by
  have balance := sound.balance false
  unfold available at balance
  rw [semOf, origin] at balance
  omega

theorem Pool.Sound.empty (calm : pool.Calm) (taken : pool.kernel.semcount .iob ≤ 0) :
    pool.freelist = [] := by
  by_contra free
  have balance := sound.iob_balance
  have nobody : ¬pool.due false < pool.claims false := by
    intro more
    obtain ⟨task, waits⟩ := sound.tasks.waiter more
    exact calm.idle free task waits
  have reserved := calm.reserved
  have some := length_pos_of_ne_nil free
  omega

theorem Pool.Sound.free (there : 0 < pool.kernel.semcount (semOf throttled))
    (none : pool.committed = []) : pool.freelist ≠ [] := by
  intro empty
  have balance := sound.balance throttled
  unfold available at balance
  rw [empty, none] at balance
  simp only [length_nil] at balance
  omega

theorem release_take (ready : (pool.kernel.tcb task).taskState = .ready)
    (there : 0 < pool.kernel.semcount (semOf throttled)) :
    release { pool with kernel := (nxsemWait pool.kernel task (semOf throttled)).1 } throttled =
      pool := by
  have free : (pool.kernel.tcb task).waitsem = none := by
    cases waits : (pool.kernel.tcb task).waitsem with
    | none => rfl
    | some sem =>
      have state := sound.tasks.listed.waits task sem waits
      rw [ready] at state
      cases state
  have less := @Sound.stored nbuffers throttle pool throttled sound (by omega)
  have back := int16_of_narrow (sound.narrow (semOf throttled))
  have same : { pool.kernel.tcb task with waitsem := none } = pool.kernel.tcb task := by
    rw [← free]
  unfold release nxsemWait nxsemPost
  rw [if_pos there]
  simp only [Kernel.setTcb, Kernel.setCount, Function.update_self, less, Int.sub_add_cancel, back,
    same, Function.update_eq_self, Function.update_idem]
  rw [if_neg (by omega)]

theorem Pool.Sound.block (ready : (pool.kernel.tcb task).taskState = .ready)
    (absent : task ∉ pool.callers.map Prod.fst)
    (room : -0x8000 < pool.kernel.semcount (semOf throttled)) :
    (pool.block task throttled).Sound nbuffers throttle := by
  have stored := sound.stored room
  have counts : ∀ kind, (pool.block task throttled).kernel.semcount (semOf kind) = _ :=
    fun kind => setCount_semOf pool.kernel throttled kind _
  apply sound.of_counts (sound.tasks.block ready absent throttled) sound.places
  · intro kind
    rw [block_claims absent, counts]
    change _ = _ + ((pool.available : Nat) : Int)
    split
    · subst kind
      omega
    · omega
  · intro kind
    rw [counts]
    split
    · exact int16_narrow _
    · exact sound.narrow _

end

theorem Pool.Calm.block (calm : pool.Calm) (sound : pool.Sound nbuffers throttle)
    (absent : task ∉ pool.callers.map Prod.fst)
    (taken : pool.kernel.semcount (semOf throttled) ≤ 0) : (pool.block task throttled).Calm := by
  constructor
  · rw [block_due absent]
    exact calm.reserved
  · intro free other
    by_cases same : other = task
    · subst same
      rw [block_same]
      cases throttled with
      | true => exact fun never => by cases never
      | false => exact absurd (sound.empty calm taken) free
    · rw [block_other _ _ same]
      exact calm.idle free other

theorem iobAllocCommitted_none (pool : Pool) (task : Nat) (throttled : Bool)
    (empty : pool.committed = []) : iobAllocCommitted pool task throttled = none := by
  unfold iobAllocCommitted
  rw [empty]

/-- The loop of an allocation ends with a wait or a buffer, and takes no committed buffer. -/
theorem allocLoop_follows (sound : pool.Sound nbuffers throttle) (calm : pool.Calm)
    (room : Room pool) (ready : (pool.kernel.tcb task).taskState = .ready)
    (absent : task ∉ pool.callers.map Prod.fst)
    (empty : 0 < pool.kernel.semcount (semOf throttled) → pool.committed = []) (fuel : Nat) :
    ∃ after, allocLoop (fuel + 1) task throttled pool = some after ∧
      Follows nbuffers throttle pool after := by
  unfold allocLoop
  by_cases there : 0 < pool.kernel.semcount (semOf throttled)
  · have taken : (nxsemWait pool.kernel task (semOf throttled)).2 = true := by
      unfold nxsemWait
      rw [if_pos there]
    have free := sound.free there (empty there)
    have back := release_take sound ready there
    have nothing := iobAllocCommitted_none
      { pool with kernel := (nxsemWait pool.kernel task (semOf throttled)).1 } task throttled
      (empty there)
    simp only [taken, if_true, afterWait, nothing, back]
    cases done : iobTryalloc pool task throttled with
    | none => exact absurd (iobTryalloc_none done there) free
    | some after => exact ⟨after, rfl, sound.tryalloc_follows calm room done⟩
  · have waits : nxsemWait pool.kernel task (semOf throttled) =
        ((pool.kernel.setCount (semOf throttled)
          (pool.kernel.semcount (semOf throttled) - 1)).block task (semOf throttled), false) := by
      unfold nxsemWait
      rw [if_neg there]
    simp only [waits, Bool.false_eq_true, if_false]
    exact ⟨_, rfl, sound.block ready absent (room throttled),
      calm.block sound absent (Int.not_lt.mp there), Kept.of_same rfl⟩

theorem Pool.Sound.leave (sound : pool.Sound nbuffers throttle)
    (ready : (pool.kernel.tcb task).taskState = .ready) (mem : (task, throttled) ∈ pool.callers)
    (failed : (pool.kernel.tcb task).pterrno ≠ .ok) :
    (pool.leave task throttled).Sound nbuffers throttle := by
  refine sound.of_counts (sound.tasks.leave ready throttled) sound.places (fun kind => ?_)
    fun kind => sound.narrow _
  have claims := leave_claims mem kind
  rw [if_neg (fun both => failed both.2)] at claims
  rw [claims]
  rfl

theorem Pool.Calm.leave (calm : pool.Calm)
    (ready : (pool.kernel.tcb task).taskState = .ready) (mem : (task, throttled) ∈ pool.callers)
    (other : ¬(throttled = false ∧ (pool.kernel.tcb task).pterrno = .ok)) :
    (pool.leave task throttled).Calm := by
  constructor
  · have due := leave_due mem ready false
    rw [if_neg other, Nat.add_zero] at due
    rw [← due]
    exact calm.reserved
  · exact calm.idle

/-- A restarted task that is not throttled takes the buffer that was committed for it. -/
theorem resume_committed (sound : pool.Sound nbuffers throttle) (calm : pool.Calm)
    (room : Room pool) (ready : (pool.kernel.tcb task).taskState = .ready)
    (mem : (task, false) ∈ pool.callers) (granted : (pool.kernel.tcb task).pterrno = .ok) :
    ∃ after, iobAllocCommitted (pool.leave task false) task false = some after ∧
      Follows nbuffers throttle pool after := by
  have due := leave_due mem ready false
  have claims := leave_claims mem
  rw [if_pos ⟨rfl, granted⟩] at due
  have reserved := calm.reserved
  have stored := sound.stored (room true)
  have counts : ∀ kind, (lower pool.kernel (semOf true)).semcount (semOf kind) = _ :=
    fun kind => setCount_semOf pool.kernel true kind _
  cases filled : pool.committed with
  | nil =>
    rw [filled, length_nil] at reserved
    omega
  | cons iob rest =>
    refine ⟨{ pool.leave task false with
      kernel := lower pool.kernel (semOf true)
      committed := rest
      owned := ⟨iob, task, false⟩ :: pool.owned }, ?_, ?_, ?_, ?_⟩
    · have shape : (pool.leave task false).committed = iob :: rest := filled
      unfold iobAllocCommitted
      rw [shape]
      rfl
    · have tasks := sound.tasks.leave ready false
      apply sound.of_counts
      · exact ⟨tasks.listed.setCount _ _, tasks.names, tasks.blocked⟩
      · apply Perm.trans _ sound.places
        rw [filled]
        simp only [map_cons, append_assoc, cons_append]
        exact (perm_append_left_iff _).mpr perm_middle
      · intro kind
        unfold available
        rw [counts, claims kind, filled, length_cons]
        change _ + ((pool.leave task false).claims kind : Int) + _ = _ +
          ((pool.freelist.length + rest.length : Nat) : Int)
        cases kind with
        | true =>
          rw [if_pos rfl, if_neg (fun both => by cases both.1)]
          omega
        | false =>
          rw [if_neg (by decide), if_pos ⟨rfl, granted⟩]
          omega
      · intro kind
        rw [counts]
        split
        · exact int16_narrow _
        · exact sound.narrow _
    · constructor
      · change rest.length = (pool.leave task false).due false
        rw [filled, length_cons] at reserved
        omega
      · exact calm.idle
    · intro entry grown flagged
      rw [← (cons.inj grown).1] at flagged
      cases flagged

theorem Released.counts {after : Pool} (released : Released pool after throttled) (kind : Bool) :
    after.kernel.semcount (semOf kind) =
      pool.kernel.semcount (semOf kind) + if throttled = kind then 1 else 0 := by
  by_cases same : throttled = kind
  · subst same
    rw [if_pos rfl]
    exact released.count
  · have negated : kind = !throttled := by
      cases kind <;> cases throttled <;> first | rfl | exact absurd rfl same
    rw [if_neg same, Int.add_zero, negated]
    exact released.other

/-- A throttled task that finds no committed buffer gives its count back. -/
theorem Pool.Sound.give_back (sound : pool.Sound nbuffers throttle)
    (ready : (pool.kernel.tcb task).taskState = .ready) (mem : (task, throttled) ∈ pool.callers)
    (granted : (pool.kernel.tcb task).pterrno = .ok) :
    Released (pool.leave task throttled) (release (pool.leave task throttled) throttled)
        throttled ∧ (release (pool.leave task throttled) throttled).Sound nbuffers throttle := by
  have claims := leave_claims mem
  have most := sound.places.available_le
  have size := sound.size
  have narrow : Narrow (pool.kernel.semcount (semOf throttled) + 1) := by
    have balance := sound.balance throttled
    have least := (sound.narrow (semOf throttled)).1
    rw [claims throttled, if_pos ⟨rfl, granted⟩] at balance
    exact ⟨by omega, by omega⟩
  have released := release_spec (sound.tasks.leave ready throttled) throttled narrow
  have counts : ∀ kind, (release (pool.leave task throttled) throttled).kernel.semcount
      (semOf kind) = pool.kernel.semcount (semOf kind) + _ := released.counts
  refine ⟨released, sound.of_counts released.tasks sound.places (fun kind => ?_) fun kind => ?_⟩
  · rw [released.claims, counts kind, claims kind]
    change _ = _ + ((pool.available : Nat) : Int)
    by_cases same : throttled = kind
    · rw [if_pos same, if_pos ⟨same, granted⟩]
      omega
    · rw [if_neg same, if_neg (fun both => same both.1)]
      omega
  · rw [counts kind]
    split
    · subst kind
      exact narrow
    · rw [Int.add_zero]
      exact sound.narrow _

section

variable (sound : pool.Sound nbuffers throttle) (calm : pool.Calm)

include sound calm

/-- A restarted task goes on. -/
theorem resume_follows (allowed : PoolAllowed pool (.resume task throttled))
    (reserving : Reserving pool (.resume task throttled)) (fuel : Nat) :
    ∃ after, resume (fuel + 1) pool task throttled = some after ∧
      Follows nbuffers throttle pool after := by
  have ready := allowed.1
  have mem := allowed.2
  have room := reserving.1
  have absent := sound.tasks.leave_absent mem
  cases status : (pool.kernel.tcb task).pterrno with
  | ok =>
    simp only [resume, status]
    change ∃ after, afterWait _ (pool.leave task throttled) task throttled = some after ∧ _
    cases throttled with
    | false =>
      obtain ⟨after, taken, follows⟩ := resume_committed sound calm room ready mem status
      refine ⟨after, ?_, follows⟩
      simp only [afterWait, taken]
    | true =>
      have empty := reserving.2.1 status rfl
      have nothing := iobAllocCommitted_none (pool.leave task true) task true empty
      have back := sound.give_back ready mem status
      have quiet := calm.leave ready mem (fun both => by cases both.1)
      have still : (release (pool.leave task true) true).Calm := by
        constructor
        · exact quiet.reserved.trans back.1.due.symm
        · intro free other waits
          exact quiet.idle free other (back.1.waits other _ waits)
      have space : Room (release (pool.leave task true) true) := by
        intro kind
        have least := room kind
        rw [back.1.counts]
        change _ < pool.kernel.semcount (semOf kind) + _
        split <;> omega
      have running := back.1.awake task (by
        change (pool.kernel.tcb task).taskState ≠ .waitSem
        rw [ready]
        decide)
      simp only [afterWait, nothing]
      cases done : iobTryalloc (release (pool.leave task true) true) task true with
      | some after =>
        exact ⟨after, rfl, (back.2.tryalloc_follows still space done).of_same rfl⟩
      | none =>
        obtain ⟨after, performed, follows⟩ := allocLoop_follows back.2 still space
          (by rw [running]; exact ready) absent (fun _ => empty) fuel
        exact ⟨after, performed, follows.of_same rfl⟩
  | eintr =>
    have failed : (pool.kernel.tcb task).pterrno ≠ .ok := by
      rw [status]
      decide
    obtain ⟨after, performed, follows⟩ := allocLoop_follows (sound.leave ready mem failed)
      (calm.leave ready mem (fun both => failed both.2)) room ready absent
      (reserving.2.2 status) fuel
    simp only [resume, status]
    exact ⟨after, performed, follows.of_same rfl⟩
  | ecanceled | etimedout =>
    have failed : (pool.kernel.tcb task).pterrno ≠ .ok := by
      rw [status]
      decide
    simp only [resume, status]
    exact ⟨_, rfl, sound.leave ready mem failed, calm.leave ready mem (fun both => failed both.2),
      Kept.of_same rfl⟩

theorem iobAllocwait_follows (allowed : PoolAllowed pool (.alloc task throttled))
    (reserving : Reserving pool (.alloc task throttled)) (fuel : Nat) :
    ∃ after, iobAllocwait (fuel + 1) pool task throttled = some after ∧
      Follows nbuffers throttle pool after := by
  unfold iobAllocwait
  cases done : iobTryalloc pool task throttled with
  | some after => exact ⟨after, rfl, sound.tryalloc_follows calm reserving.1 done⟩
  | none =>
    apply allocLoop_follows sound calm reserving.1 allowed.1 allowed.2
    intro there
    have free := iobTryalloc_none done there
    cases throttled with
    | true => exact reserving.2 rfl there free
    | false =>
      have balance := sound.iob_balance
      have reserved := calm.reserved
      have more := pool.due_le false
      change 0 < pool.kernel.semcount .iob at there
      rw [free, length_nil] at balance
      exact length_eq_zero_iff.mp (by omega)

/-- The pool after a wait ended with an error. -/
theorem Pool.Sound.interrupt (waits : (pool.kernel.tcb task).waitsem = some (semOf throttled))
    {errcode : Sched.Errno} (failed : errcode ≠ .ok) :
    Follows nbuffers throttle pool (pool.unblock task (semOf throttled) errcode) := by
  have claims := sound.tasks.unblock_claims waits (semOf throttled) errcode
  have more := sound.tasks.due_lt waits
  have most := sound.places.available_le
  have size := sound.size
  have narrow := sound.narrow (semOf throttled)
  have stored : int16 (pool.kernel.semcount (semOf throttled) + 1) =
      pool.kernel.semcount (semOf throttled) + 1 := by
    have balance := sound.balance throttled
    unfold Narrow at narrow
    exact int16_of_narrow ⟨by omega, by omega⟩
  have counts : ∀ kind, (pool.unblock task (semOf throttled) errcode).kernel.semcount (semOf kind) =
      _ := fun kind => setCount_semOf pool.kernel throttled kind _
  refine ⟨sound.of_counts (sound.tasks.unblock task _ errcode) sound.places (fun kind => ?_)
    fun kind => ?_, ?_, Kept.of_same rfl⟩
  · rw [← claims kind, counts]
    change _ = _ + ((pool.available : Nat) : Int)
    by_cases same : throttled = kind
    · subst same
      rw [if_pos rfl, if_pos ⟨rfl, failed⟩]
      omega
    · rw [if_neg same, if_neg (fun both => same both.1)]
      omega
  · rw [counts]
    split
    · exact int16_narrow _
    · exact sound.narrow _
  · constructor
    · rw [sound.tasks.unblock_due waits, if_neg (fun both => failed both.2)]
      exact calm.reserved
    · intro free other still
      exact calm.idle free other (pool.unblock_waits task _ errcode still)

theorem Pool.Sound.negative (waits : (pool.kernel.tcb task).waitsem = some .iob) :
    pool.kernel.semcount .iob < 0 := by
  have more := @Tasks.due_lt pool task false sound.tasks waits
  have balance := sound.iob_balance
  have reserved := calm.reserved
  have empty : pool.freelist = [] := by
    by_contra free
    exact calm.idle free task waits
  rw [empty, length_nil] at balance
  omega

end

/-- Posting both semaphores for a buffer that came back. -/
theorem Pool.Sound.post {base : Pool} (sound : pool.Sound nbuffers throttle)
    (kernel : base.kernel = pool.kernel) (callers : base.callers = pool.callers)
    (places : base.Places nbuffers) (more : base.available = pool.available + 1) :
    Released base (release base false) false ∧
      Released (release base false) (release (release base false) true) true ∧
      (release (release base false) true).Sound nbuffers throttle := by
  have claims : ∀ kind, base.claims kind = pool.claims kind := by
    intro kind
    unfold claims
    rw [kernel, callers]
  have most := places.available_le
  have narrow : ∀ kind, Narrow (pool.kernel.semcount (semOf kind) + 1) := by
    intro kind
    have balance := sound.balance kind
    have least := (sound.narrow (semOf kind)).1
    have size := sound.size
    exact ⟨by omega, by omega⟩
  have tasks : base.Tasks := by
    constructor
    · rw [kernel]
      exact sound.tasks.listed
    · rw [callers]
      exact sound.tasks.names
    · rw [kernel, callers]
      exact sound.tasks.blocked
  have first := release_spec tasks false (by rw [kernel]; exact narrow false)
  have second := release_spec first.tasks true (by
    rw [first.counts, kernel, if_neg (by decide), Int.add_zero]
    exact narrow true)
  have counts : ∀ kind, (release (release base false) true).kernel.semcount (semOf kind) =
      pool.kernel.semcount (semOf kind) + 1 := by
    intro kind
    rw [second.counts, first.counts, kernel]
    cases kind <;> simp
  refine ⟨first, second, sound.of_counts second.tasks places (fun kind => ?_) fun kind => ?_⟩
  · rw [counts, second.claims, first.claims, claims]
    change _ = _ + ((base.available : Nat) : Int)
    omega
  · rw [counts]
    exact narrow kind

theorem owned_erase {owned : List Owned} {iob : Nat} (mem : iob ∈ owned.map Owned.buffer) :
    (owned.map Owned.buffer).Perm
      (iob :: (owned.eraseP fun entry => entry.buffer = iob).map Owned.buffer) := by
  induction owned with
  | nil => cases mem
  | cons entry rest ih =>
    by_cases same : entry.buffer = iob
    · rw [eraseP_cons_of_pos (by simp [same]), map_cons, same]
    · rw [eraseP_cons_of_neg (by simp [same])]
      have there := (mem_cons.mp mem).resolve_left (fun equal => same equal.symm)
      exact ((ih there).cons _).trans (Perm.swap _ _ _)

/-- A buffer comes back. -/
theorem iobFree_follows (sound : pool.Sound nbuffers throttle) (calm : pool.Calm) {iob : Nat}
    (mem : iob ∈ pool.owned.map Owned.buffer) :
    Follows nbuffers throttle pool (iobFree pool iob) := by
  have erased := owned_erase mem
  have kept : ∀ after : Pool,
      after.owned = pool.owned.eraseP (fun entry => entry.buffer = iob) →
      Kept throttle pool after := by
    intro after same entry grown
    have fewer := (eraseP_sublist (p := fun entry : Owned => entry.buffer = iob)
      (l := pool.owned)).length_le
    have longer := congrArg length (same.symm.trans grown)
    rw [length_cons] at longer
    omega
  unfold iobFree
  dsimp only
  by_cases negative : pool.kernel.semcount .iob < 0
  · rw [if_pos negative]
    have done := @Sound.post nbuffers throttle pool
      { pool with
        owned := pool.owned.eraseP fun entry => entry.buffer = iob
        committed := iob :: pool.committed } sound rfl rfl
      (by
        apply Perm.trans _ sound.places
        simp only [append_assoc, cons_append]
        exact (perm_append_left_iff _).mpr
          (perm_middle.symm.trans ((perm_append_left_iff _).mpr erased.symm)))
      (by
        simp only [available, length_cons]
        omega)
    refine ⟨done.2.2, ⟨?_, ?_⟩, kept _ rfl⟩
    · have waiter : ∃ task, (pool.kernel.tcb task).waitsem = some (semOf false) := by
        apply sound.tasks.waiter
        have balance := sound.iob_balance
        have reserved := calm.reserved
        omega
      obtain ⟨task, waits⟩ := waiter
      have due := (done.1.woken negative task waits)
      exact (congrArg (· + 1) calm.reserved).trans (due.symm.trans done.2.1.due.symm)
    · intro free other waits
      exact calm.idle free other (done.1.waits other _ (done.2.1.waits other _ waits))
  · rw [if_neg negative]
    have done := @Sound.post nbuffers throttle pool
      { pool with
        owned := pool.owned.eraseP fun entry => entry.buffer = iob
        freelist := iob :: pool.freelist } sound rfl rfl
      (by
        apply Perm.trans _ sound.places
        rw [append_assoc, append_assoc]
        exact perm_middle.symm.trans ((perm_append_left_iff _).mpr
          (perm_middle.symm.trans ((perm_append_left_iff _).mpr erased.symm))))
      (by
        simp only [available, length_cons]
        omega)
    refine ⟨done.2.2, ⟨?_, ?_⟩, kept _ rfl⟩
    · have same := done.1.stored (Int.not_lt.mp negative)
      have due : (release { pool with
          owned := pool.owned.eraseP fun entry => entry.buffer = iob
          freelist := iob :: pool.freelist } false).due false = pool.due false := by
        unfold due
        rw [same]
        rfl
      exact calm.reserved.trans (due.symm.trans done.2.1.due.symm)
    · intro _ other waits
      exact negative (sound.negative calm (done.1.waits other _ (done.2.1.waits other _ waits)))

theorem Pool.Sound.step (sound : pool.Sound nbuffers throttle) (calm : pool.Calm) {op : PoolOp}
    (guarded : PoolGuarded pool op) (fuel : Nat) :
    ∃ after, pool.step (fuel + 1) op = some after ∧ Follows nbuffers throttle pool after := by
  cases op with
  | tryalloc caller throttled =>
    cases done : iobTryalloc pool caller throttled with
    | none => exact ⟨pool, by simp [Pool.step, done], sound, calm, Kept.of_same rfl⟩
    | some after =>
      exact ⟨after, by simp [Pool.step, done], sound.tryalloc_follows calm guarded.2 done⟩
  | alloc task throttled => exact iobAllocwait_follows sound calm guarded.1 guarded.2 fuel
  | resume task throttled => exact resume_follows sound calm guarded.1 guarded.2 fuel
  | free iob => exact ⟨_, rfl, iobFree_follows sound calm guarded.1⟩
  | waitIrq wtcb errcode =>
    by_cases state : (pool.kernel.tcb wtcb).taskState = .waitSem
    · obtain ⟨_, throttled, _, waits⟩ := sound.tasks.blocked wtcb state
      refine ⟨_, ?_, sound.interrupt calm waits guarded.1⟩
      simp [Pool.step, nxsemWaitIrq, state, waits, Pool.unblock]
    · exact ⟨pool, by simp [Pool.step, nxsemWaitIrq, state], sound, calm, Kept.of_same rfl⟩

end Steps

section Results

variable {nbuffers throttle : Nat} {tcb : Nat → Tcb IobSem}

theorem iobInitialize_sound (fewer : throttle < nbuffers) (size : (nbuffers : Int) ≤ semValueMax)
    (awake : ∀ task, (tcb task).taskState ≠ .waitSem) (free : ∀ task, (tcb task).waitsem = none) :
    (iobInitialize nbuffers throttle tcb).Sound nbuffers throttle := by
  constructor
  · constructor
    · constructor
      · intro task
        exact iff_of_false not_mem_nil (awake task)
      · exact nodup_nil
      · intro task sem waits
        change (tcb task).waitsem = some sem at waits
        rw [free task] at waits
        cases waits
    · exact nodup_nil
    · intro task state
      exact absurd state (awake task)
  · unfold Places iobInitialize
    simp only [append_nil, map_nil]
    exact reverse_perm _
  · intro throttled
    have total : (iobInitialize nbuffers throttle tcb).available = nbuffers := by
      unfold available iobInitialize
      simp
    rw [total]
    cases throttled with
    | true =>
      change ((nbuffers - throttle : Nat) : Int) + throttle + ((0 : Nat) : Int) = nbuffers
      omega
    | false =>
      change (nbuffers : Int) + ((0 : Nat) : Int) + ((0 : Nat) : Int) = nbuffers
      omega
  · intro sem
    cases sem with
    | iob => exact ⟨by change _ ≤ (nbuffers : Int); omega, size⟩
    | throttle =>
      exact ⟨by change _ ≤ ((nbuffers - throttle : Nat) : Int); omega,
        by change ((nbuffers - throttle : Nat) : Int) ≤ _; omega⟩
  · exact size

theorem iobInitialize_calm (free : ∀ task, (tcb task).waitsem = none) :
    (iobInitialize nbuffers throttle tcb).Calm := by
  constructor
  · rfl
  · intro _ task waits
    change (tcb task).waitsem = some .iob at waits
    rw [free task] at waits
    cases waits

/-- In every run that leaves committed buffers to the tasks they are for, every buffer is in one
place, and each further step with a throttled allocation leaves `CONFIG_IOB_THROTTLE` buffers and no
waiting task behind. -/
theorem iob_throttle_kept (fewer : throttle < nbuffers) (size : (nbuffers : Int) ≤ semValueMax)
    (awake : ∀ task, (tcb task).taskState ≠ .waitSem) (free : ∀ task, (tcb task).waitsem = none)
    (fuel : Nat) {ops : List PoolOp} (guarded : Run.Admitted (Pool.step (fuel + 1)) PoolGuarded
      (iobInitialize nbuffers throttle tcb) ops) :
    ∃ pool, Run.run (Pool.step (fuel + 1)) (iobInitialize nbuffers throttle tcb) ops = some pool ∧
      pool.Places nbuffers ∧
      ∀ op, PoolGuarded pool op → ∃ after, pool.step (fuel + 1) op = some after ∧
        Kept throttle pool after := by
  have keeps : ∀ (pool : Pool) (op : PoolOp), (pool.Sound nbuffers throttle ∧ pool.Calm) →
      PoolGuarded pool op → ∃ after, pool.step (fuel + 1) op = some after ∧
        (after.Sound nbuffers throttle ∧ after.Calm) := by
    intro pool op both careful
    obtain ⟨after, performed, follows⟩ := both.1.step both.2 careful fuel
    exact ⟨after, performed, follows.sound, follows.calm⟩
  obtain ⟨pool, performed, sound, calm⟩ := Run.run_invariant keeps
    ⟨iobInitialize_sound fewer size awake free, iobInitialize_calm free⟩ guarded
  refine ⟨pool, performed, sound.places, fun op careful => ?_⟩
  obtain ⟨after, next, follows⟩ := sound.step calm careful fuel
  exact ⟨after, next, follows.kept⟩

end Results

/-- Tasks of one priority that are ready. -/
def readyTcb (_ : Nat) : Tcb IobSem :=
  { taskState := .ready, waitsem := none, pterrno := .ok, schedPriority := 100 }

/-- One of three buffers is held back. A task that is not throttled waits and gets the buffer that
is freed. -/
theorem iob_throttle_kept_waiter :
    ∃ pool, Run.run (Pool.step 1) (iobInitialize 3 1 readyTcb)
        [.alloc 1 false, .alloc 1 false, .alloc 1 false, .alloc 2 false, .free 2, .resume 2 false] =
          some pool ∧
      pool.Places 3 ∧
      ∀ op, PoolGuarded pool op → ∃ after, pool.step 1 op = some after ∧ Kept 1 pool after :=
  iob_throttle_kept (by decide) (by decide) (fun _ => TaskState.noConfusion) (fun _ => rfl) 0
    (by decide)

/-- One of two buffers is held back and both are allocated. A task that is not throttled and a
throttled one wait. The next buffer that is freed is committed and restarts both, and the throttled
task runs first and takes it. -/
theorem iob_throttle_broken :
    Run.Admitted (Pool.step 1) PoolAllowed (iobInitialize 2 1 readyTcb)
        [.alloc 1 false, .alloc 1 false, .alloc 2 false, .alloc 3 true, .free 1, .resume 3 true] ∧
      ∃ pool after, Run.run (Pool.step 1) (iobInitialize 2 1 readyTcb)
          [.alloc 1 false, .alloc 1 false, .alloc 2 false, .alloc 3 true, .free 1] = some pool ∧
        pool.step 1 (.resume 3 true) = some after ∧
        after.owned = ⟨1, 3, true⟩ :: pool.owned ∧ after.available = 0 ∧
        (2, false) ∈ after.callers ∧ ¬Kept 1 pool after := by
  refine ⟨by decide, _, _, rfl, rfl, by decide, by decide, by decide, fun kept => ?_⟩
  exact absurd (kept ⟨1, 3, true⟩ (by decide) rfl).1 (by decide)

end Chewie.Mm.Iob
