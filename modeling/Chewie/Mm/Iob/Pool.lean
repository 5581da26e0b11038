import Chewie.Sched.Sem.Count

/-!
# The pool of I/O buffers

Free buffers are in a list and are counted by two semaphores. The throttle semaphore starts
`CONFIG_IOB_THROTTLE` counts lower, so that throttled allocations leave that many buffers to others.
A buffer that is freed while a task waits for `g_iob_sem` goes to the committed list, where the
restarted task finds it. Every function runs in a critical section until it ends or waits.
-/

namespace Chewie.Mm.Iob

open Chewie Sched

/-- The semaphores of the pool. -/
inductive IobSem where
  | iob
  | throttle
deriving DecidableEq

/-- A buffer in the hands of a caller. -/
structure Owned where
  buffer : Nat
  caller : Nat
  throttled : Bool
deriving DecidableEq

/-- The pool and its callers. -/
structure Pool where
  kernel : Kernel IobSem
  freelist : List Nat
  committed : List Nat
  owned : List Owned
  /-- The tasks that wait in `iob_allocwait` or were restarted there, and whether each is
  throttled. -/
  callers : List (Nat × Bool)

/-- The semaphore whose count an allocation checks. -/
def semOf : Bool → IobSem
  | true => .throttle
  | false => .iob

/-- `semcount--` outside the semaphore functions. -/
def lower (kernel : Kernel IobSem) (sem : IobSem) : Kernel IobSem :=
  kernel.setCount sem (kernel.semcount sem - 1)

/-- All buffers are free and the semaphores count them. -/
def iobInitialize (nbuffers throttle : Nat) (tcb : Nat → Tcb IobSem) : Pool :=
  { kernel :=
      { semcount := fun sem =>
          match sem with
          | .iob => nbuffers
          | .throttle => (nbuffers - throttle : Nat)
        waiting := []
        tcb := tcb }
    freelist := (List.range nbuffers).reverse
    committed := []
    owned := []
    callers := [] }

/-- Take the first free buffer if the count allows it. -/
def iobTryalloc (pool : Pool) (caller : Nat) (throttled : Bool) : Option Pool :=
  if 0 < pool.kernel.semcount (semOf throttled) then
    match pool.freelist with
    | [] => none
    | iob :: rest =>
      some { pool with
        kernel := lower (lower pool.kernel .iob) .throttle
        freelist := rest
        owned := ⟨iob, caller, throttled⟩ :: pool.owned }
  else none

/-- Take the first committed buffer, and a count from the semaphore that was not waited for. -/
def iobAllocCommitted (pool : Pool) (caller : Nat) (throttled : Bool) : Option Pool :=
  match pool.committed with
  | [] => none
  | iob :: rest =>
    some { pool with
      kernel := lower pool.kernel (semOf !throttled)
      committed := rest
      owned := ⟨iob, caller, throttled⟩ :: pool.owned }

/-- Give back the count that was waited for, so that `iob_tryalloc` finds it. -/
def release (pool : Pool) (throttled : Bool) : Pool :=
  { pool with kernel := (nxsemPost pool.kernel (semOf throttled)).1 }

/-- What `iob_allocwait` does with a count that it waited for. Without a committed buffer it gives
the count back and tries again. -/
def afterWait (again : Pool → Option Pool) (pool : Pool) (task : Nat) (throttled : Bool) :
    Option Pool :=
  match iobAllocCommitted pool task throttled with
  | some pool => some pool
  | none =>
    match iobTryalloc (release pool throttled) task throttled with
    | some pool => some pool
    | none => again (release pool throttled)

/-- The loop of `iob_allocwait` from the wait on, until the task waits or has a buffer. -/
def allocLoop : Nat → Nat → Bool → Pool → Option Pool
  | 0, _, _, _ => none
  | fuel + 1, task, throttled, pool =>
    let done := nxsemWait pool.kernel task (semOf throttled)
    let pool := { pool with kernel := done.1 }
    if done.2 then afterWait (allocLoop fuel task throttled) pool task throttled
    else some { pool with callers := (task, throttled) :: pool.callers }

/-- Allocate a buffer, waiting if necessary. -/
def iobAllocwait (fuel : Nat) (pool : Pool) (task : Nat) (throttled : Bool) : Option Pool :=
  match iobTryalloc pool task throttled with
  | some pool => some pool
  | none => allocLoop fuel task throttled pool

/-- A restarted task goes on in `iob_allocwait` behind its wait. -/
def resume (fuel : Nat) (pool : Pool) (task : Nat) (throttled : Bool) : Option Pool :=
  let pool := { pool with callers := pool.callers.erase (task, throttled) }
  match (pool.kernel.tcb task).pterrno with
  | .ok => afterWait (allocLoop fuel task throttled) pool task throttled
  | .eintr => allocLoop fuel task throttled pool
  | _ => some pool

/-- Put a buffer back and post both semaphores. -/
def iobFree (pool : Pool) (iob : Nat) : Pool :=
  let pool := { pool with owned := pool.owned.eraseP fun entry => entry.buffer = iob }
  let pool :=
    if pool.kernel.semcount .iob < 0 then { pool with committed := iob :: pool.committed }
    else { pool with freelist := iob :: pool.freelist }
  release (release pool false) true

/-- What happens to the pool. -/
inductive PoolOp where
  | tryalloc (caller : Nat) (throttled : Bool)
  | alloc (task : Nat) (throttled : Bool)
  | resume (task : Nat) (throttled : Bool)
  | free (iob : Nat)
  | waitIrq (wtcb : Nat) (errcode : Sched.Errno)
deriving DecidableEq

/-- Perform one step. The loop of an allocation may go around `fuel` times in a step. -/
def Pool.step (fuel : Nat) (pool : Pool) : PoolOp → Option Pool
  | .tryalloc caller throttled => some ((iobTryalloc pool caller throttled).getD pool)
  | .alloc task throttled => iobAllocwait fuel pool task throttled
  | .resume task throttled => resume fuel pool task throttled
  | .free iob => some (iobFree pool iob)
  | .waitIrq wtcb errcode =>
    (nxsemWaitIrq pool.kernel wtcb errcode).map fun kernel => { pool with kernel }

/-- A task allocates while it runs and goes on when it was restarted, only allocated buffers are
freed, and waits end with errors. -/
def PoolAllowed (pool : Pool) : PoolOp → Prop
  | .tryalloc _ _ => True
  | .alloc task _ =>
    (pool.kernel.tcb task).taskState = .ready ∧ task ∉ pool.callers.map Prod.fst
  | .resume task throttled =>
    (pool.kernel.tcb task).taskState = .ready ∧ (task, throttled) ∈ pool.callers
  | .free iob => iob ∈ pool.owned.map Owned.buffer
  | .waitIrq _ errcode => errcode ≠ .ok

/-- There is room to take one more count from each semaphore. -/
def Room (pool : Pool) : Prop := ∀ throttled, -0x8000 < pool.kernel.semcount (semOf throttled)

/-- Only a task that was restarted with a count of `g_iob_sem` finds the committed list filled. -/
def Reserving (pool : Pool) : PoolOp → Prop
  | .tryalloc _ _ => Room pool
  | .alloc _ throttled =>
    Room pool ∧ (throttled = true → 0 < pool.kernel.semcount .throttle → pool.freelist = [] →
      pool.committed = [])
  | .resume task throttled =>
    Room pool ∧
      ((pool.kernel.tcb task).pterrno = .ok → throttled = true → pool.committed = []) ∧
      ((pool.kernel.tcb task).pterrno = .eintr → 0 < pool.kernel.semcount (semOf throttled) →
        pool.committed = [])
  | .free _ => True
  | .waitIrq _ _ => True

/-- Allowed steps that leave committed buffers to the tasks they are for. -/
def PoolGuarded (pool : Pool) (op : PoolOp) : Prop := PoolAllowed pool op ∧ Reserving pool op

instance decidablePoolAllowed : ∀ (pool : Pool) (op : PoolOp), Decidable (PoolAllowed pool op)
  | _, .alloc .. | _, .resume .. | _, .free .. | _, .waitIrq .. => by
    dsimp only [PoolAllowed]; infer_instance
  | _, .tryalloc .. => isTrue trivial

instance decidableRoom (pool : Pool) : Decidable (Room pool) :=
  inferInstanceAs (Decidable (∀ _, _))

instance decidableReserving : ∀ (pool : Pool) (op : PoolOp), Decidable (Reserving pool op)
  | _, .tryalloc .. | _, .alloc .. | _, .resume .. => by dsimp only [Reserving]; infer_instance
  | _, .free .. | _, .waitIrq .. => isTrue trivial

instance decidablePoolGuarded (pool : Pool) (op : PoolOp) : Decidable (PoolGuarded pool op) :=
  inferInstanceAs (Decidable (_ ∧ _))

end Chewie.Mm.Iob
