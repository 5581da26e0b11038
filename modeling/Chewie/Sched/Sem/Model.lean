import Mathlib.Data.List.Basic
import Mathlib.Data.Int.Init
import Mathlib.Algebra.Group.Nat.Defs

/-!
# Counting semaphores

A semaphore is a sixteen-bit count. A task that finds no count makes it negative and waits in one
list with the waiters of all semaphores, which is kept in the order of priority. Posting a count
hands it to the first waiter of the semaphore. A wait can also end with a signal or a timeout, or
because the task is deleted. Priority inheritance is not configured here, so that the hooks for the
holders of a semaphore do nothing.
-/

namespace Chewie.Sched

/-- Where a task is: ready to run, blocked on a semaphore, or taken from the task lists. -/
inductive TaskState where
  | ready
  | waitSem
  | invalid
deriving DecidableEq

/-- How the wait of a task ended. -/
inductive Errno where
  | ok
  | eintr
  | ecanceled
  | etimedout
deriving DecidableEq

/-- The number of an error that ends a wait. -/
def errnoValue : Errno → Int
  | .ok => 0
  | .eintr => 4
  | .etimedout => 116
  | .ecanceled => 140

/-- The part of a task control block that semaphores use. -/
structure Tcb (ι : Type) where
  taskState : TaskState
  waitsem : Option ι
  pterrno : Errno
  schedPriority : Nat

/-- The semaphores and tasks. -/
structure Kernel (ι : Type) where
  semcount : ι → Int
  waiting : List Nat
  tcb : Nat → Tcb ι

/-- The largest count, `SEM_VALUE_MAX`. -/
def semValueMax : Int := 0x7fff

/-- Conversion to the type of the count. -/
def int16 (value : Int) : Int := value.bmod (2 ^ 16)

variable {ι : Type} [DecidableEq ι]

/-- Change the count of a semaphore. -/
def Kernel.setCount (kernel : Kernel ι) (sem : ι) (count : Int) : Kernel ι :=
  { kernel with semcount := Function.update kernel.semcount sem (int16 count) }

/-- Change the control block of a task. -/
def Kernel.setTcb (kernel : Kernel ι) (task : Nat) (tcb : Tcb ι) : Kernel ι :=
  { kernel with tcb := Function.update kernel.tcb task tcb }

/-- Insert a task behind the tasks of the same or a higher priority. -/
def schedAddprioritized (priority : Nat → Nat) (task : Nat) : List Nat → List Nat
  | [] => [task]
  | next :: rest =>
    if priority task ≤ priority next then next :: schedAddprioritized priority task rest
    else task :: next :: rest

/-- Stop the running task until it is given a count. -/
def Kernel.block (kernel : Kernel ι) (task : Nat) (sem : ι) : Kernel ι :=
  let tcb := kernel.tcb task
  let kernel := kernel.setTcb task
    { tcb with waitsem := some sem, pterrno := .ok, taskState := .waitSem }
  { kernel with
    waiting := schedAddprioritized (fun other => (kernel.tcb other).schedPriority) task
      kernel.waiting }

/-- Restart a waiting task. -/
def Kernel.unblock (kernel : Kernel ι) (task : Nat) (errcode : Errno) : Kernel ι :=
  let tcb := kernel.tcb task
  let kernel := kernel.setTcb task
    { tcb with waitsem := none, pterrno := errcode, taskState := .ready }
  { kernel with waiting := kernel.waiting.erase task }

/-- Take a count, or wait for one. The result tells whether a count was taken at once. -/
def nxsemWait (kernel : Kernel ι) (task : Nat) (sem : ι) : Kernel ι × Bool :=
  if 0 < kernel.semcount sem then
    let kernel := kernel.setCount sem (kernel.semcount sem - 1)
    (kernel.setTcb task { kernel.tcb task with waitsem := none }, true)
  else
    let kernel := kernel.setCount sem (kernel.semcount sem - 1)
    (kernel.block task sem, false)

/-- Take a count if there is one. -/
def nxsemTrywait (kernel : Kernel ι) (task : Nat) (sem : ι) : Kernel ι × Bool :=
  if 0 < kernel.semcount sem then
    let kernel := kernel.setCount sem (kernel.semcount sem - 1)
    (kernel.setTcb task { kernel.tcb task with waitsem := none }, true)
  else (kernel, false)

/-- The first task in the list that waits for the semaphore. -/
def Kernel.firstWaiter (kernel : Kernel ι) (sem : ι) : Option Nat :=
  kernel.waiting.find? fun task => (kernel.tcb task).waitsem = some sem

/-- Give a count back. The result is the task that got it. -/
def nxsemPost (kernel : Kernel ι) (sem : ι) : Kernel ι × Option Nat :=
  let kernel := kernel.setCount sem (kernel.semcount sem + 1)
  if kernel.semcount sem ≤ 0 then
    match kernel.firstWaiter sem with
    | some stcb => (kernel.unblock stcb .ok, some stcb)
    | none => (kernel, none)
  else (kernel, none)

/-- End the wait of a task with an error. A task that waits for no semaphore has no count to give
back, and the code follows `NULL`. -/
def nxsemWaitIrq (kernel : Kernel ι) (wtcb : Nat) (errcode : Errno) : Option (Kernel ι) :=
  if (kernel.tcb wtcb).taskState = .waitSem then
    match (kernel.tcb wtcb).waitsem with
    | some sem => some ((kernel.setCount sem (kernel.semcount sem + 1)).unblock wtcb errcode)
    | none => none
  else some kernel

/-- Give back what a deleted task waited for. The task stays in the list. -/
def nxsemRecover (kernel : Kernel ι) (task : Nat) : Option (Kernel ι) :=
  if (kernel.tcb task).taskState = .waitSem then
    match (kernel.tcb task).waitsem with
    | some sem =>
      let kernel := kernel.setCount sem (kernel.semcount sem + 1)
      some (kernel.setTcb task { kernel.tcb task with waitsem := none })
    | none => none
  else some kernel

/-- Take a task out of the task lists, as `nxtask_terminate` and `task_restart` do. The first calls
`nxsem_recover` after this, the second before. -/
def taskRemove (kernel : Kernel ι) (task : Nat) : Kernel ι :=
  let kernel := kernel.setTcb task { kernel.tcb task with taskState := .invalid }
  { kernel with waiting := kernel.waiting.erase task }

/-- The loop of `nxsem_reset`, which hands counts to waiting tasks. The result has the counts that
are left. -/
def resetLoop (sem : ι) : Kernel ι → Nat → Kernel ι × Nat
  | kernel, 0 => (kernel, 0)
  | kernel, count + 1 =>
    if kernel.semcount sem < 0 then resetLoop sem (nxsemPost kernel sem).1 count
    else (kernel, count + 1)

/-- Set the count of a semaphore, after handing counts to waiting tasks. -/
def nxsemReset (kernel : Kernel ι) (sem : ι) (count : Nat) : Kernel ι :=
  let done := resetLoop sem kernel count
  if 0 ≤ done.1.semcount sem then done.1.setCount sem done.2 else done.1

end Chewie.Sched
