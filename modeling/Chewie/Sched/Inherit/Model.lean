import Chewie.Lib.Ledger
import Chewie.Sched.Sem.Model

/-!
# Priority inheritance

A semaphore lists the tasks that hold its counts. A task that has to wait raises the priority of
the holders to its own, and what it replaces is kept in a list of pending priorities. When the wait
ends, the priority of the holders falls back. The configuration gives the length of that list; with
length zero there is none, and holders fall back to their base priority at once. Holders are linked
to their semaphore from a pool that is large enough, and a call runs to its end before another
begins.
-/

namespace Chewie.Sched.Inherit

open Chewie

structure Holder where
  htcb : Nat
  counts : Nat
deriving DecidableEq

/-- The semaphores and tasks, with what priority inheritance keeps about them. -/
structure Sems (ι : Type) where
  kernel : Kernel ι
  basePriority : Nat → Nat
  /-- The pending priorities of each task, `pend_reprios` up to `npend_reprio`. -/
  pendReprios : Nat → List Nat
  holders : ι → List Holder

/-- The smallest priority. -/
def schedPriorityMin : Nat := 1

/-- The largest priority. -/
def schedPriorityMax : Nat := 255

variable {ι : Type} [DecidableEq ι]

/-- The current priority of a task. -/
def Sems.schedPriority (sems : Sems ι) (task : Nat) : Nat := (sems.kernel.tcb task).schedPriority

/-- Change the holders of a semaphore. -/
def Sems.setHolders (sems : Sems ι) (sem : ι) (holders : List Holder) : Sems ι :=
  { sems with holders := Function.update sems.holders sem holders }

/-- Change the pending priorities of a task. -/
def Sems.setPend (sems : Sems ι) (task : Nat) (pend : List Nat) : Sems ι :=
  { sems with pendReprios := Function.update sems.pendReprios task pend }

/-- Give a task another priority. A blocked task moves in the list of waiting tasks. The result
tells whether the priority is in range. -/
def nxschedSetpriority (sems : Sems ι) (task priority : Nat) : Sems ι × Bool :=
  if priority < schedPriorityMin ∨ schedPriorityMax < priority then (sems, false)
  else
    let kernel := sems.kernel.setTcb task
      { sems.kernel.tcb task with schedPriority := priority }
    if (sems.kernel.tcb task).taskState = .waitSem then
      let waiting := schedAddprioritized (fun other => (kernel.tcb other).schedPriority) task
        (kernel.waiting.erase task)
      ({ sems with kernel := { kernel with waiting } }, true)
    else ({ sems with kernel }, true)

/-- Give a task another base priority and forget what is pending. -/
def nxschedReprioritize (sems : Sems ι) (task priority : Nat) : Sems ι × Bool :=
  let done := nxschedSetpriority sems task priority
  if done.2 then
    let sems := done.1.setPend task []
    ({ sems with basePriority := Function.update sems.basePriority task priority }, true)
  else done

/-- The container of a holder. -/
def nxsemFindholder (sems : Sems ι) (sem : ι) (htcb : Nat) : Option Holder :=
  (sems.holders sem).find? fun pholder => pholder.htcb = htcb

/-- Change the first container of a holder. -/
def modifyHolder (htcb : Nat) (change : Holder → Holder) : List Holder → List Holder
  | [] => []
  | pholder :: rest =>
    if pholder.htcb = htcb then change pholder :: rest
    else pholder :: modifyHolder htcb change rest

/-- Add a count to a holder. A new holder is linked at the head. -/
def nxsemAddholderTcb (sems : Sems ι) (htcb : Nat) (sem : ι) : Sems ι :=
  match nxsemFindholder sems sem htcb with
  | some _ => sems.setHolders sem (modifyHolder htcb
      (fun pholder => { pholder with counts := pholder.counts + 1 }) (sems.holders sem))
  | none => sems.setHolders sem ({ htcb, counts := 1 } :: sems.holders sem)

/-- Take a count from the running task. -/
def nxsemReleaseholder (sems : Sems ι) (rtcb : Nat) (sem : ι) : Sems ι :=
  sems.setHolders sem (modifyHolder rtcb
    (fun pholder => { pholder with counts := pholder.counts - 1 }) (sems.holders sem))

/-- Remove a holder that has no counts left. -/
def nxsemFindandfreeholder (sems : Sems ι) (sem : ι) (htcb : Nat) : Sems ι :=
  match nxsemFindholder sems sem htcb with
  | some pholder =>
    if pholder.counts ≤ 0 then
      sems.setHolders sem ((sems.holders sem).eraseP fun pholder => pholder.htcb = htcb)
    else sems
  | none => sems

/-- Call a handler for the holders in order, until it says to stop. -/
def nxsemForeachholder (handler : Sems ι → Holder → Sems ι × Bool) :
    Sems ι → List Holder → Sems ι
  | sems, [] => sems
  | sems, pholder :: rest =>
    let done := handler sems pholder
    if done.2 then done.1 else nxsemForeachholder handler done.1 rest

/-- Keep a priority to fall back to, if there is room. -/
def pendReprio (nnestprio : Nat) (sems : Sems ι) (htcb priority : Nat) : Sems ι :=
  sems.setPend htcb (Ledger.push nnestprio priority (sems.pendReprios htcb))

/-- Raise the priority of a holder to that of the running task. -/
def nxsemBoostholderprio (nnestprio rtcb : Nat) (sems : Sems ι) (pholder : Holder) :
    Sems ι × Bool :=
  let htcb := pholder.htcb
  let rpriority := sems.schedPriority rtcb
  if 0 < nnestprio then
    if sems.basePriority htcb < rpriority then
      if sems.schedPriority htcb < rpriority then
        let sems :=
          if sems.basePriority htcb < sems.schedPriority htcb then
            pendReprio nnestprio sems htcb (sems.schedPriority htcb)
          else sems
        ((nxschedSetpriority sems htcb rpriority).1, false)
      else (pendReprio nnestprio sems htcb rpriority, false)
    else (sems, false)
  else if sems.schedPriority htcb < rpriority then
    ((nxschedSetpriority sems htcb rpriority).1, false)
  else (sems, false)

/-- Let the priority of a holder fall back after `stcb` got its count or stopped waiting. -/
def nxsemRestoreholderprio (nnestprio stcb : Nat) (sems : Sems ι) (htcb : Nat) : Sems ι :=
  if sems.schedPriority htcb ≠ sems.basePriority htcb then
    if 0 < nnestprio then
      let pend := sems.pendReprios htcb
      if pend.length < 1 then (nxschedReprioritize sems htcb (sems.basePriority htcb)).1
      else if sems.schedPriority htcb ≤ sems.schedPriority stcb then
        let index := Ledger.highest pend
        let rpriority := pend.getD index 0
        (nxschedSetpriority (sems.setPend htcb (Ledger.dropAt pend index)) htcb rpriority).1
      else match pend.idxOf? (sems.schedPriority stcb) with
        | some index => sems.setPend htcb (Ledger.dropAt pend index)
        | none => sems
    else (nxschedReprioritize sems htcb (sems.basePriority htcb)).1
  else sems

/-- Let all holders fall back. -/
def nxsemRestoreholderprioall (nnestprio stcb : Nat) (sems : Sems ι) (pholder : Holder) :
    Sems ι × Bool :=
  (nxsemRestoreholderprio nnestprio stcb sems pholder.htcb, false)

/-- Let a holder fall back that is not the running task. -/
def nxsemRestoreholderprioA (nnestprio rtcb stcb : Nat) (sems : Sems ι) (pholder : Holder) :
    Sems ι × Bool :=
  if pholder.htcb ≠ rtcb then (nxsemRestoreholderprio nnestprio stcb sems pholder.htcb, false)
  else (sems, false)

/-- Let the running task fall back, and stop. -/
def nxsemRestoreholderprioB (nnestprio rtcb stcb : Nat) (sems : Sems ι) (pholder : Holder) :
    Sems ι × Bool :=
  if pholder.htcb = rtcb then (nxsemRestoreholderprio nnestprio stcb sems rtcb, true)
  else (sems, false)

/-- Let the holders fall back after the running task posted a count that `stcb` got, and remove the
running task from the holders. -/
def nxsemRestorebaseprioTask (nnestprio rtcb : Nat) (sems : Sems ι) (stcb : Option Nat)
    (sem : ι) : Sems ι :=
  let sems := match stcb with
    | some stcb =>
      let sems := nxsemForeachholder (nxsemRestoreholderprioA nnestprio rtcb stcb) sems
        (sems.holders sem)
      nxsemForeachholder (nxsemRestoreholderprioB nnestprio rtcb stcb) sems (sems.holders sem)
    | none => sems
  nxsemFindandfreeholder sems sem rtcb

/-- Change the count of a semaphore by one. -/
def Sems.addCount (sems : Sems ι) (sem : ι) (change : Int) : Sems ι :=
  { sems with kernel := sems.kernel.setCount sem (sems.kernel.semcount sem + change) }

/-- Restart a waiting task. -/
def Sems.unblock (sems : Sems ι) (task : Nat) (errcode : Errno) : Sems ι :=
  { sems with kernel := sems.kernel.unblock task errcode }

/-- Take a count, or raise the holders and wait for one. The result tells whether a count was taken
at once. -/
def nxsemWait (nnestprio : Nat) (sems : Sems ι) (task : Nat) (sem : ι) : Sems ι × Bool :=
  if 0 < sems.kernel.semcount sem then
    let sems := nxsemAddholderTcb (sems.addCount sem (-1)) task sem
    let tcb := { sems.kernel.tcb task with waitsem := none }
    ({ sems with kernel := sems.kernel.setTcb task tcb }, true)
  else
    let sems := sems.addCount sem (-1)
    let sems := nxsemForeachholder (nxsemBoostholderprio nnestprio task) sems (sems.holders sem)
    ({ sems with kernel := sems.kernel.block task sem }, false)

/-- Give a count back from the running task. The result is the task that got it. -/
def nxsemPost (nnestprio : Nat) (sems : Sems ι) (task : Nat) (sem : ι) : Sems ι × Option Nat :=
  let sems := (nxsemReleaseholder sems task sem).addCount sem 1
  if sems.kernel.semcount sem ≤ 0 then
    match sems.kernel.firstWaiter sem with
    | some stcb =>
      let sems := (nxsemAddholderTcb sems stcb sem).unblock stcb .ok
      (nxsemRestorebaseprioTask nnestprio task sems (some stcb) sem, some stcb)
    | none => (nxsemRestorebaseprioTask nnestprio task sems none sem, none)
  else (nxsemRestorebaseprioTask nnestprio task sems none sem, none)

/-- End the wait of a task with an error, after the holders fell back. A task that waits for no
semaphore makes the code follow `NULL`. -/
def nxsemWaitIrq (nnestprio : Nat) (sems : Sems ι) (wtcb : Nat) (errcode : Errno) :
    Option (Sems ι) :=
  if (sems.kernel.tcb wtcb).taskState = .waitSem then
    match (sems.kernel.tcb wtcb).waitsem with
    | some sem =>
      let sems := nxsemForeachholder (nxsemRestoreholderprioall nnestprio wtcb) sems
        (sems.holders sem)
      some ((sems.addCount sem 1).unblock wtcb errcode)
    | none => none
  else some sems

end Chewie.Sched.Inherit
