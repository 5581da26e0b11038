import Chewie.Sched.Sem.Model

/-!
# The list of tasks that are ready to run

The tasks that can run are in `g_readytorun`, in the order of priority, and the first of them runs.
A task that locks the scheduler keeps the processor: a task of a higher priority that becomes ready
meanwhile goes to `g_pendingtasks`, and the two lists are merged later. Every other task is in the
list of its state, or in none. `DEBUGASSERT` is compiled to nothing, so that the two list operations
inside it in `nxsched_readytorun_setpriority` are not performed. An operation that follows `NULL`
has no result.
-/

namespace Chewie.Sched.Ready

/-- The states of a task that waits. -/
inductive BlockedState where
  | inactive
  | waitSem
  | waitSig
  | waitMqnotempty
  | waitMqnotfull
deriving DecidableEq

inductive TaskState where
  | invalid
  | pending
  | readytorun
  | running
  | blocked (state : BlockedState)
deriving DecidableEq

/-- The task lists. -/
inductive Tasklist where
  | readytorun
  | pendingtasks
  | blocked (state : BlockedState)
deriving DecidableEq

/-- The list of a state in `g_tasklisttable`. -/
def TaskState.tasklist : TaskState → Option Tasklist
  | .invalid => none
  | .pending => some .pendingtasks
  | .readytorun => some .readytorun
  | .running => some .readytorun
  | .blocked state => some (.blocked state)

/-- `TLIST_ISPRIORITIZED`. -/
def TaskState.prioritized : TaskState → Bool
  | .invalid => false
  | .pending => true
  | .readytorun => true
  | .running => true
  | .blocked .inactive => false
  | .blocked .waitSem => true
  | .blocked .waitSig => false
  | .blocked .waitMqnotempty => true
  | .blocked .waitMqnotfull => true

/-- The part of a task control block that the lists use. -/
structure Tcb where
  taskState : TaskState
  schedPriority : Nat
  lockcount : Int
deriving DecidableEq

/-- The tasks and their lists. -/
structure Sys where
  tcb : Nat → Tcb
  lists : Tasklist → List Nat

/-- The idle task, which is always ready to run. -/
def idle : Nat := 0

/-- The priority of a task. -/
def Sys.priority (sys : Sys) (task : Nat) : Nat := (sys.tcb task).schedPriority

/-- Change the state of a task. -/
def Sys.setState (sys : Sys) (task : Nat) (state : TaskState) : Sys :=
  { sys with tcb := Function.update sys.tcb task { sys.tcb task with taskState := state } }

/-- Change the priority of a task. -/
def Sys.setPriority (sys : Sys) (task priority : Nat) : Sys :=
  { sys with tcb := Function.update sys.tcb task { sys.tcb task with schedPriority := priority } }

/-- Change how often a task has locked the scheduler. -/
def Sys.setLockcount (sys : Sys) (task : Nat) (count : Int) : Sys :=
  { sys with tcb := Function.update sys.tcb task { sys.tcb task with lockcount := int16 count } }

/-- Change a list. -/
def Sys.setList (sys : Sys) (list : Tasklist) (tasks : List Nat) : Sys :=
  { sys with lists := Function.update sys.lists list tasks }

/-- The result of `sched_addprioritized`: the task becomes the head of the list. -/
def addsHead (priority : Nat → Nat) (task : Nat) : List Nat → Bool
  | [] => true
  | next :: _ => priority next < priority task

/-- Insert a task into a list in the order of priority. -/
def Sys.addprioritized (sys : Sys) (task : Nat) (list : Tasklist) : Sys :=
  sys.setList list (schedAddprioritized sys.priority task (sys.lists list))

/-- `sched_addreadytorun`. The result tells whether the head of the list has changed. -/
def schedAddreadytorun (sys : Sys) (btcb : Nat) : Option (Sys × Bool) :=
  match sys.lists .readytorun with
  | [] => none
  | rtcb :: _ =>
    if 0 < (sys.tcb rtcb).lockcount ∧ sys.priority rtcb < sys.priority btcb then
      some ((sys.addprioritized btcb .pendingtasks).setState btcb .pending, false)
    else if addsHead sys.priority btcb (sys.lists .readytorun) then
      some (((sys.addprioritized btcb .readytorun).setState btcb .running).setState rtcb
        .readytorun, true)
    else some ((sys.addprioritized btcb .readytorun).setState btcb .readytorun, false)

/-- `sched_removereadytorun`. The result tells whether the head of the list has changed. -/
def schedRemovereadytorun (sys : Sys) (rtcb : Nat) : Option (Sys × Bool) :=
  let tasks := sys.lists .readytorun
  let removed := (sys.setList .readytorun (tasks.erase rtcb)).setState rtcb .invalid
  if tasks.head? = some rtcb then
    match tasks.tail with
    | [] => none
    | nxttcb :: _ => some (removed.setState nxttcb .running, true)
  else some (removed, false)

/-- Go on to the first task of a lower priority than `ptcb`. `passed` has the tasks before the place
in the list, `rest` those from there on. -/
def advance (priority : Nat → Nat) (ptcb : Nat) (passed : List Nat) :
    List Nat → List Nat × List Nat
  | [] => (passed, [])
  | rtcb :: rest =>
    if priority ptcb ≤ priority rtcb then advance priority ptcb (passed ++ [rtcb]) rest
    else (passed, rtcb :: rest)

/-- The loop of `sched_mergepending` over the pending tasks. The search for the place of a task
starts at the place of the task before it. -/
def mergeLoop (sys : Sys) : List Nat → List Nat → List Nat → Bool → Option (Sys × Bool)
  | [], passed, rest, ret =>
    some ((sys.setList .readytorun (passed ++ rest)).setList .pendingtasks [], ret)
  | ptcb :: more, passed, rest, ret =>
    match advance sys.priority ptcb passed rest with
    | (_, []) => none
    | ([], rtcb :: rest) =>
      mergeLoop ((sys.setState rtcb .readytorun).setState ptcb .running) more []
        (ptcb :: rtcb :: rest) true
    | (passed, rtcb :: rest) =>
      mergeLoop (sys.setState ptcb .readytorun) more passed (ptcb :: rtcb :: rest) ret

/-- `sched_mergepending`. The result tells whether the head of the list has changed. -/
def schedMergepending (sys : Sys) : Option (Sys × Bool) :=
  mergeLoop sys (sys.lists .pendingtasks) [] (sys.lists .readytorun) false

/-- Merge the lists if a task is pending. -/
def releasePending (sys : Sys) : Option Sys :=
  if sys.lists .pendingtasks = [] then some sys else (schedMergepending sys).map Prod.fst

/-- `up_reprioritize_rtr`, for a task in the list and a priority in range. -/
def upReprioritizeRtr (sys : Sys) (tcb priority : Nat) : Option Sys :=
  (schedRemovereadytorun sys tcb).bind fun (sys, removed) =>
    (schedAddreadytorun (sys.setPriority tcb priority) tcb).bind fun (sys, added) =>
      if removed ^^ added then releasePending sys else some sys

def nxschedRunningSetpriority (sys : Sys) (tcb priority : Nat) : Option Sys :=
  match (sys.lists .readytorun).tail with
  | [] => none
  | nxttcb :: _ =>
    if priority ≤ sys.priority nxttcb then upReprioritizeRtr sys tcb priority
    else some (sys.setPriority tcb priority)

/-- `nxsched_readytorun_setpriority`. When the task does not come before the running task, only its
priority is set. -/
def nxschedReadytorunSetpriority (sys : Sys) (tcb priority : Nat) : Option Sys :=
  match sys.lists .readytorun with
  | [] => none
  | rtcb :: _ =>
    if sys.priority rtcb < priority then upReprioritizeRtr sys tcb priority
    else some (sys.setPriority tcb priority)

def nxschedBlockedSetpriority (sys : Sys) (tcb priority : Nat) : Sys :=
  match (sys.tcb tcb).taskState.tasklist with
  | none => sys.setPriority tcb priority
  | some list =>
    if (sys.tcb tcb).taskState.prioritized then
      ((sys.setList list ((sys.lists list).erase tcb)).setPriority tcb priority).addprioritized tcb
        list
    else sys.setPriority tcb priority

def schedPriorityMin : Int := 1

def schedPriorityMax : Int := 255

/-- `nxsched_setpriority`. A priority out of range changes nothing. -/
def nxschedSetpriority (sys : Sys) (tcb : Nat) (priority : Int) : Option Sys :=
  if priority < schedPriorityMin ∨ schedPriorityMax < priority then some sys
  else
    match (sys.tcb tcb).taskState with
    | .running => nxschedRunningSetpriority sys tcb priority.toNat
    | .readytorun => nxschedReadytorunSetpriority sys tcb priority.toNat
    | _ => some (nxschedBlockedSetpriority sys tcb priority.toNat)

/-- `sched_lock`, not from an interrupt. -/
def schedLock (sys : Sys) : Sys :=
  match sys.lists .readytorun with
  | [] => sys
  | rtcb :: _ => sys.setLockcount rtcb ((sys.tcb rtcb).lockcount + 1)

/-- `sched_unlock`, not from an interrupt. -/
def schedUnlock (sys : Sys) : Option Sys :=
  match sys.lists .readytorun with
  | [] => some sys
  | rtcb :: _ =>
    let count := (sys.tcb rtcb).lockcount
    let sys := if 0 < count then sys.setLockcount rtcb (count - 1) else sys
    if (sys.tcb rtcb).lockcount ≤ 0 then releasePending (sys.setLockcount rtcb 0) else some sys

def schedAddblocked (sys : Sys) (btcb : Nat) (state : BlockedState) : Sys :=
  let list := Tasklist.blocked state
  let sys :=
    if (TaskState.blocked state).prioritized then sys.addprioritized btcb list
    else sys.setList list (sys.lists list ++ [btcb])
  sys.setState btcb (.blocked state)

def upBlockTask (sys : Sys) (tcb : Nat) (state : BlockedState) : Option Sys :=
  (schedRemovereadytorun sys tcb).bind fun (sys, _) =>
    releasePending (schedAddblocked sys tcb state)

def schedRemoveblocked (sys : Sys) (btcb : Nat) (state : BlockedState) : Sys :=
  let list := Tasklist.blocked state
  (sys.setList list ((sys.lists list).erase btcb)).setState btcb .invalid

/-- `up_unblock_task`, for a task that is blocked. -/
def upUnblockTask (sys : Sys) (tcb : Nat) : Option Sys :=
  match (sys.tcb tcb).taskState with
  | .blocked state => (schedAddreadytorun (schedRemoveblocked sys tcb state) tcb).map Prod.fst
  | _ => none

/-- The operations on the lists. -/
inductive Op where
  | addreadytorun (task : Nat)
  | removereadytorun (task : Nat)
  | mergepending
  | setpriority (task : Nat) (priority : Int)
  | lock
  | unlock
  | block (task : Nat) (state : BlockedState)
  | unblock (task : Nat)
deriving DecidableEq

def step (sys : Sys) : Op → Option Sys
  | .addreadytorun task => (schedAddreadytorun sys task).map Prod.fst
  | .removereadytorun task => (schedRemovereadytorun sys task).map Prod.fst
  | .mergepending => (schedMergepending sys).map Prod.fst
  | .setpriority task priority => nxschedSetpriority sys task priority
  | .lock => some (schedLock sys)
  | .unlock => schedUnlock sys
  | .block task state => upBlockTask sys task state
  | .unblock task => upUnblockTask sys task

/-- After start-up only the idle task is ready. The other tasks have the priorities that they are
created with. -/
def boot (priority : Nat → Nat) : Sys where
  tcb task :=
    if task = idle then ⟨.running, 0, 0⟩ else ⟨.invalid, priority task, 0⟩
  lists
    | .readytorun => [idle]
    | _ => []

end Chewie.Sched.Ready
