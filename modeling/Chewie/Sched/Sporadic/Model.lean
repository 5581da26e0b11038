import Chewie.Lib.Signed
import Chewie.Lib.Word

/-!
# Sporadic scheduling

A task with the sporadic policy runs at a high priority for its budget and then at a low priority
for the rest of the replenishment period. Time of the budget in which the task was suspended is
given back later: a replenishment timer is started with a delay and an amount. The main timer and
the replenishments take their timers from one array. `clock` is the number of ticks, of which the
tick counter has the low 32 bits. What the code does not keep is recorded beside its state: for how
many ticks the task has been suspended since `eventtime` was set, and the replenishments that were
started. Priorities are left out.
-/

namespace Chewie.Sched.Sporadic

/-- Which function a timer calls when it expires. -/
inductive TimerKind where
  | budget
  | interval
  | replenish
  | delay
deriving DecidableEq

/-- `struct replenishment_s`. -/
structure Repl where
  budget : Nat
  alloced : Bool
  main : Bool
  replenish : Bool
  /-- What the timer waits for, and the ticks it was started with. -/
  timer : Option (TimerKind × Nat)
deriving DecidableEq

/-- A replenishment that was started by `sporadic_replenish_delay`. -/
structure Start where
  period : Nat
  replenish : Nat
  /-- For how many ticks the task had been suspended since `eventtime`. -/
  lost : Nat
deriving DecidableEq

/-- The task with its `struct sporadic_s`. -/
structure Sys where
  /-- The time slice of the task, of type `int32_t`: positive in the high-priority phase, zero in the
  low-priority phase, and negative while the scheduler is locked past the budget. -/
  timeslice : Int
  suspended : Bool
  maxRepl : Nat
  nrepls : Nat
  replPeriod : Nat
  budget : Nat
  /-- The tick counter when the task was suspended or restarted or the budget was started. -/
  eventtime : Nat
  active : Option Nat
  replenishments : Nat → Repl
  clock : Nat
  lost : Nat
  started : List Start

def Sys.clockSystimer (sys : Sys) : Nat := Word.wrap 32 sys.clock

/-- Change a timer of the array. -/
def Sys.setRepl (sys : Sys) (index : Nat) (repl : Repl) : Sys :=
  { sys with replenishments := Function.update sys.replenishments index repl }

/-- Set `eventtime` to the time now. -/
def Sys.mark (sys : Sys) : Sys := { sys with eventtime := sys.clockSystimer, lost := 0 }

/-- `wd_start`, which refuses a delay that is negative as `int32_t`. -/
def Repl.wdStart (repl : Repl) (kind : TimerKind) (ticks : Nat) : Repl :=
  if ticks < 2 ^ 31 then { repl with timer := some (kind, ticks) } else repl

def sporadicAllocRepl (sys : Sys) : Option Nat × Sys :=
  if sys.nrepls < sys.maxRepl then
    match (List.range sys.maxRepl).find? fun index => !(sys.replenishments index).alloced with
    | some index =>
      let repl : Repl := { sys.replenishments index with
        alloced := true, main := false, replenish := false }
      (some index, { sys.setRepl index repl with nrepls := (sys.nrepls + 1) % 2 ^ 8 })
    | none => (none, sys)
  else (none, sys)

def sporadicTimerCancel (sys : Sys) : Sys :=
  { sys with
    replenishments := fun index => { sys.replenishments index with
      alloced := false, main := false, replenish := false, timer := none }
    nrepls := 0 }

def sporadicBudgetStart (sys : Sys) (mrepl : Nat) : Sys :=
  let repl : Repl := { sys.replenishments mrepl with budget := sys.budget, replenish := false }
  ({ sys with timeslice := Signed.wrap 32 sys.budget, active := some mrepl }.setRepl mrepl
    (repl.wdStart .budget sys.budget)).mark

def sporadicIntervalStart (sys : Sys) (mrepl : Nat) : Sys :=
  let repl : Repl := { sys.replenishments mrepl with replenish := false }
  let sys := { sys with timeslice := 0, active := some mrepl }.setRepl mrepl repl
  let remainder := Word.sub 32 sys.replPeriod sys.budget
  if remainder = 0 then sporadicBudgetStart sys mrepl
  else sys.setRepl mrepl (repl.wdStart .interval remainder)

def sporadicReplenishStart (sys : Sys) (index : Nat) : Sys :=
  let repl := sys.replenishments index
  { sys with timeslice := Signed.wrap 32 repl.budget, active := some index }.setRepl index
    ({ repl with replenish := true }.wdStart .replenish repl.budget)

def sporadicReplenishDelay (sys : Sys) (index period replenish : Nat) : Sys :=
  let repl : Repl := { sys.replenishments index with budget := replenish, replenish := true }
  { sys.setRepl index (repl.wdStart .delay period) with
    started := sys.started ++ [⟨period, replenish, sys.lost⟩] }

/-- `sporadic_budget_expire`. The unrealized time is the event time minus the time now. -/
def sporadicBudgetExpire (sys : Sys) (mrepl : Nat) (locked : Bool) : Sys :=
  if locked then sporadicTimerCancel { sys with timeslice := -1 }
  else
    let unrealized := Word.sub 32 sys.eventtime sys.clockSystimer
    let sys :=
      if sys.suspended ∧ 0 < unrealized then
        match sporadicAllocRepl sys with
        | (some repl, sys) =>
          sporadicReplenishDelay sys repl (Word.sub 32 (sys.replPeriod / 2) unrealized) unrealized
        | (none, sys) => sys
      else sys
    sporadicIntervalStart sys mrepl

def sporadicReplenishExpire (sys : Sys) (index : Nat) (locked : Bool) : Sys :=
  if locked then sporadicTimerCancel { sys with timeslice := -1 }
  else
    let repl : Repl := { sys.replenishments index with
      alloced := false, main := false, replenish := false }
    { sys.setRepl index repl with timeslice := 0, nrepls := (sys.nrepls + (2 ^ 8 - 1)) % 2 ^ 8 }

/-- A timer of the array expires and calls its function. -/
def expire (sys : Sys) (index : Nat) (locked : Bool) : Option Sys :=
  match (sys.replenishments index).timer with
  | none => none
  | some (kind, _) =>
    let sys := sys.setRepl index { sys.replenishments index with timer := none }
    match kind with
    | .budget => some (sporadicBudgetExpire sys index locked)
    | .interval => some (sporadicBudgetStart sys index)
    | .replenish => some (sporadicReplenishExpire sys index locked)
    | .delay => some (sporadicReplenishStart sys index)

/-- `sched_sporadic_start`, for the parameters that are set. There is always a timer for the main
replenishment. -/
def schedSporadicStart (sys : Sys) : Option Sys :=
  match sporadicAllocRepl sys with
  | (none, _) => none
  | (some mrepl, sys) =>
    let sys := sys.setRepl mrepl { sys.replenishments mrepl with main := true }
    some (sporadicBudgetStart { sys.mark with suspended := true } mrepl)

def schedSporadicSuspend (sys : Sys) : Sys :=
  if sys.suspended then sys else { sys with suspended := true }.mark

/-- `sched_sporadic_resume`. `eventtime` is left as it is where the function returns early. Without
an active timer the code follows `NULL`. -/
def schedSporadicResume (sys : Sys) : Option Sys :=
  if !sys.suspended then some sys
  else
    let unrealized := Word.sub 32 sys.clockSystimer sys.eventtime
    let sys := { sys with suspended := false }
    if 0 < sys.timeslice ∧ 0 < unrealized then
      if sys.timeslice ≤ (unrealized : Int) then some sys
      else
        match sys.active with
        | none => none
        | some active =>
          let sys := { sys with timeslice := sys.timeslice - unrealized }
          if sys.timeslice < (sys.replenishments active).budget then
            match sporadicAllocRepl sys with
            | (some repl, sys) =>
              some (sporadicReplenishDelay sys repl
                (Word.sub 32 (sys.replPeriod / 2) unrealized) unrealized)
            | (none, sys) => some sys.mark
          else some sys.mark
    else some sys.mark

/-- `sched_sporadic_process`. The comparison of `ticks` with the time slice is unsigned. The result
has the number of ticks that the function returns. -/
def schedSporadicProcess (sys : Sys) (ticks : Nat) (noswitches locked : Bool) : Sys × Nat :=
  if sys.timeslice = 0 then (sys, 0)
  else if (sys.timeslice % 2 ^ 32).toNat ≤ ticks then
    if locked then ({ sporadicTimerCancel sys with timeslice := -1 }, 0)
    else if noswitches then ({ sys with timeslice := 1 }, 1)
    else if sys.replPeriod ≤ sys.budget then
      ({ sys with timeslice := Signed.wrap 32 sys.budget }, sys.budget)
    else (sys, 0)
  else
    let timeslice := Signed.wrap 32 (sys.timeslice - ticks)
    ({ sys with timeslice := timeslice }, (timeslice % 2 ^ 32).toNat)

/-- `sched_sporadic_lowpriority`. Without a free timer the code follows `NULL`. -/
def schedSporadicLowpriority (sys : Sys) : Option Sys :=
  match sporadicAllocRepl { sys with timeslice := 0 } with
  | (none, _) => none
  | (some mrepl, sys) =>
    let repl : Repl := { sys.replenishments mrepl with main := true, budget := sys.budget }
    some (sporadicIntervalStart ({ sys with active := some mrepl }.setRepl mrepl repl) mrepl)

/-- What can happen to the task. -/
inductive Op where
  | tick (ticks : Nat)
  | suspend
  | resume
  | process (ticks : Nat) (noswitches locked : Bool)
  /-- `sched_unlock` finds a negative time slice and calls `sched_sporadic_lowpriority`. -/
  | unlock
  /-- A timer expires. `locked` tells whether the task has locked the scheduler. -/
  | expire (index : Nat) (locked : Bool)
deriving DecidableEq

def step (sys : Sys) : Op → Option Sys
  | .tick ticks =>
    some { sys with
      clock := sys.clock + ticks, lost := if sys.suspended then sys.lost + ticks else sys.lost }
  | .suspend => some (schedSporadicSuspend sys)
  | .resume => schedSporadicResume sys
  | .process ticks noswitches locked =>
    some (schedSporadicProcess sys (Word.wrap 32 ticks) noswitches locked).1
  | .unlock => if sys.timeslice < 0 then schedSporadicLowpriority sys else none
  | .expire index locked => expire sys index locked

end Chewie.Sched.Sporadic
