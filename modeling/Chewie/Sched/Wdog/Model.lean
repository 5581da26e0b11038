import Chewie.Lib.Delta
import Chewie.Lib.Run

/-!
# Watchdog timers

Active watchdogs are in one list. Each has its lag, the ticks after the watchdog before it. Starting
a watchdog walks the list to its place, and the timer interrupt counts down the first lag and runs
every watchdog whose lag is used up. The functions that run may start and cancel watchdogs
themselves; what they do is given from outside. Lags are integers here, and `Timers.Sound` bounds
them by the range of the type.
-/

namespace Chewie.Sched

open Chewie

/-- A watchdog in the list, and the number of the `wd_start` that put it there. The code keeps no
such number; it names the start in the books. -/
structure Timer where
  wdog : Nat
  start : Nat
deriving DecidableEq

/-- The watchdogs, and the books about them. The code changes the list and the flags only. The books
are kept where calls are made: those of the callers, of the timer interrupt and of the watchdog
functions. -/
structure Timers where
  activelist : List (Timer × Int)
  active : Nat → Bool
  /-- The calls of `wd_timer`. -/
  ticks : Int
  /-- The watchdog of each start. -/
  started : List Nat
  /-- For each start the call of `wd_timer` that is due to run it. -/
  starts : List Int
  /-- The calls of `wd_timer` that ran a watchdog, and the start of that watchdog, in order. -/
  runs : List (Int × Nat)
  /-- The starts that were cancelled, deleted or replaced by another start. -/
  stops : List Nat
  /-- What calls of `wd_gettime` returned, and the calls of `wd_timer` that were left. -/
  reads : List (Int × Int)

/-- The largest `int32_t`. -/
def int32Max : Int := 0x7fffffff

/-- Where `wd_start` is in the list: the time of the current watchdog, those before it, the current
one and those behind it. -/
structure Spot where
  now : Int
  front : List (Timer × Int)
  curr : Timer × Int
  rest : List (Timer × Int)

/-- Advance to positive time. -/
def toPositive (now : Int) (front : List (Timer × Int)) (curr : Timer × Int) :
    List (Timer × Int) → Spot
  | [] => ⟨now + curr.2, front, curr, []⟩
  | next :: rest =>
    if now + curr.2 < 0 then toPositive (now + curr.2) (front ++ [curr]) next rest
    else ⟨now + curr.2, front, curr, next :: rest⟩

/-- Advance past shorter delays. -/
def pastShorter (delay now : Int) (front : List (Timer × Int)) (curr : Timer × Int) :
    List (Timer × Int) → Spot
  | [] => ⟨now, front, curr, []⟩
  | next :: rest =>
    if now ≤ delay then pastShorter delay (now + next.2) (front ++ [curr]) next rest
    else ⟨now, front, curr, next :: rest⟩

/-- Put a watchdog into the list. -/
def insertWdog (delay : Int) (timer : Timer) : List (Timer × Int) → List (Timer × Int)
  | [] => [(timer, delay)]
  | head :: rest =>
    let spot := toPositive 0 [] head rest
    let spot := pastShorter delay spot.now spot.front spot.curr spot.rest
    if delay < spot.now then
      let lag := delay - (spot.now - spot.curr.2)
      spot.front ++ (timer, lag) :: (spot.curr.1, spot.curr.2 - lag) :: spot.rest
    else
      let lag := delay - spot.now
      match spot.rest with
      | [] => spot.front ++ [spot.curr, (timer, lag)]
      | next :: rest => spot.front ++ spot.curr :: (timer, lag) :: (next.1, next.2 - lag) :: rest

/-- Take a watchdog out of the list. The next one inherits its lag. -/
def removeWdog (wdog : Nat) : List (Timer × Int) → Option (Timer × List (Timer × Int))
  | [] => none
  | (timer, lag) :: rest =>
    if timer.wdog = wdog then some (timer, Delta.carry lag rest)
    else (removeWdog wdog rest).map fun found => (found.1, (timer, lag) :: found.2)

/-- Cancel a watchdog. The code follows `NULL` if an active watchdog is not in the list. -/
def wdCancel (timers : Timers) (wdog : Nat) : Option Timers :=
  if timers.active wdog then
    (removeWdog wdog timers.activelist).map fun found =>
      { timers with
        activelist := found.2
        active := Function.update timers.active wdog false }
  else some timers

/-- The delay and one more tick, in the range that can be handled. -/
def adjust (delay : Int) : Int :=
  if delay ≤ 0 then 1 else if int32Max < delay + 1 then delay else delay + 1

/-- Start a watchdog, which is cancelled first if it is active. -/
def wdStart (timers : Timers) (wdog : Nat) (delay : Int) (start : Nat) : Option Timers :=
  if delay < 0 then some timers
  else
    (wdCancel timers wdog).map fun timers =>
      { timers with
        activelist := insertWdog (adjust delay) ⟨wdog, start⟩ timers.activelist
        active := Function.update timers.active wdog true }

/-- Stop a watchdog before it is released. -/
def wdDelete (timers : Timers) (wdog : Nat) : Option Timers :=
  if timers.active wdog then wdCancel timers wdog else some timers

def gettimeLoop (wdog : Nat) (delay : Int) : List (Timer × Int) → Int
  | [] => 0
  | (timer, lag) :: rest =>
    if timer.wdog = wdog then delay + lag else gettimeLoop wdog (delay + lag) rest

/-- The ticks until a watchdog expires. -/
def wdGettime (timers : Timers) (wdog : Nat) : Int :=
  if timers.active wdog then gettimeLoop wdog 0 timers.activelist else 0

/-- By the books, the starts of a watchdog that have not run and were not stopped. -/
def Timers.current (timers : Timers) (wdog : Nat) : List Nat :=
  (List.range timers.starts.length).filter fun start =>
    timers.started[start]? = some wdog ∧ start ∉ timers.runs.map Prod.snd ∧ start ∉ timers.stops

/-- By the books, the calls of `wd_timer` until a watchdog expires. -/
def Timers.left (timers : Timers) (wdog : Nat) : Int :=
  match timers.current wdog with
  | [] => 0
  | start :: _ => timers.starts.getD start 0 - timers.ticks

/-- What a task or a watchdog function may do. -/
inductive Act where
  | start (wdog : Nat) (delay : Int)
  | cancel (wdog : Nat)
  | delete (wdog : Nat)
  | gettime (wdog : Nat)
deriving DecidableEq

/-- A call, and what the books say about it. A negative delay is refused and starts nothing. -/
def Timers.act (timers : Timers) : Act → Option Timers
  | .start wdog delay =>
    (wdStart timers wdog delay timers.starts.length).map fun next =>
      if delay < 0 then next
      else { next with
        started := timers.started ++ [wdog]
        starts := timers.starts ++ [timers.ticks + delay + 1]
        stops := timers.stops ++ timers.current wdog }
  | .cancel wdog =>
    (wdCancel timers wdog).map fun next =>
      { next with stops := timers.stops ++ timers.current wdog }
  | .delete wdog =>
    (wdDelete timers wdog).map fun next =>
      { next with stops := timers.stops ++ timers.current wdog }
  | .gettime wdog =>
    some { timers with reads := timers.reads ++ [(wdGettime timers wdog, timers.left wdog)] }

/-- A watchdog function: its call is noted, and it makes the calls that are given for it. -/
def Timers.invoke (timers : Timers) (timer : Timer) (acts : List Act) : Option Timers :=
  Run.run Timers.act { timers with runs := timers.runs ++ [(timers.ticks, timer.start)] } acts

/-- Run the watchdogs whose lag is used up. Each runs the next list of calls. -/
def wdExpiration : Nat → List (List Act) → Timers → Option Timers
  | fuel, callbacks, timers =>
    match timers.activelist with
    | [] => some timers
    | (timer, lag) :: rest =>
      if lag ≤ 0 then
        match fuel with
        | 0 => none
        | fuel + 1 =>
          let timers :=
            { timers with
              activelist := Delta.carry lag rest
              active := Function.update timers.active timer.wdog false }
          (timers.invoke timer (callbacks.headD [])).bind (wdExpiration fuel callbacks.tail)
      else some timers

/-- The timer interrupt. -/
def wdTimer (callbacks : List (List Act)) (timers : Timers) : Option Timers :=
  match timers.activelist with
  | [] => some timers
  | (timer, lag) :: rest =>
    wdExpiration timers.activelist.length callbacks
      { timers with activelist := (timer, lag - 1) :: rest }

/-- What happens to the watchdogs. -/
inductive WdogOp where
  | call (act : Act)
  /-- A timer interrupt, and what each watchdog function does that it runs. -/
  | tick (callbacks : List (List Act))
deriving DecidableEq

def Timers.step (timers : Timers) : WdogOp → Option Timers
  | .call act => timers.act act
  | .tick callbacks => wdTimer callbacks { timers with ticks := timers.ticks + 1 }

/-- No watchdog was started yet. -/
def Timers.initial : Timers :=
  { activelist := []
    active := fun _ => false
    ticks := 0
    started := []
    starts := []
    runs := []
    stops := []
    reads := [] }

/-- Delays are in range. -/
def Act.InRange : Act → Prop
  | .start _ delay => 0 ≤ delay ∧ delay < int32Max
  | _ => True

/-- The delays of a step are in range. -/
def WdogOp.InRange : WdogOp → Prop
  | .call act => act.InRange
  | .tick callbacks => ∀ acts ∈ callbacks, ∀ act ∈ acts, act.InRange

instance decidableActInRange : ∀ act : Act, Decidable act.InRange
  | .start .. => inferInstanceAs (Decidable (_ ∧ _))
  | .cancel .. | .delete .. | .gettime .. => isTrue trivial

instance decidableWdogOpInRange : ∀ op : WdogOp, Decidable op.InRange
  | .call act => inferInstanceAs (Decidable act.InRange)
  | .tick callbacks => inferInstanceAs (Decidable (∀ acts ∈ callbacks, ∀ act ∈ acts, _))

end Chewie.Sched
