import Chewie.Lib.Word

/-!
# The kernel work queue

Work is put into a queue with a delay, and worker threads take what is due from it and call it.
`work_process` looks through the queue from its head, with interrupts disabled, so that the tick
counter stands still. It leaves the critical section to call a worker, and then looks through the
queue from the head again, with the same `next` and `stick`. When nothing is due it sleeps. The tick
counter has 32 bits; `clock` is the number of ticks without wrapping. What happened is recorded
beside the state of the code, the last event first.
-/

namespace Chewie.Sched.Wqueue

/-- `struct work_s`. Workers and arguments are pointers. -/
structure Work where
  /-- The worker to call, or `NULL` when the work is not queued. -/
  worker : Option Nat
  arg : Nat
  qtime : Nat
  delay : Nat

inductive Thread where
  | asleep
  | busy (stick next : Nat)
deriving DecidableEq

/-- What happened. -/
inductive Event where
  | queued (work worker arg delay time : Nat)
  | cancelled (work : Nat)
  | ran (work worker arg time : Nat)
  /-- A thread went to sleep for `next` ticks, while the work in the queue was due in `remaining`
  ticks. -/
  | slept (wndx next : Nat) (remaining : List Nat)
deriving DecidableEq

/-- The work that an event is about. -/
def Event.subject : Event → Option Nat
  | .queued work .. => some work
  | .cancelled work => some work
  | .ran work .. => some work
  | .slept .. => none

/-- The queue, the threads and the record. -/
structure Sys where
  clock : Nat
  work : Nat → Work
  q : List Nat
  thread : Nat → Thread
  start : Nat → Nat
  history : List Event

def Sys.clockSystimer (sys : Sys) : Nat := Word.wrap 32 sys.clock

def workDelayMax : Nat := 2 ^ 32 - 1

def workQqueue (sys : Sys) (work worker arg delay : Nat) : Sys :=
  let q := if (sys.work work).worker ≠ none then sys.q.erase work else sys.q
  { sys with
    work := Function.update sys.work work ⟨some worker, arg, sys.clockSystimer, delay⟩
    q := q ++ [work]
    start := Function.update sys.start work sys.clock
    history := .queued work worker arg delay sys.clock :: sys.history }

def workQcancel (sys : Sys) (work : Nat) : Sys :=
  let sys := if (sys.work work).worker ≠ none then
      { sys with
        q := sys.q.erase work
        work := Function.update sys.work work { sys.work work with worker := none } }
    else sys
  { sys with history := .cancelled work :: sys.history }

/-- The `remaining` of work that is not due, which counts the time of the pass twice. -/
def remainingOf (work : Work) (ctick stick : Nat) : Nat :=
  let elapsed := Word.add 32 (Word.sub 32 ctick work.qtime) (Word.sub 32 ctick stick)
  work.delay - if work.delay < elapsed then work.delay else elapsed

/-- The loop of `work_process`, up to the first work that is due. The result has `next`. -/
def scan (work : Nat → Work) (ctick stick : Nat) : List Nat → Nat → Option Nat × Nat
  | [], next => (none, next)
  | item :: rest, next =>
    if (work item).delay ≤ Word.sub 32 ctick (work item).qtime then (some item, next)
    else
      let remaining := remainingOf (work item) ctick stick
      scan work ctick stick rest (if remaining < next then remaining else next)

/-- The thread sleeps for `next` ticks, or until it is signalled when `next` is `WORK_DELAY_MAX` or
the thread is not the first. -/
def Sys.sleep (sys : Sys) (wndx next : Nat) : Sys :=
  { sys with
    thread := Function.update sys.thread wndx .asleep
    history := .slept wndx next
      (sys.q.map fun item => sys.start item + (sys.work item).delay - sys.clock) :: sys.history }

/-- `work_process` from the moment it has entered the critical section, to the call of a worker or
to the sleep. `dq_rem` clears the link to the next work, so that the loop ends after work without a
worker. -/
def workProcess (sys : Sys) (wndx stick next : Nat) : Sys :=
  match scan sys.work sys.clockSystimer stick sys.q next with
  | (none, next) => sys.sleep wndx next
  | (some item, next) =>
    let sys := { sys with q := sys.q.erase item }
    match (sys.work item).worker with
    | none => sys.sleep wndx next
    | some worker =>
      { sys with
        work := Function.update sys.work item { sys.work item with worker := none }
        thread := Function.update sys.thread wndx (.busy stick next)
        history := .ran item worker (sys.work item).arg sys.clock :: sys.history }

/-- The steps of the queue and its users. -/
inductive Op where
  | tick (ticks : Nat)
  | queue (work worker arg delay : Nat)
  | cancel (work : Nat)
  /-- A thread wakes up, because its time is over or it is signalled, and calls `work_process`. -/
  | wake (wndx : Nat)
  | finish (wndx : Nat)
deriving DecidableEq

def step (sys : Sys) : Op → Option Sys
  | .tick ticks => some { sys with clock := sys.clock + ticks }
  | .queue work worker arg delay => some (workQqueue sys work worker arg delay)
  | .cancel work => some (workQcancel sys work)
  | .wake wndx =>
    match sys.thread wndx with
    | .asleep => some (workProcess sys wndx sys.clockSystimer workDelayMax)
    | .busy _ _ => none
  | .finish wndx =>
    match sys.thread wndx with
    | .asleep => none
    | .busy stick next => some (workProcess sys wndx stick next)

/-- Which steps can happen: threads wake up when they sleep and return from workers that they have
called. The largest delay means that work is not waited for. -/
def Allowed (sys : Sys) : Op → Prop
  | .tick _ => True
  | .queue _ _ _ delay => delay < workDelayMax
  | .cancel _ => True
  | .wake wndx => sys.thread wndx = .asleep
  | .finish wndx => sys.thread wndx ≠ .asleep

instance decidableAllowed (sys : Sys) : ∀ op, Decidable (Allowed sys op)
  | .queue .. | .wake .. | .finish .. => by dsimp only [Allowed]; infer_instance
  | .tick .. | .cancel .. => isTrue trivial

end Chewie.Sched.Wqueue
