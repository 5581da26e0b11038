import Chewie.Clock.Ticks
import Chewie.Sched.Wdog.Model

/-!
# POSIX timers

`timer_settime` starts a watchdog, and `timer_timeout` makes the notification and starts the
watchdog again for the next period. A watchdog that is started with a delay expires at the tick
after the delay, also when it is started at a tick, so that every period takes one tick more than
the interval.
-/

namespace Chewie.Sched.Ptimer

open Clock

/-- `struct posix_timer_s`, with the ticks since `timer_settime`. -/
structure Timer where
  ptDelay : Int
  wdog : Option Nat
  ticks : Nat
  notified : List Nat

/-- The arguments of `timer_settime`, and the time of the call. -/
structure Setting where
  absolute : Bool
  value : Timespec
  interval : Timespec
  now : Timespec

/-- The times are valid. -/
structure Setting.Valid (setting : Setting) : Prop where
  value : setting.value.Valid
  interval : setting.interval.Valid
  now : setting.now.Valid

/-- `wd_start`, which refuses a negative delay. -/
def start (delay : Int) : Option Nat := if delay < 0 then none else some (adjust delay).toNat

/-- A timer tick, with `timer_timeout` when the watchdog expires. -/
def tick (timer : Timer) : Timer :=
  match timer.wdog with
  | none => { timer with ticks := timer.ticks + 1 }
  | some (left + 2) => { timer with ticks := timer.ticks + 1, wdog := some (left + 1) }
  | some _ => { timer with
      ticks := timer.ticks + 1
      notified := timer.notified ++ [timer.ticks + 1]
      wdog := if timer.ptDelay = 0 then none else start timer.ptDelay }

variable (config : TickConfig) (setting : Setting)

def timerSettime : Timer :=
  if setting.value.sec ≤ 0 ∧ setting.value.nsec ≤ 0 then ⟨0, none, 0, []⟩
  else
    let ptDelay := if 0 < setting.interval.sec ∨ 0 < setting.interval.nsec then
      clockTime2ticks config setting.interval else 0
    let delay := if setting.absolute then
      (clockAbstime2ticks config (some setting.now) setting.value).toOption.getD 0
      else clockTime2ticks config setting.value
    let delay := if delay ≤ 0 then ptDelay else delay
    ⟨ptDelay, if 0 < delay then start delay else none, 0, []⟩

/-- The timer after some ticks. -/
def after (ticks : Nat) : Timer := tick^[ticks] (timerSettime config setting)

/-- The first expiration that is asked for. -/
def Setting.first : Int :=
  if setting.absolute then max setting.value.total setting.now.total
  else setting.now.total + setting.value.total

/-- The notifications are made in time, where the first tick comes at some time behind the call. -/
def OnSchedule (wait : Int) : Prop :=
  ∀ k : Nat, (k = 0 ∨ 0 < ticksFor config setting.interval.total) →
    ∃ number, (after config setting number).notified[k]? = some number ∧
      let due := setting.first + k * (ticksFor config setting.interval.total * config.nsecPerTick)
      let time := setting.now.total + wait + (number - 1) * config.nsecPerTick
      due ≤ time ∧ time < due + 2 * config.nsecPerTick

variable {config setting}

/-- The watchdog of a timer counts down to its notification. -/
theorem after_counts {delay ticks : Nat} (before : ticks ≤ delay)
    (started : timerSettime config setting = ⟨0, some (delay + 1), 0, []⟩) :
    after config setting ticks = ⟨0, some (delay + 1 - ticks), ticks, []⟩ := by
  induction ticks with
  | zero => exact started
  | succ ticks ih =>
    obtain ⟨left, rfl⟩ := Nat.exists_eq_add_of_le before
    rw [after, Function.iterate_succ_apply', ← after, ih (by omega),
      show ticks + 1 + left + 1 - ticks = left + 2 by omega,
      show ticks + 1 + left + 1 - (ticks + 1) = left + 1 by omega]
    rfl

section Single

variable (valid : setting.Valid) (nonzero : 0 < setting.value.total)
  (single : setting.interval.total = 0)
  (ahead : setting.absolute = true → setting.now.total < setting.value.total)
  (near : setting.first - setting.now.total ≤ (2 ^ 31 - 3) * config.nsecPerTick)

include valid nonzero single ahead near

/-- The delay of a timer without an interval reaches its expiration. -/
theorem settime_eq : 0 < setting.first - setting.now.total ∧
    0 < ticksFor config (setting.first - setting.now.total) ∧ timerSettime config setting =
      ⟨0, some ((ticksFor config (setting.first - setting.now.total)).toNat + 1), 0, []⟩ := by
  have nsec := valid.interval.nsec_nonneg
  have first : setting.first - setting.now.total =
      if setting.absolute then setting.value.total - setting.now.total
      else setting.value.total := by
    unfold Setting.first
    split
    · rw [max_eq_left (le_of_lt (ahead ‹_›))]
    · omega
  have span : 0 < setting.first - setting.now.total := by
    rw [first]
    split
    · exact Int.sub_pos_of_lt (ahead ‹_›)
    · exact nonzero
  have least := (ticksFor_least config (Int.le_of_lt span)).1
  have small := (ticksFor_le config (Int.le_of_lt span) (by decide)).2 near
  have positive : 0 < ticksFor config (setting.first - setting.now.total) := by
    refine lt_of_le_of_ne least.1 fun zero => ?_
    have covered := least.2
    rw [← zero] at covered
    omega
  have fits : Signed.wrap 32 (ticksFor config (setting.first - setting.now.total)) =
      ticksFor config (setting.first - setting.now.total) :=
    Signed.wrap_of_fits (by omega) (by omega)
  have delay : (if setting.absolute = true then
      (clockAbstime2ticks config (some setting.now) setting.value).toOption.getD 0
      else clockTime2ticks config setting.value) =
        ticksFor config (setting.first - setting.now.total) := by
    rw [first] at fits ⊢
    split at fits
    · have later := ahead ‹_›
      rw [if_pos ‹_›, if_pos ‹_›, clockAbstime2ticks_ahead valid.value valid.now (le_of_lt later)]
      exact fits
    · rw [if_neg ‹_›, if_neg ‹_›, clockTime2ticks_eq config valid.value, fits]
  have started : start (ticksFor config (setting.first - setting.now.total)) =
      some ((ticksFor config (setting.first - setting.now.total)).toNat + 1) := by
    unfold start adjust int32Max
    rw [if_neg (by omega)]
    exact congrArg some (by omega)
  refine ⟨span, positive, ?_⟩
  unfold timerSettime
  unfold Timespec.total nsecPerSec at nonzero single
  rw [if_neg (by omega), delay, if_neg (by omega)]
  simp [Int.not_le.mpr positive, started]

/-- A timer without an interval, that is relative or whose time lies ahead, makes its notification
in time. -/
theorem timer_on_schedule {wait : Int} (later : 0 < wait) (soon : wait ≤ config.nsecPerTick) :
    OnSchedule config setting wait := by
  obtain ⟨span, positive, started⟩ := settime_eq valid nonzero single ahead near
  obtain ⟨⟨low, covered⟩, least⟩ := ticksFor_least config (Int.le_of_lt span)
  have empty : ticksFor config setting.interval.total = 0 := by
    exact Int.ediv_eq_zero_of_lt (by have := config.nsecPerTick_pos; omega) (by omega)
  have counted := after_counts (Nat.le_refl _) started
  rintro k (rfl | periodic)
  · refine ⟨(ticksFor config (setting.first - setting.now.total)).toNat + 1, ?_, ?_⟩
    · rw [after, Function.iterate_succ_apply', ← after, counted, Nat.add_sub_cancel_left]
      rfl
    · have number :
          (((ticksFor config (setting.first - setting.now.total)).toNat + 1 : Nat) : Int) - 1 =
            ticksFor config (setting.first - setting.now.total) := by omega
      have early : (ticksFor config (setting.first - setting.now.total) - 1) * config.nsecPerTick <
          setting.first - setting.now.total := by
        by_contra enough
        have smaller := least ⟨by omega, Int.not_lt.mp enough⟩
        omega
      rw [number]
      rw [Int.sub_mul] at early
      omega
  · omega

end Single

/-- A timer that expires once, after 25 milliseconds. -/
theorem timer_on_schedule_once : OnSchedule defaultTick ⟨false, ⟨0, 25000000⟩, ⟨0, 0⟩, ⟨5, 0⟩⟩ 1 :=
  timer_on_schedule ⟨⟨by decide, by decide, by decide⟩, ⟨by decide, by decide, by decide⟩,
    by decide, by decide, by decide⟩ (by decide) (by decide) (fun absolute => by cases absolute)
    (by decide) (by decide) (by decide)

/-- A timer with a period of one tick makes its notifications at every second tick. A timer for a
time that has passed makes none. -/
theorem timer_drifts :
    (after defaultTick ⟨false, ⟨0, 10000000⟩, ⟨0, 10000000⟩, ⟨5, 0⟩⟩ 6).notified = [2, 4, 6] ∧
      ¬OnSchedule defaultTick ⟨false, ⟨0, 10000000⟩, ⟨0, 10000000⟩, ⟨5, 0⟩⟩ 10000000 ∧
      (timerSettime defaultTick ⟨true, ⟨4, 0⟩, ⟨0, 0⟩, ⟨5, 0⟩⟩).wdog = none := by
  refine ⟨by decide, fun schedule => ?_, by decide⟩
  obtain ⟨number, made, low, high⟩ := schedule 2 (.inr (by decide))
  have due : Setting.first ⟨false, ⟨0, 10000000⟩, ⟨0, 10000000⟩, ⟨5, 0⟩⟩ + (2 : Nat) *
      (ticksFor defaultTick (Timespec.total ⟨0, 10000000⟩) * defaultTick.nsecPerTick) =
        5030000000 := by decide
  have time : Timespec.total ⟨5, 0⟩ = 5000000000 ∧ defaultTick.nsecPerTick = 10000000 := by decide
  rw [due, time.1, time.2] at low high
  have few : number = 3 ∨ number = 4 := by omega
  rcases few with rfl | rfl
  · exact absurd made (by decide)
  · exact absurd made (by decide)

end Chewie.Sched.Ptimer
