import Chewie.Sched.Wdog.Model

/-!
# Tickless watchdogs

With `CONFIG_SCHED_TICKLESS` the timer interrupt comes only when the first watchdog is due, and
`wd_timer` is told how many ticks have passed. Watchdog functions that leave the list alone make
`wd_expiration` a function of the list. `expired_expired` shows that letting time pass at once or in
two parts is the same, and from it that both versions of `wd_timer` do the same.
-/

namespace Chewie.Sched

open Chewie List

variable {α : Type} {w : Nat}

/-- Run the watchdogs whose lag is used up, when the watchdog before the first one leaves `owed`
ticks to it. The results are the watchdogs that ran and those that are left. -/
def expired (owed : Int) : List (α × Int) → List α × List (α × Int)
  | [] => ([], [])
  | (wdog, lag) :: rest =>
    if lag + owed ≤ 0 then
      (wdog :: (expired (lag + owed) rest).1, (expired (lag + owed) rest).2)
    else ([], (wdog, lag + owed) :: rest)

/-- `wd_timer` without `CONFIG_SCHED_TICKLESS`. -/
def wdTick : List (α × Int) → List α × List (α × Int)
  | [] => ([], [])
  | (wdog, lag) :: rest => expired 0 ((wdog, lag - 1) :: rest)

/-- Calls of `wd_timer`, one for each tick. -/
def wdTicks : Nat → List (α × Int) → List α × List (α × Int)
  | 0, list => ([], list)
  | count + 1, list =>
    let done := wdTick list
    let more := wdTicks count done.2
    (done.1 ++ more.1, more.2)

/-- What `wd_timer` leaves behind. -/
structure Elapsed (α : Type) (w : Nat) where
  ran : List α
  activelist : List (α × Int)
  wdtickbase : BitVec w
  ret : Int

/-- The lag of the first watchdog. -/
def headLag : List (α × Int) → Int
  | [] => 0
  | (_, lag) :: _ => lag

/-- The loop of `wd_timer` with `CONFIG_SCHED_TICKLESS`. The rest of the ticks is a result. -/
def ticklessLoop : Nat → Int → BitVec w → List (α × Int) →
    Option (List α × List (α × Int) × BitVec w × Int)
  | fuel, ticks, wdtickbase, list =>
    match list with
    | [] => some ([], [], wdtickbase, ticks)
    | (wdog, lag) :: rest =>
      if 0 < ticks then
        match fuel with
        | 0 => none
        | fuel + 1 =>
          let decr := min lag ticks
          let done := expired 0 ((wdog, lag - decr) :: rest)
          (ticklessLoop fuel (ticks - decr) (wdtickbase + BitVec.ofInt w decr) done.2).map
            fun more => (done.1 ++ more.1, more.2)
      else some ([], list, wdtickbase, ticks)

/-- `wd_timer` with `CONFIG_SCHED_TICKLESS`. -/
def wdTimerTickless (ticks : Int) (wdtickbase : BitVec w) (list : List (α × Int)) :
    Option (Elapsed α w) :=
  (ticklessLoop list.length ticks wdtickbase list).map fun done =>
    { ran := done.1
      activelist := done.2.1
      wdtickbase := done.2.2.1 + BitVec.ofInt w done.2.2.2
      ret := headLag done.2.1 }

theorem expired_cons (owed amount : Int) (wdog : α) (lag : Int) (rest : List (α × Int)) :
    expired owed ((wdog, lag + amount) :: rest) = expired (owed + amount) ((wdog, lag) :: rest) := by
  have same : lag + amount + owed = lag + (owed + amount) := by omega
  unfold expired
  rw [same]

theorem expired_carry (owed amount : Int) (list : List (α × Int)) :
    expired owed (Delta.carry amount list) = expired (owed + amount) list := by
  cases list with
  | nil => rfl
  | cons entry rest =>
    cases entry with
    | mk wdog lag => exact expired_cons owed amount wdog lag rest

/-- When the watchdog functions make no calls, `wd_expiration` runs and leaves what `expired`
says. -/
theorem wdExpiration_quiet {fuel : Nat} (timers : Timers)
    (enough : timers.activelist.length ≤ fuel) :
    ∃ next, wdExpiration fuel [] timers = some next ∧ next.ticks = timers.ticks ∧
      next.activelist = (expired 0 timers.activelist).2 ∧
      next.runs = timers.runs ++
        (expired 0 timers.activelist).1.map fun timer => (timers.ticks, timer.start) := by
  induction fuel generalizing timers with
  | zero =>
    have empty : timers.activelist = [] := length_eq_zero_iff.mp (Nat.le_zero.mp enough)
    refine ⟨timers, ?_, rfl, ?_, ?_⟩
    · rw [wdExpiration, empty]
    · rw [empty]
      rfl
    · rw [empty]
      exact (append_nil _).symm
  | succ fuel ih =>
    rw [wdExpiration]
    cases list : timers.activelist with
    | nil => exact ⟨timers, rfl, rfl, list, (append_nil _).symm⟩
    | cons entry rest =>
      obtain ⟨timer, lag⟩ := entry
      by_cases used : lag ≤ 0
      · let fired : Timers := { timers with
          activelist := Delta.carry lag rest
          active := Function.update timers.active timer.wdog false
          runs := timers.runs ++ [(timers.ticks, timer.start)] }
        have shorter : fired.activelist.length ≤ fuel := by
          have same := congrArg length (Delta.carry_items lag rest)
          rw [length_map, length_map] at same
          rw [list, length_cons] at enough
          change (Delta.carry lag rest).length ≤ fuel
          omega
        obtain ⟨next, performed, ticks, left, ran⟩ := ih fired shorter
        have lags : expired 0 fired.activelist = expired lag rest := by
          rw [expired_carry, Int.zero_add]
        have first : expired 0 ((timer, lag) :: rest) =
            (timer :: (expired lag rest).1, (expired lag rest).2) := by
          rw [expired, Int.add_zero, if_pos used]
        rw [lags] at left ran
        rw [first]
        refine ⟨next, ?_, ticks, left, ?_⟩
        · simp only [if_pos used]
          exact performed
        · rw [ran, append_assoc]
          rfl
      · refine ⟨timers, by simp only [if_neg used], rfl, ?_, ?_⟩
        · rw [expired, Int.add_zero, if_neg used, list]
        · rw [expired, Int.add_zero, if_neg used]
          exact (append_nil _).symm

/-- `wdTick` is `wd_timer` when the watchdog functions make no calls. -/
theorem wdTimer_quiet (timers : Timers) :
    ∃ next, wdTimer [] timers = some next ∧ next.activelist = (wdTick timers.activelist).2 ∧
      next.runs = timers.runs ++
        (wdTick timers.activelist).1.map fun timer => (timers.ticks, timer.start) := by
  rw [wdTimer]
  cases list : timers.activelist with
  | nil => exact ⟨timers, rfl, list, (append_nil _).symm⟩
  | cons entry rest =>
    obtain ⟨next, performed, _, left, ran⟩ := @wdExpiration_quiet timers.activelist.length
      { timers with activelist := (entry.1, entry.2 - 1) :: rest } (by rw [list]; exact Nat.le_refl _)
    rw [list] at performed
    exact ⟨next, performed, left, ran⟩

theorem expired_expired {owed more : Int} (later : more ≤ 0) (list : List (α × Int)) :
    expired (owed + more) list =
      ((expired owed list).1 ++ (expired more (expired owed list).2).1,
        (expired more (expired owed list).2).2) := by
  induction list generalizing owed with
  | nil => rfl
  | cons entry rest ih =>
    cases entry with
    | mk wdog lag =>
      by_cases used : lag + owed ≤ 0
      · have both : lag + (owed + more) ≤ 0 := by omega
        have same : lag + (owed + more) = lag + owed + more := by omega
        have first : expired owed ((wdog, lag) :: rest) =
            (wdog :: (expired (lag + owed) rest).1, (expired (lag + owed) rest).2) := by
          rw [expired, if_pos used]
        rw [first, expired, if_pos both, same, ih]
        rfl
      · have first : expired owed ((wdog, lag) :: rest) = ([], (wdog, lag + owed) :: rest) := by
          rw [expired, if_neg used]
        rw [first, expired_cons, nil_append, Int.add_comm more owed]

theorem wdTick_eq (list : List (α × Int)) : wdTick list = expired (-1) list := by
  cases list with
  | nil => rfl
  | cons entry rest =>
    cases entry with
    | mk wdog lag => exact expired_cons 0 (-1) wdog lag rest

theorem wdTicks_eq (count : Nat) (list : List (α × Int)) :
    wdTicks (count + 1) list = expired (-(count + 1 : Int)) list := by
  induction count generalizing list with
  | zero =>
    unfold wdTicks wdTicks
    rw [wdTick_eq]
    simp
  | succ count ih =>
    have split : (-((count + 1 : Nat) + 1 : Int)) = -1 + -(count + 1 : Int) := by omega
    rw [wdTicks, split, expired_expired (by omega), wdTick_eq, ih]

theorem expired_length (owed : Int) (list : List (α × Int)) :
    (expired owed list).2.length ≤ list.length := by
  induction list generalizing owed with
  | nil => exact Nat.le_refl _
  | cons entry rest ih =>
    cases entry with
    | mk wdog lag =>
      unfold expired
      split
      · exact Nat.le_succ_of_le (ih _)
      · exact Nat.le_refl _

theorem expired_lags (owed : Int) {list : List (α × Int)} (lags : ∀ entry ∈ list, 0 ≤ entry.2) :
    ∀ entry ∈ (expired owed list).2, 0 ≤ entry.2 := by
  induction list generalizing owed with
  | nil => exact fun entry never => by cases never
  | cons first rest ih =>
    cases first with
    | mk wdog lag =>
      unfold expired
      by_cases used : lag + owed ≤ 0
      · rw [if_pos used]
        exact ih _ (fun entry mem => lags entry (mem_cons_of_mem _ mem))
      rw [if_neg used]
      intro entry mem
      cases mem_cons.mp mem with
      | inl same =>
        rw [same]
        omega
      | inr old => exact lags entry (mem_cons_of_mem _ old)

theorem ticklessLoop_zero (fuel : Nat) (wdtickbase : BitVec w) (list : List (α × Int)) :
    ticklessLoop fuel 0 wdtickbase list = some ([], list, wdtickbase, 0) := by
  unfold ticklessLoop
  cases list with
  | nil => rfl
  | cons entry rest => rfl

/-- The loop lets all ticks pass at once. -/
theorem ticklessLoop_eq {fuel : Nat} {list : List (α × Int)} (enough : list.length ≤ fuel)
    (lags : ∀ entry ∈ list, 0 ≤ entry.2) {ticks : Int} (positive : 0 < ticks)
    (wdtickbase : BitVec w) :
    ∃ base rest, ticklessLoop fuel ticks wdtickbase list =
        some ((expired (-ticks) list).1, (expired (-ticks) list).2, base, rest) ∧
      base + BitVec.ofInt w rest = wdtickbase + BitVec.ofInt w ticks := by
  induction fuel generalizing list ticks wdtickbase with
  | zero =>
    have empty := eq_nil_of_length_eq_zero (Nat.le_zero.mp enough)
    subst empty
    exact ⟨wdtickbase, ticks, rfl, rfl⟩
  | succ fuel ih =>
    cases list with
    | nil => exact ⟨wdtickbase, ticks, rfl, rfl⟩
    | cons entry rest =>
      cases entry with
      | mk wdog lag =>
        have first := expired_cons 0 (-min lag ticks) wdog lag rest
        rw [← Int.sub_eq_add_neg, Int.zero_add] at first
        unfold ticklessLoop
        simp only [if_pos positive, first]
        by_cases sooner : lag < ticks
        · rw [Int.min_eq_left (Int.le_of_lt sooner)]
          have gone : (expired (-lag) ((wdog, lag) :: rest)).2 = (expired 0 rest).2 := by
            rw [expired, if_pos (by omega), Int.add_right_neg]
          have left : (expired (-lag) ((wdog, lag) :: rest)).2.length ≤ fuel := by
            rw [gone]
            exact Nat.le_trans (expired_length 0 rest) (Nat.le_of_succ_le_succ enough)
          have split : -ticks = -lag + -(ticks - lag) := by omega
          obtain ⟨base, more, performed, advanced⟩ := ih left (expired_lags (-lag) lags)
            (Int.sub_pos.mpr sooner) (wdtickbase + BitVec.ofInt w lag)
          refine ⟨base, more, ?_, ?_⟩
          · rw [performed, split, expired_expired (by omega)]
            rfl
          · have whole : lag + (ticks - lag) = ticks := by omega
            rw [advanced, BitVec.add_assoc, ← BitVec.ofInt_add, whole]
        · rw [Int.min_eq_right (Int.not_lt.mp sooner), Int.sub_self, ticklessLoop_zero]
          refine ⟨wdtickbase + BitVec.ofInt w ticks, 0, ?_, ?_⟩
          · simp
          · simp

/-- Both versions of `wd_timer` run the same watchdogs in the same order and leave the same list.
The tickless version advances the tick base by the ticks that passed and returns the lag of the
first watchdog that is left. -/
theorem tickless_agrees (count : Nat) (wdtickbase : BitVec w) {list : List (α × Int)}
    (lags : ∀ entry ∈ list, 0 ≤ entry.2) :
    wdTimerTickless count wdtickbase list =
      some { ran := (wdTicks count list).1
             activelist := (wdTicks count list).2
             wdtickbase := wdtickbase + BitVec.ofNat w count
             ret := headLag (wdTicks count list).2 } := by
  unfold wdTimerTickless
  cases count with
  | zero =>
    rw [Int.natCast_zero, ticklessLoop_zero]
    simp [wdTicks]
  | succ count =>
    obtain ⟨base, rest, performed, advanced⟩ := ticklessLoop_eq (Nat.le_refl _) lags
      (Int.natCast_pos.mpr (Nat.succ_pos count)) wdtickbase
    rw [performed, wdTicks_eq, Option.map_some, advanced]
    rfl

/-- Time passes beyond two watchdogs of which the first is late. -/
theorem tickless_agrees_late :
    wdTimerTickless (w := 32) 3 7 [(1, 0), (2, 2), (3, 4)] =
      some { ran := (wdTicks 3 [(1, 0), (2, 2), (3, 4)]).1
             activelist := (wdTicks 3 [(1, 0), (2, 2), (3, 4)]).2
             wdtickbase := 7 + BitVec.ofNat 32 3
             ret := headLag (wdTicks 3 [(1, 0), (2, 2), (3, 4)]).2 } :=
  tickless_agrees 3 7 (by decide)

end Chewie.Sched
