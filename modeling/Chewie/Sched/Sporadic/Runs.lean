import Chewie.Lib.Run
import Chewie.Sched.Sporadic.Model

/-!
# What sporadic scheduling gives back

A replenishment that `sched_sporadic_resume` starts gives back the ticks that the task has lost
while it was suspended. `sporadic_budget_expire` subtracts the times in the wrong order, so that it
gives back almost the whole range of the counter when it finds the task suspended. In every run
without such an expiry, and in which no counter wraps around, every replenishment is right.
-/

namespace Chewie.Sched.Sporadic

open Option Function Word Signed

/-- A replenishment gives back what was lost, at most the budget, half a period after the task was
suspended. -/
def Granted (budget replPeriod : Nat) (start : Start) : Prop :=
  start.replenish = start.lost ∧ start.replenish ≤ budget ∧
    start.period + start.replenish = replPeriod / 2

structure Fair (sys : Sys) : Prop where
  params : 1 ≤ sys.budget ∧ 2 * sys.budget ≤ sys.replPeriod ∧ sys.replPeriod < 2 ^ 32
  slice : -2 ^ 31 ≤ sys.timeslice ∧ sys.timeslice ≤ sys.budget
  amounts : ∀ index, (sys.replenishments index).budget ≤ sys.budget
  since : sys.suspended → ∃ since ≤ sys.clock,
    sys.eventtime = Word.wrap 32 since ∧ sys.lost = sys.clock - since
  record : ∀ start ∈ sys.started, Granted sys.budget sys.replPeriod start

open Fair

section Parts

variable {sys : Sys}

theorem wdStart_budget (repl : Repl) (kind : TimerKind) (ticks : Nat) :
    (repl.wdStart kind ticks).budget = repl.budget := by
  rw [Repl.wdStart]
  split <;> rfl

section

variable (fair : Fair sys)

include fair

namespace Fair

theorem wrap_budget {budget : Nat} (low : budget ≤ sys.budget) :
    Signed.wrap 32 budget = budget := by
  have params := fair.params
  exact @Signed.wrap_of_fits 31 budget (by omega) (by omega)

theorem setRepl {index : Nat} {repl : Repl} (low : repl.budget ≤ sys.budget) :
    Fair (sys.setRepl index repl) := by
  refine ⟨fair.params, fair.slice, fun other => ?_, fair.since, fair.record⟩
  simp only [Sys.setRepl]
  by_cases same : other = index
  · rw [same, update_self]
    exact low
  · rw [update_of_ne same]
    exact fair.amounts other

theorem mark : Fair sys.mark :=
  ⟨fair.params, fair.slice, fair.amounts,
    fun _ => ⟨sys.clock, Nat.le_refl _, rfl, (Nat.sub_self _).symm⟩, fair.record⟩

theorem setSlice {timeslice : Int} (lower : -2 ^ 31 ≤ timeslice)
    (upper : timeslice ≤ sys.budget) (active : Option Nat) :
    Fair { sys with timeslice := timeslice, active := active } :=
  ⟨fair.params, ⟨lower, upper⟩, fair.amounts, fair.since, fair.record⟩

theorem allocRepl {found : Option Nat} {after : Sys}
    (allocated : sporadicAllocRepl sys = (found, after)) :
    Fair after ∧ after.lost = sys.lost ∧ after.budget = sys.budget := by
  rw [sporadicAllocRepl] at allocated
  split at allocated
  · split at allocated
    · rename_i index _
      cases allocated
      have timer := @setRepl _ fair index { sys.replenishments index with
        alloced := true, main := false, replenish := false } (fair.amounts index)
      exact ⟨⟨timer.params, timer.slice, timer.amounts, timer.since, timer.record⟩, rfl, rfl⟩
    · cases allocated
      exact ⟨fair, rfl, rfl⟩
  · cases allocated
    exact ⟨fair, rfl, rfl⟩

theorem budgetStart (mrepl : Nat) : Fair (sporadicBudgetStart sys mrepl) := by
  have precise := fair.wrap_budget (Nat.le_refl sys.budget)
  have slice := fair.setSlice (by omega) (Int.le_of_eq precise) (some mrepl)
  have timer := @setRepl _ slice mrepl
    (Repl.wdStart { sys.replenishments mrepl with budget := sys.budget, replenish := false }
      .budget sys.budget) (Nat.le_of_eq (wdStart_budget _ _ _))
  exact timer.mark

theorem intervalStart (mrepl : Nat) : Fair (sporadicIntervalStart sys mrepl) := by
  have low := fair.amounts mrepl
  have slice := fair.setSlice (by decide) (Int.natCast_nonneg _) (some mrepl)
  have cleared := @setRepl _ slice mrepl { sys.replenishments mrepl with replenish := false } low
  rw [sporadicIntervalStart]
  split
  · exact cleared.budgetStart mrepl
  · refine cleared.setRepl ?_
    rw [wdStart_budget]
    exact low

theorem replenishStart (index : Nat) : Fair (sporadicReplenishStart sys index) := by
  have low := fair.amounts index
  have precise := fair.wrap_budget low
  have slice := @setSlice _ fair (Signed.wrap 32 (sys.replenishments index).budget)
    (by omega) (by omega) (some index)
  refine slice.setRepl ?_
  rw [wdStart_budget]
  exact low

theorem replenishDelay {index period replenish : Nat}
    (granted : Granted sys.budget sys.replPeriod ⟨period, replenish, sys.lost⟩) :
    Fair (sporadicReplenishDelay sys index period replenish) := by
  have timer := @setRepl _ fair index
    (Repl.wdStart { sys.replenishments index with budget := replenish, replenish := true }
      .delay period) ((Nat.le_of_eq (wdStart_budget _ _ _)).trans granted.2.1)
  refine ⟨timer.params, timer.slice, timer.amounts, timer.since, fun start mem => ?_⟩
  rcases List.mem_append.mp mem with old | new
  · exact fair.record start old
  · rw [List.mem_singleton.mp new]
    exact granted

theorem timerCancel : Fair { sporadicTimerCancel sys with timeslice := -1 } := by
  have low : (-1 : Int) ≤ sys.budget := by omega
  exact ⟨fair.params, ⟨show -2 ^ 31 ≤ (-1 : Int) by decide, low⟩, fair.amounts, fair.since,
    fair.record⟩

end Fair

end

end Parts

section Steps

variable {sys : Sys}

section

variable (fair : Fair sys)

include fair

theorem Fair.granted {unrealized : Nat} (precise : unrealized = sys.lost)
    (low : unrealized ≤ sys.budget) :
    Granted sys.budget sys.replPeriod
      ⟨sub 32 (sys.replPeriod / 2) unrealized, unrealized, sys.lost⟩ := by
  have params := fair.params
  refine ⟨precise, low, ?_⟩
  dsimp only
  rw [sub_of_le (by omega) (by omega)]
  omega

theorem Fair.unrealized (suspended : sys.suspended) (short : sys.lost < 2 ^ 32) :
    sub 32 sys.clockSystimer sys.eventtime = sys.lost := by
  obtain ⟨since, past, eventtime, lost⟩ := fair.since suspended
  rw [eventtime, Sys.clockSystimer, sub_wrap past, ← lost]
  exact wrap_of_lt short

/-- Resuming the task keeps the invariant. -/
theorem Fair.resume {next : Sys} (short : sys.suspended → 0 < sys.timeslice → sys.lost < 2 ^ 32)
    (resumed : schedSporadicResume sys = some next) : Fair next := by
  have slice := fair.slice
  have running : ∀ timeslice : Int, -2 ^ 31 ≤ timeslice → timeslice ≤ sys.budget →
      Fair { sys with suspended := false, timeslice := timeslice } := fun timeslice lower upper =>
    ⟨fair.params, ⟨lower, upper⟩, fair.amounts, nofun, fair.record⟩
  rw [schedSporadicResume] at resumed
  split at resumed
  · cases resumed
    exact fair
  · rename_i suspended
    replace suspended : sys.suspended = true := by simpa using suspended
    dsimp only at resumed
    split at resumed
    · rename_i phase
      have lost := fair.unrealized suspended (short suspended phase.1)
      rw [lost] at resumed
      split at resumed
      · cases resumed
        exact running sys.timeslice slice.1 slice.2
      · rename_i part
        split at resumed
        · cases resumed
        · rename_i active _
          have left := running (sys.timeslice - sys.lost) (by omega) (by omega)
          split at resumed
          · cases allocated : sporadicAllocRepl
                { sys with suspended := false, timeslice := sys.timeslice - sys.lost } with
            | mk found after =>
              obtain ⟨kept, same, budget⟩ := left.allocRepl allocated
              rw [allocated] at resumed
              cases found with
              | none =>
                cases resumed
                exact kept.mark
              | some repl =>
                cases resumed
                refine kept.replenishDelay (kept.granted same.symm ?_)
                rw [budget]
                change sys.lost ≤ sys.budget
                omega
          · cases resumed
            exact left.mark
    · cases resumed
      exact (running sys.timeslice slice.1 slice.2).mark

theorem Fair.suspend : Fair (schedSporadicSuspend sys) := by
  rw [schedSporadicSuspend]
  split
  · exact fair
  · exact ⟨fair.params, fair.slice, fair.amounts,
      fun _ => ⟨sys.clock, Nat.le_refl _, rfl, (Nat.sub_self _).symm⟩, fair.record⟩

theorem Fair.process {ticks : Nat} {noswitches locked : Bool}
    (narrow : sys.timeslice < 0 → -2 ^ 31 ≤ sys.timeslice - ticks) :
    Fair (schedSporadicProcess sys ticks noswitches locked).1 := by
  have params := fair.params
  have slice := fair.slice
  rw [schedSporadicProcess]
  split
  · exact fair
  · split
    · split
      · exact fair.timerCancel
      · split
        · exact @setSlice _ fair 1 (by decide) (by omega) sys.active
        · split
          · omega
          · exact fair
    · rename_i more
      -- Here `ticks` is below the time slice as an unsigned number.
      have lower : -2 ^ 31 ≤ sys.timeslice - ticks := by
        rcases Int.lt_or_le sys.timeslice 0 with negative | positive
        · exact narrow negative
        · omega
      have precise : wrap 32 (sys.timeslice - ticks) = sys.timeslice - ticks :=
        @wrap_of_fits 31 _ lower (by omega)
      exact @setSlice _ fair (wrap 32 (sys.timeslice - ticks)) (by omega) (by omega) sys.active

theorem Fair.lowpriority {next : Sys} (entered : schedSporadicLowpriority sys = some next) :
    Fair next := by
  have slice : Fair { sys with timeslice := 0 } :=
    fair.setSlice (by decide) (Int.natCast_nonneg _) sys.active
  rw [schedSporadicLowpriority] at entered
  cases allocated : sporadicAllocRepl { sys with timeslice := 0 } with
  | mk found after =>
    rw [allocated] at entered
    cases found with
    | none => cases entered
    | some mrepl =>
      cases entered
      have kept := (slice.allocRepl allocated).1
      have active := kept.setSlice kept.slice.1 kept.slice.2 (some mrepl)
      exact (active.setRepl (Nat.le_refl after.budget)).intervalStart mrepl

theorem Fair.budgetExpire (mrepl : Nat) {locked : Bool}
    (nothing : locked = false → sys.suspended → (sporadicAllocRepl sys).1 ≠ none → sub 32
      sys.eventtime sys.clockSystimer = 0) : Fair (sporadicBudgetExpire sys mrepl locked) := by
  rw [sporadicBudgetExpire]
  split
  · exact fair.timerCancel
  · rename_i free
    dsimp only
    split
    · rename_i late
      cases allocated : sporadicAllocRepl sys with
      | mk found after =>
        cases found with
        | none => exact (fair.allocRepl allocated).1.intervalStart mrepl
        | some repl =>
          have zero := nothing (by simpa using free) late.1 (by rw [allocated]; exact nofun)
          omega
    · exact fair.intervalStart mrepl

theorem Fair.replenishExpire (index : Nat) (locked : Bool) :
    Fair (sporadicReplenishExpire sys index locked) := by
  rw [sporadicReplenishExpire]
  split
  · exact fair.timerCancel
  · have timer := @setRepl _ fair index { sys.replenishments index with
      alloced := false, main := false, replenish := false } (fair.amounts index)
    have low : (0 : Int) ≤ sys.budget := Int.natCast_nonneg _
    exact ⟨timer.params, ⟨show -2 ^ 31 ≤ (0 : Int) by decide, low⟩, timer.amounts, timer.since,
      timer.record⟩

end

end Steps

/-- The condition of the step: the budget does not end while the task is suspended, unless its event
time is now or there is no timer for a replenishment; the task is not resumed in its high-priority
phase after 2^32 or more lost ticks; and a negative time slice does not wrap around. -/
def Steady (sys : Sys) : Op → Prop
  | .resume => sys.suspended → 0 < sys.timeslice → sys.lost < 2 ^ 32
  | .process ticks _ _ => sys.timeslice < 0 → -2 ^ 31 ≤ sys.timeslice - Word.wrap 32 ticks
  | .expire index locked =>
    (sys.replenishments index).timer.map Prod.fst = some .budget → locked = false →
      sys.suspended → (sporadicAllocRepl sys).1 ≠ none →
        Word.sub 32 sys.eventtime sys.clockSystimer = 0
  | _ => True

instance decidableSteady (sys : Sys) : ∀ op, Decidable (Steady sys op)
  | .resume | .process .. | .expire .. => by dsimp only [Steady]; infer_instance
  | .tick .. | .suspend | .unlock => isTrue trivial

theorem sporadicAllocRepl_timer (sys : Sys) (index : Nat) (timer : Option (TimerKind × Nat)) :
    (sporadicAllocRepl
      (sys.setRepl index { sys.replenishments index with timer := timer })).1 =
      (sporadicAllocRepl sys).1 := by
  have same : ∀ other, ((sys.setRepl index
      { sys.replenishments index with timer := timer }).replenishments other).alloced =
      (sys.replenishments other).alloced := by
    intro other
    simp only [Sys.setRepl]
    by_cases here : other = index
    · rw [here, update_self]
    · rw [update_of_ne here]
  rw [sporadicAllocRepl, sporadicAllocRepl]
  simp only [same]
  change (if sys.nrepls < sys.maxRepl then _ else _ : Option Nat × Sys).1 = _
  split
  · cases found : (List.range sys.maxRepl).find? fun index =>
        !(sys.replenishments index).alloced with
    | none => simp only [Sys.setRepl, found]
    | some free => simp only [Sys.setRepl, found]
  · rfl

/-- Every step that meets the condition keeps the invariant. -/
theorem fair_step (sys : Sys) (op : Op) (next : Sys) (fair : Fair sys) (steady : Steady sys op)
    (stepped : step sys op = some next) : Fair next := by
  cases op with
  | tick ticks =>
    cases stepped
    refine ⟨fair.params, fair.slice, fair.amounts, fun suspended => ?_, fair.record⟩
    replace suspended : sys.suspended = true := suspended
    obtain ⟨since, past, eventtime, lost⟩ := fair.since suspended
    refine ⟨since, by dsimp only; omega, eventtime, ?_⟩
    dsimp only
    rw [if_pos suspended]
    omega
  | suspend =>
    cases stepped
    exact fair.suspend
  | resume => exact fair.resume steady stepped
  | process ticks noswitches locked =>
    cases stepped
    exact fair.process steady
  | unlock =>
    obtain ⟨-, entered⟩ := ite_none_right_eq_some.mp stepped
    exact fair.lowpriority entered
  | expire index locked =>
    have stopped := @setRepl _ fair index { sys.replenishments index with timer := none }
      (fair.amounts index)
    rw [step, expire] at stepped
    rw [Steady] at steady
    cases timer : (sys.replenishments index).timer with
    | none =>
      rw [timer] at stepped
      cases stepped
    | some pair =>
      obtain ⟨kind, ticks⟩ := pair
      rw [timer] at stepped steady
      cases kind with
      | budget =>
        rw [← some.inj stepped]
        refine stopped.budgetExpire index fun free suspended found => ?_
        rw [sporadicAllocRepl_timer] at found
        exact steady rfl free suspended found
      | interval =>
        rw [← some.inj stepped]
        exact stopped.budgetStart index
      | replenish =>
        rw [← some.inj stepped]
        exact stopped.replenishExpire index locked
      | delay =>
        rw [← some.inj stepped]
        exact stopped.replenishStart index

/-- A task for which the sporadic policy has been set up and not started. -/
def initial (budget replPeriod maxRepl clock : Nat) : Sys where
  timeslice := 0
  suspended := false
  maxRepl := maxRepl
  nrepls := 0
  replPeriod := replPeriod
  budget := budget
  eventtime := 0
  active := none
  replenishments := fun _ => ⟨0, false, false, false, none⟩
  clock := clock
  lost := 0
  started := []

theorem fair_start {budget replPeriod maxRepl clock : Nat} {start : Sys} (positive : 1 ≤ budget)
    (half : 2 * budget ≤ replPeriod) (fits : replPeriod < 2 ^ 32)
    (started : schedSporadicStart (initial budget replPeriod maxRepl clock) = some start) :
    Fair start := by
  have fair : Fair (initial budget replPeriod maxRepl clock) := by
    have lower : -2 ^ 31 ≤ (0 : Int) := by decide
    exact ⟨⟨positive, half, fits⟩, ⟨lower, Int.natCast_nonneg _⟩, fun _ => Nat.zero_le _, nofun,
      nofun⟩
  rw [schedSporadicStart] at started
  cases allocated : sporadicAllocRepl (initial budget replPeriod maxRepl clock) with
  | mk found after =>
    rw [allocated] at started
    cases found with
    | none => cases started
    | some mrepl =>
      rw [← some.inj started]
      have kept := (fair.allocRepl allocated).1
      have timer := @setRepl _ kept mrepl
        { after.replenishments mrepl with main := true } (kept.amounts mrepl)
      have marked := timer.mark
      have suspended : Fair { (after.setRepl mrepl
          { after.replenishments mrepl with main := true }).mark with suspended := true } :=
        ⟨marked.params, marked.slice, marked.amounts,
          fun _ => ⟨after.clock, Nat.le_refl _, rfl, (Nat.sub_self _).symm⟩, marked.record⟩
      exact suspended.budgetStart mrepl

/-- In every run in which the steps meet the condition, each replenishment that is started gives
back the ticks that the task has been suspended since the event time, at most the budget, and its
delay and amount are half of the period together. -/
theorem replenishments_granted {budget replPeriod maxRepl clock : Nat} {start : Sys}
    (positive : 1 ≤ budget) (half : 2 * budget ≤ replPeriod) (fits : replPeriod < 2 ^ 32)
    (started : schedSporadicStart (initial budget replPeriod maxRepl clock) = some start)
    {ops : List Op} (admitted : Run.Admitted step Steady start ops) {final : Sys}
    (ran : Run.run step start ops = some final) :
    ∀ one ∈ final.started, one.replenish = one.lost ∧ one.replenish ≤ final.budget ∧
      one.period + one.replenish = final.replPeriod / 2 := by
  have fair := fair_start positive half fits started
  exact (Run.run_keeps_admitted fair_step fair admitted ran).record

/-- The task is suspended for two ticks of its budget and resumed. -/
theorem replenishments_granted_two : ∃ start final,
    schedSporadicStart (initial 5 20 3 0) = some start ∧
      Run.run step start [.resume, .tick 1, .process 1 false false, .suspend, .tick 2, .resume] =
        some final ∧
      final.started = [⟨8, 2, 2⟩] ∧ ∀ one ∈ final.started, one.replenish = one.lost ∧
        one.replenish ≤ final.budget ∧ one.period + one.replenish = final.replPeriod / 2 := by
  refine ⟨_, _, rfl, rfl, rfl, ?_⟩
  exact @replenishments_granted 5 20 3 0 _ (by decide) (by decide) (by decide) rfl
    [.resume, .tick 1, .process 1 false false, .suspend, .tick 2, .resume] (by decide) _ rfl

/-- A task with a budget of two ticks that does not run before its budget is over is given back
almost the whole range of the tick counter. -/
theorem replenishment_of_years : ∃ start final,
    schedSporadicStart (initial 2 4 3 0) = some start ∧
      Run.run step start [.tick 3, .expire 0 false] = some final ∧
      final.started = [⟨5, 2 ^ 32 - 3, 3⟩] := by
  exact ⟨_, _, rfl, rfl, rfl⟩

/-- A call of `sched_sporadic_process`, with its ticks and `noswitches`, while the scheduler is
locked. -/
def lockedProcess (sys : Sys) (call : Nat × Bool) : Sys × Nat :=
  schedSporadicProcess sys call.1 call.2 true

/-- One call of a run. -/
def lockedStep (sys : Sys) (call : Nat × Bool) : Option Sys := some (lockedProcess sys call).1

/-- The ticks are positive and of type `uint32_t`, and a negative time slice is not above them as an
unsigned number. -/
def Covers (sys : Sys) (call : Nat × Bool) : Prop :=
  0 < call.1 ∧ call.1 < 2 ^ 32 ∧ (sys.timeslice < 0 → 2 ^ 32 + sys.timeslice ≤ call.1)

instance decidableCovers (sys : Sys) (call : Nat × Bool) : Decidable (Covers sys call) :=
  inferInstanceAs (Decidable (_ ∧ _ ∧ (_ → _)))

/-- What every call keeps: the range of `int32_t`, a negative time slice, and that no more time is
left than at the start. -/
def Within (start : Int) (sys : Sys) : Prop :=
  (-2 ^ 31 ≤ sys.timeslice ∧ sys.timeslice < 2 ^ 31) ∧ (start < 0 → sys.timeslice < 0) ∧
    (0 < sys.timeslice → sys.timeslice ≤ start)

theorem lockedProcess_spec {sys : Sys} {call : Nat × Bool}
    (range : -2 ^ 31 ≤ sys.timeslice ∧ sys.timeslice < 2 ^ 31) (covers : Covers sys call)
    {after : Sys × Nat} (processed : lockedProcess sys call = after) :
    (sys.timeslice = 0 ∧ after.1.timeslice = 0 ∧ after.2 = 0) ∨
      (sys.timeslice ≠ 0 ∧ sys.timeslice ≤ call.1 ∧ after.1.timeslice = -1 ∧ after.2 = 0) ∨
      (call.1 < sys.timeslice ∧ after.1.timeslice = sys.timeslice - call.1 ∧
        after.2 = sys.timeslice - call.1) := by
  obtain ⟨positive, word, covered⟩ := covers
  subst processed
  rw [lockedProcess, schedSporadicProcess]
  by_cases low : sys.timeslice = 0
  · rw [if_pos low]
    exact Or.inl ⟨low, low, rfl⟩
  rw [if_neg low]
  by_cases ended : (sys.timeslice % 2 ^ 32).toNat ≤ call.1
  · rw [if_pos ended]
    exact Or.inr (Or.inl ⟨low, by omega, rfl, rfl⟩)
  · have more : call.1 < sys.timeslice := by omega
    have precise : wrap 32 (sys.timeslice - call.1) = sys.timeslice - call.1 :=
      @wrap_of_fits 31 _ (by omega) (by omega)
    rw [if_neg ended, precise]
    exact Or.inr (Or.inr ⟨more, rfl, by dsimp only; omega⟩)

/-- While the scheduler stays locked, a run in which no call has fewer ticks than a negative time
slice, read as an unsigned number, respects the phases. No call leaves a time slice below minus one.
When the time is up the time slice becomes minus one, and every later call returns zero and leaves
it there. As long as time is left the call returns it, at most what there was at the start. -/
theorem locked_phases {sys later : Sys} {calls : List (Nat × Bool)} {call : Nat × Bool}
    (range : -2 ^ 31 ≤ sys.timeslice ∧ sys.timeslice < 2 ^ 31)
    (admitted : Run.Admitted lockedStep Covers sys calls)
    (ran : Run.run lockedStep sys calls = some later) (covers : Covers later call)
    {after : Sys × Nat} (processed : lockedProcess later call = after) :
    -1 ≤ after.1.timeslice ∧
      (sys.timeslice < 0 ∨ 0 < later.timeslice ∧ later.timeslice ≤ call.1 →
        after.1.timeslice = -1 ∧ after.2 = 0) ∧
      (call.1 < later.timeslice → after.2 = later.timeslice - call.1 ∧
        after.1.timeslice = after.2 ∧ 1 ≤ after.2 ∧ after.2 ≤ sys.timeslice) := by
  have start : Within sys.timeslice sys := ⟨range, id, fun _ => Int.le_refl _⟩
  have kept : Within sys.timeslice later := by
    refine Run.run_keeps_admitted (fun state action next before guard stepped => ?_) start
      admitted ran
    cases stepped
    have spec := lockedProcess_spec before.1 guard rfl
    unfold Within at before ⊢
    omega
  have spec := lockedProcess_spec kept.1 covers processed
  have bounds := kept.2
  omega

/-- A budget of five ticks is used up in two calls. -/
theorem locked_phases_five : ∃ later,
    Run.run lockedStep { initial 5 20 3 0 with timeslice := 5 } [(2, false)] = some later ∧
      (lockedProcess later (3, true)).1.timeslice = -1 ∧ (lockedProcess later (3, true)).2 = 0 := by
  refine ⟨_, rfl, ?_⟩
  have admitted : Run.Admitted lockedStep Covers { initial 5 20 3 0 with timeslice := 5 }
      [(2, false)] := by decide
  exact (locked_phases (by decide) admitted rfl (by decide) rfl).2.1 (by decide)

/-- The first call after the budget is used up finds a time slice that is large as an unsigned
number, and counts it down. -/
theorem locked_phases_left : ∃ later,
    Run.run lockedStep { initial 5 20 3 0 with timeslice := 5 } [(5, false)] = some later ∧
      later.timeslice = -1 ∧ (lockedProcess later (1, false)).1.timeslice = -2 ∧
      (lockedProcess later (1, false)).2 = 2 ^ 32 - 2 :=
  ⟨_, rfl, by decide⟩

end Chewie.Sched.Sporadic
