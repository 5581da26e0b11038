import Chewie.Pwm.Timing

/-!
# What a start of the output leaves in the registers

Both ways through `pwm_start` set the compare registers of the listed channels one after the other.
The way for a new frequency stops at a channel that is not configured, the way for the frequency
that is already set does not look, and neither tells the caller. A start is therefore what its
result says exactly when every listed channel is configured.
-/

namespace Chewie.Pwm

open Function List Reg

variable {timer : Timer} {state : State}

/-- The channel is one of the configured channels of the timer. -/
def Timer.Configured (timer : Timer) (channel : Nat) : Prop :=
  ∃ entry ∈ timer.channels, entry.channel = channel

/-- The last duty listed for a channel. -/
def lastDuty (channel : Nat) : List PwmChan → Option Nat
  | [] => none
  | entry :: rest =>
    match lastDuty channel rest with
    | some duty => some duty
    | none => if entry.channel = channel then some entry.duty else none

/-- The counter runs with the registers of a frequency. -/
structure Running (timer : Timer) (state : State) (frequency : Nat) : Prop where
  enabled : (state.regs .cr1).testBit 0 = true
  prescaler : state.regs .psc = prescalerFor timer.pclk frequency - 1
  reload : state.regs .arr = reloadFor timer.pclk frequency

/-- What a successful start means. -/
structure Started (timer : Timer) (before : State) (info : PwmInfo) (after : State) : Prop where
  configured : ∀ entry ∈ info.channels, entry.channel ≠ 0 → timer.Configured entry.channel
  listed : ∀ channel reg, timer.ccr channel = some reg →
    ∀ duty, lastDuty channel info.channels = some duty →
      after.regs reg = dutyCcr duty (after.regs .arr)
  unlisted : ∀ channel reg, timer.ccr channel = some reg →
    lastDuty channel info.channels = none → after.regs reg = before.regs reg
  running : Running timer after info.frequency

/-- A start succeeds only if it did what was requested, and reports a channel that is not
configured. -/
def StartCorrect (timer : Timer) (state : State) (info : PwmInfo) : Prop :=
  ((pwmStart timer state info).2 = 0 → Started timer state info (pwmStart timer state info).1) ∧
    ((∃ entry ∈ info.channels, entry.channel ≠ 0 ∧ ¬timer.Configured entry.channel) →
      (pwmStart timer state info).2 < 0)

/-- The registers that are not compare registers. -/
def Reg.Plain (reg : Reg) : Prop :=
  reg = .cr1 ∨ reg = .dier ∨ reg = .sr ∨ reg = .egr ∨ reg = .ccer ∨ reg = .psc ∨ reg = .arr ∨
    reg = .rcr

section

variable {reg : Reg} {channel : Nat} (selected : timer.ccr channel = some reg)

include selected

theorem ccr_cases :
    (channel = 1 ∧ reg = .ccr1) ∨ (channel = 2 ∧ reg = .ccr2) ∨ (channel = 3 ∧ reg = .ccr3) ∨
      (channel = 4 ∧ reg = .ccr4) ∨ (channel = 5 ∧ reg = .ccr5) ∨ (channel = 6 ∧ reg = .ccr6) := by
  unfold Timer.ccr ccrReg at selected
  split at selected
  · cases selected
  · split at selected
    all_goals simp_all

theorem ccr_not_plain : ¬reg.Plain := by
  unfold Plain
  rcases ccr_cases selected with ⟨_, rfl⟩ | ⟨_, rfl⟩ | ⟨_, rfl⟩ | ⟨_, rfl⟩ | ⟨_, rfl⟩ | ⟨_, rfl⟩
  all_goals decide

theorem ccr_injective {other : Nat} (second : timer.ccr other = some reg) : channel = other := by
  rcases ccr_cases selected with ⟨rfl, rfl⟩ | ⟨rfl, rfl⟩ | ⟨rfl, rfl⟩ | ⟨rfl, rfl⟩ | ⟨rfl, rfl⟩ |
    ⟨rfl, rfl⟩
  all_goals
    have possible := ccr_cases second
    simp at possible
    exact possible.symm

end

theorem ccr_zero (timer : Timer) : timer.ccr 0 = none := by
  cases selected : timer.ccr 0 with
  | none => rfl
  | some reg =>
    have possible := ccr_cases selected
    simp at possible

def setDuties (timer : Timer) (state : State) (entries : List PwmChan) : State :=
  entries.foldl (fun state entry => (pwmDutyUpdate timer state entry.channel entry.duty).1) state

theorem pwmDutyUpdate_plain (timer : Timer) (state : State) (channel duty : Nat) :
    (pwmDutyUpdate timer state channel duty).1.frequency = state.frequency ∧
      ∀ reg : Reg, reg.Plain →
        (pwmDutyUpdate timer state channel duty).1.regs reg = state.regs reg := by
  cases selected : timer.ccr channel with
  | none =>
    rw [pwmDutyUpdate_none selected]
    exact ⟨rfl, fun _ _ => rfl⟩
  | some target =>
    refine ⟨?_, ?_⟩
    · simp only [pwmDutyUpdate, pwmCcrUpdate, selected, pwmPutreg]
    · intro reg plain
      rw [pwmDutyUpdate_regs selected, update_of_ne]
      rintro rfl
      exact ccr_not_plain selected plain

theorem setDuties_plain (timer : Timer) (state : State) (entries : List PwmChan) :
    (setDuties timer state entries).frequency = state.frequency ∧
      ∀ reg : Reg, reg.Plain → (setDuties timer state entries).regs reg = state.regs reg := by
  induction entries generalizing state with
  | nil => exact ⟨rfl, fun _ _ => rfl⟩
  | cons entry rest ih =>
    have first := pwmDutyUpdate_plain timer state entry.channel entry.duty
    have later := ih (pwmDutyUpdate timer state entry.channel entry.duty).1
    exact ⟨later.1.trans first.1, fun reg plain => (later.2 reg plain).trans (first.2 reg plain)⟩

/-- Setting duties leaves the last duty of each channel, and nothing for a channel that is not
listed. -/
theorem setDuties_ccr {channel : Nat} {reg : Reg} (selected : timer.ccr channel = some reg)
    (state : State) (entries : List PwmChan) :
    (setDuties timer state entries).regs reg =
      match lastDuty channel entries with
      | some duty => dutyCcr duty (pwmArrGet timer state)
      | none => state.regs reg := by
  induction entries generalizing state with
  | nil => rfl
  | cons entry rest ih =>
    have first := pwmDutyUpdate_plain timer state entry.channel entry.duty
    have reload : pwmArrGet timer (pwmDutyUpdate timer state entry.channel entry.duty).1 =
        pwmArrGet timer state := by
      unfold pwmArrGet pwmGetreg
      rw [first.2 .arr (by simp [Plain])]
    have later := ih (pwmDutyUpdate timer state entry.channel entry.duty).1
    change (setDuties timer (pwmDutyUpdate timer state entry.channel entry.duty).1 rest).regs reg = _
    rw [later, reload, lastDuty]
    cases found : lastDuty channel rest with
    | some duty => rfl
    | none =>
      by_cases same : entry.channel = channel
      · rw [if_pos same, same, pwmDutyUpdate_regs selected, update_self]
      rw [if_neg same]
      cases chosen : timer.ccr entry.channel with
      | none => rw [pwmDutyUpdate_none chosen]
      | some target =>
        rw [pwmDutyUpdate_regs chosen, update_of_ne]
        rintro rfl
        exact same (ccr_injective chosen selected)

theorem startLoop_eq (timer : Timer) (state : State) (entries : List PwmChan) :
    startLoop timer state entries = (setDuties timer state entries, 0) := by
  induction entries generalizing state with
  | nil => rfl
  | cons entry rest ih => exact ih _

theorem dutyChannelsLoop_eq (state : State) {entries : List PwmChan}
    (configured : ∀ entry ∈ entries, entry.channel ≠ 0 → timer.Configured entry.channel) :
    dutyChannelsLoop timer state entries = (setDuties timer state entries, 0) := by
  induction entries generalizing state with
  | nil => rfl
  | cons entry rest ih =>
    have later (next : State) := ih next
      (fun other listed => configured other (mem_cons_of_mem _ listed))
    unfold dutyChannelsLoop setDuties
    rw [foldl_cons]
    by_cases used : entry.channel = 0
    · rw [used, pwmDutyUpdate_none (ccr_zero timer)]
      exact later state
    · have known : (timer.channels.any fun known => known.channel = entry.channel) = true := by
        obtain ⟨chan, found, same⟩ := configured entry mem_cons_self used
        exact any_eq_true.2 ⟨chan, found, decide_eq_true same⟩
      rw [if_pos used, if_pos known]
      exact later _

section

variable (timer state)

theorem dutyChannelsLoop_plain (entries : List PwmChan) :
    ∀ reg : Reg, reg.Plain → (dutyChannelsLoop timer state entries).1.regs reg = state.regs reg := by
  induction entries generalizing state with
  | nil => exact fun _ _ => rfl
  | cons entry rest ih =>
    intro reg plain
    have first := (pwmDutyUpdate_plain timer state entry.channel entry.duty).2 reg plain
    unfold dutyChannelsLoop
    dsimp only
    split_ifs
    · exact first
    · exact (ih _ reg plain).trans first
    · rfl
    · exact ih state reg plain

theorem pwmPutreg_frame (target : Reg) (value : Nat) :
    (pwmPutreg timer state target value).frequency = state.frequency ∧
      ∀ reg ≠ target, (pwmPutreg timer state target value).regs reg = state.regs reg :=
  ⟨rfl, fun _ other => update_of_ne other _ _⟩

theorem timerUpdate_frame :
    ∀ reg : Reg, reg ≠ .egr → reg ≠ .rcr → (timerUpdate timer state).regs reg = state.regs reg := by
  intro reg event repetition
  unfold timerUpdate pwmSoftUpdate
  split_ifs
  · rw [(pwmPutreg_frame timer _ .egr 1).2 reg event,
      (pwmPutreg_frame timer state .rcr 0).2 reg repetition]
  · exact (pwmPutreg_frame timer state .egr 1).2 reg event

theorem pwmTimerEnable_bit : ((pwmTimerEnable timer state true).regs .cr1).testBit 0 = true := by
  unfold pwmTimerEnable pwmModifyreg pwmPutreg Word.wrap regWidth
  rw [if_pos rfl]
  dsimp only
  split <;> simp

/-- The end of `pwm_timer` succeeds with the counter enabled. It keeps the prescaler, the reload
value and the compare registers. -/
theorem timerRun_spec :
    (timerRun timer state).2 = 0 ∧ ((timerRun timer state).1.regs .cr1).testBit 0 = true ∧
      ∀ reg : Reg, reg ≠ .cr1 → reg ≠ .ccer → reg ≠ .egr → reg ≠ .rcr →
        (timerRun timer state).1.regs reg = state.regs reg := by
  refine ⟨rfl, pwmTimerEnable_bit timer _, ?_⟩
  intro reg control outputs event repetition
  calc (pwmTimerEnable timer _ true).regs reg
      = (pwmOutputsEnable timer (timerUpdate timer state) (pwmOutputsFromChannels timer)
          true).1.regs reg := (pwmPutreg_frame timer _ .cr1 _).2 reg control
    _ = (timerUpdate timer state).regs reg := (pwmPutreg_frame timer _ .ccer _).2 reg outputs
    _ = state.regs reg := timerUpdate_frame timer state reg event repetition

theorem pwmTimer_eq (info : PwmInfo) :
    pwmTimer timer state info = timerRun timer (dutyChannelsLoop timer
      (pwmFrequencyUpdate timer state info.frequency).1 info.channels).1 := by
  have first : ¬(pwmFrequencyUpdate timer state info.frequency).2 < 0 := by
    change ¬(0 : Int) < 0
    decide
  unfold pwmTimer
  rw [if_neg first]
  rfl

end

theorem pwmStart_changed {info : PwmInfo} (changed : info.frequency ≠ state.frequency) :
    pwmStart timer state info = ({ (timerRun timer (dutyChannelsLoop timer
      (pwmFrequencyUpdate timer state info.frequency).1 info.channels).1).1 with
      frequency := info.frequency }, 0) := by
  have succeeds := (timerRun_spec timer (dutyChannelsLoop timer
    (pwmFrequencyUpdate timer state info.frequency).1 info.channels).1).1
  unfold pwmStart
  rw [if_neg changed]
  rw [pwmTimer_eq, if_pos succeeds, succeeds]

theorem pwmStart_same {info : PwmInfo} (same : info.frequency = state.frequency) :
    pwmStart timer state info = (setDuties timer state info.channels, 0) := by
  unfold pwmStart
  rw [if_pos same, startLoop_eq]

theorem pwmStart_ok (timer : Timer) (state : State) (info : PwmInfo) :
    (pwmStart timer state info).2 = 0 := by
  by_cases same : info.frequency = state.frequency
  · rw [pwmStart_same same]
  · rw [pwmStart_changed same]

/-- The remembered frequency is in the registers. -/
def Remembers (timer : Timer) (state : State) : Prop :=
  state.frequency ≠ 0 → Running timer state state.frequency

theorem Running.congr {other : State} {frequency : Nat} (running : Running timer state frequency)
    (kept : ∀ reg : Reg, reg.Plain → other.regs reg = state.regs reg) :
    Running timer other frequency where
  enabled := by rw [kept .cr1 (by simp [Plain])]; exact running.enabled
  prescaler := by rw [kept .psc (by simp [Plain])]; exact running.prescaler
  reload := by rw [kept .arr (by simp [Plain])]; exact running.reload

theorem pwmStart_running {info : PwmInfo} (remembers : Remembers timer state)
    (positive : 1 ≤ info.frequency) :
    (pwmStart timer state info).1.frequency = info.frequency ∧
      Running timer (pwmStart timer state info).1 info.frequency := by
  by_cases same : info.frequency = state.frequency
  · have plain := setDuties_plain timer state info.channels
    have running := remembers (by omega)
    rw [← same] at running
    rw [pwmStart_same same]
    exact ⟨plain.1.trans same.symm, running.congr plain.2⟩
  have written := pwmFrequencyUpdate_regs timer state info.frequency
  have looped := dutyChannelsLoop_plain timer (pwmFrequencyUpdate timer state info.frequency).1
    info.channels
  have finished := timerRun_spec timer (dutyChannelsLoop timer
    (pwmFrequencyUpdate timer state info.frequency).1 info.channels).1
  rw [pwmStart_changed same]
  refine ⟨rfl, finished.2.1, ?_, ?_⟩
  · rw [finished.2.2 .psc (by decide) (by decide) (by decide) (by decide),
      looped .psc (by simp [Plain]), written, update_self]
  · rw [finished.2.2 .arr (by decide) (by decide) (by decide) (by decide),
      looped .arr (by simp [Plain]), written, update_of_ne (by decide), update_self]

/-- The compare registers after a start for which every listed channel is configured. -/
theorem pwmStart_ccr {info : PwmInfo} {channel : Nat} {reg : Reg}
    (selected : timer.ccr channel = some reg)
    (configured : ∀ entry ∈ info.channels, entry.channel ≠ 0 → timer.Configured entry.channel)
    (running : Running timer (pwmStart timer state info).1 info.frequency) :
    (pwmStart timer state info).1.regs reg =
      match lastDuty channel info.channels with
      | some duty => dutyCcr duty ((pwmStart timer state info).1.regs .arr)
      | none => state.regs reg := by
  have compare := ccr_not_plain selected
  have fits : Word.wrap (regWidth timer .arr) (reloadFor timer.pclk info.frequency) =
      reloadFor timer.pclk info.frequency :=
    Word.wrap_of_lt (lt_regWidth timer .arr (reloadFor_lt _ _))
  rw [running.reload]
  by_cases same : info.frequency = state.frequency
  · have reload : state.regs .arr = reloadFor timer.pclk info.frequency := by
      rw [← running.reload, pwmStart_same same,
        (setDuties_plain timer state info.channels).2 .arr (by simp [Plain])]
    rw [pwmStart_same same, setDuties_ccr selected, pwmArrGet, pwmGetreg, reload, fits]
  have written := pwmFrequencyUpdate_regs timer state info.frequency
  have finished := timerRun_spec timer (dutyChannelsLoop timer
    (pwmFrequencyUpdate timer state info.frequency).1 info.channels).1
  have kept : (timerRun timer (dutyChannelsLoop timer
      (pwmFrequencyUpdate timer state info.frequency).1 info.channels).1).1.regs reg =
      (dutyChannelsLoop timer (pwmFrequencyUpdate timer state info.frequency).1
        info.channels).1.regs reg := by
    apply finished.2.2 <;> rintro rfl <;> exact compare (by simp [Plain])
  have reload : pwmArrGet timer (pwmFrequencyUpdate timer state info.frequency).1 =
      reloadFor timer.pclk info.frequency := by
    rw [pwmArrGet, pwmGetreg, written, update_of_ne (by decide), update_self, fits]
  have untouched : (pwmFrequencyUpdate timer state info.frequency).1.regs reg =
      state.regs reg := by
    rw [written, update_of_ne, update_of_ne]
    all_goals
      rintro rfl
      exact compare (by simp [Plain])
  rw [pwmStart_changed same]
  rw [kept, dutyChannelsLoop_eq _ configured, setDuties_ccr selected, reload, untouched]

/-- Calls of the lower half. -/
inductive PwmOp where
  | start (info : PwmInfo) (positive : 1 ≤ info.frequency)
  | stop

def pwmStep (timer : Timer) (state : State) : PwmOp → State
  | .start info _ => (pwmStart timer state info).1
  | .stop => (pwmStop timer state).1

theorem Remembers.step (remembers : Remembers timer state) (op : PwmOp) :
    Remembers timer (pwmStep timer state op) := by
  cases op with
  | start info positive =>
    have started := pwmStart_running remembers positive
    intro _
    change Running timer (pwmStart timer state info).1 (pwmStart timer state info).1.frequency
    rw [started.1]
    exact started.2
  | stop =>
    unfold pwmStep pwmStop
    split_ifs
    · exact fun running => absurd rfl running
    · exact remembers

theorem Remembers.run (remembers : Remembers timer state) (ops : List PwmOp) :
    Remembers timer (ops.foldl (pwmStep timer) state) := by
  induction ops generalizing state with
  | nil => exact remembers
  | cons op rest ih => exact ih (remembers.step op)

/-- After any calls on a timer that was stopped at first, a start does what its result says exactly
when every listed channel is configured. -/
theorem pwm_start_correct (timer : Timer) (initial : State) (stopped : initial.frequency = 0)
    (ops : List PwmOp) (info : PwmInfo) (positive : 1 ≤ info.frequency) :
    StartCorrect timer (ops.foldl (pwmStep timer) initial) info ↔
      ∀ entry ∈ info.channels, entry.channel ≠ 0 → timer.Configured entry.channel := by
  have fresh : Remembers timer initial := fun running => absurd stopped running
  have remembers := fresh.run ops
  generalize ops.foldl (pwmStep timer) initial = state at *
  have succeeds := pwmStart_ok timer state info
  constructor
  · intro correct
    exact (correct.1 succeeds).configured
  · intro configured
    have running := (pwmStart_running remembers positive).2
    constructor
    · intro _
      refine ⟨configured, ?_, ?_, running⟩
      · intro channel reg selected duty last
        have value := pwmStart_ccr selected configured running
        rw [last] at value
        exact value
      · intro channel reg selected last
        have value := pwmStart_ccr selected configured running
        rw [last] at value
        exact value
    · rintro ⟨entry, listed, used, missing⟩
      exact absurd (configured entry listed used) missing

/-- The four channels of the sample timer can be started. -/
theorem pwm_start_correct_motor :
    StartCorrect sampleTimer ⟨0, fun _ => 0⟩ ⟨400, [⟨23592, 1⟩, ⟨23592, 2⟩, ⟨0, 0⟩, ⟨1, 4⟩]⟩ := by
  have result := pwm_start_correct sampleTimer ⟨0, fun _ => 0⟩ rfl []
    ⟨400, [⟨23592, 1⟩, ⟨23592, 2⟩, ⟨0, 0⟩, ⟨1, 4⟩]⟩ (by decide)
  exact result.2 (by unfold Timer.Configured; decide)

/-- A timer on which only channel 1 is configured. -/
def singleTimer : Timer where
  timid := 4
  pwmTimers := [4]
  timersV2 := false
  timtype := .general16
  channels := [⟨1, true, false⟩]
  pclk := 84000000
  resetValue := fun _ => 0
  clock := sampleTimer.clock

/-- A start that lists a channel that is not configured succeeds. With a new frequency the channels
listed behind it keep their duty, and with the same frequency the register of the channel is
written. -/
theorem pwm_start_silent :
    let first := pwmStart singleTimer ⟨0, fun _ => 0⟩ ⟨400, [⟨32768, 2⟩, ⟨32768, 1⟩]⟩
    let second := pwmStart singleTimer first.1 ⟨400, [⟨32768, 2⟩, ⟨32768, 1⟩]⟩
    first.2 = 0 ∧ first.1.regs .ccr1 = 0 ∧
      ¬StartCorrect singleTimer ⟨0, fun _ => 0⟩ ⟨400, [⟨32768, 2⟩, ⟨32768, 1⟩]⟩ ∧
      second.2 = 0 ∧ second.1.regs .ccr2 = 26250 ∧
      ¬StartCorrect singleTimer first.1 ⟨400, [⟨32768, 2⟩, ⟨32768, 1⟩]⟩ := by
  have missing : ∃ entry ∈ (⟨400, [⟨32768, 2⟩, ⟨32768, 1⟩]⟩ : PwmInfo).channels,
      entry.channel ≠ 0 ∧ ¬singleTimer.Configured entry.channel := by
    unfold Timer.Configured
    decide
  refine ⟨by decide, by decide, ?_, by decide, by decide, ?_⟩
  · exact fun correct => absurd (correct.2 missing) (by decide)
  · exact fun correct => absurd (correct.2 missing) (by decide)

end Chewie.Pwm
