import Chewie.Lib.Word

/-!
# The STM32 timer behind a PWM device

The lower half of the PWM driver writes the registers of one timer. A start sets the frequency with
the prescaler and the reload value, sets the compare register of each listed channel from its duty,
and enables the outputs and the counter. The frequency is remembered: a start with the same
frequency only changes the duties. A stop resets the timer. Channels are configured for several
outputs here (`CONFIG_PWM_MULTICHAN`), and pulses are not counted.
-/

namespace Chewie.Pwm

/-- The timer registers that the driver uses after its setup. -/
inductive Reg where
  /-- Control register 1, which has the counter enable bit. -/
  | cr1
  | dier
  | sr
  | egr
  | ccer
  | psc
  | arr
  | rcr
  | ccr1
  | ccr2
  | ccr3
  | ccr4
  | ccr5
  | ccr6
deriving DecidableEq

/-- `TIMTYPE_*`. -/
inductive TimType where
  | basic
  | general16
  | countup16
  | countup16N
  | general32
  | advanced
deriving DecidableEq

/-- The configuration of one timer channel. -/
structure PwmChannel where
  channel : Nat
  out1 : Bool
  out2 : Bool
deriving DecidableEq

/-- The compare register that `pwm_ccr_update` selects, with `HAVE_IP_TIMERS_V2` or without. -/
def ccrReg (timersV2 : Bool) (timtype : TimType) (index : Nat) : Option Reg :=
  if timersV2 ∧ timtype ≠ .advanced ∧ (index = 5 ∨ index = 6) then none
  else match index with
    | 1 => some .ccr1
    | 2 => some .ccr2
    | 3 => some .ccr3
    | 4 => some .ccr4
    | 5 => if timersV2 then some .ccr5 else none
    | 6 => if timersV2 then some .ccr6 else none
    | _ => none

/-- The part of `stm32_pwmtimer_s` that never changes, and what the chip is. -/
structure Timer where
  timid : Nat
  /-- The timers that are configured for PWM, which `pwm_stop` can reset. -/
  pwmTimers : List Nat
  timersV2 : Bool
  timtype : TimType
  channels : List PwmChannel
  pclk : Nat
  resetValue : Reg → Nat
  clock : pclk < 2 ^ 32

/-- What the lower half changes: the remembered frequency and the registers. -/
structure State where
  frequency : Nat
  regs : Reg → Nat

/-- The requested output of one channel, `pwm_chan_s`. -/
structure PwmChan where
  /-- The duty, a fraction with sixteen bits behind the point. -/
  duty : Nat
  channel : Nat
deriving DecidableEq

/-- The requested output, `pwm_info_s`. -/
structure PwmInfo where
  frequency : Nat
  channels : List PwmChan
deriving DecidableEq

/-- `-EINVAL`. -/
def einval : Int := -22

/-- Which registers have 32 bits. -/
def pwmRegIs32bit (timer : Timer) (reg : Reg) : Bool :=
  match timer.timtype with
  | .general32 => reg ∈ [.arr, .ccr1, .ccr2, .ccr3, .ccr4]
  | .advanced => timer.timersV2 && reg ∈ [.ccer, .ccr5]
  | _ => false

/-- The number of bits of a register. -/
def regWidth (timer : Timer) (reg : Reg) : Nat := if pwmRegIs32bit timer reg then 32 else 16

/-- Read a register. -/
def pwmGetreg (timer : Timer) (state : State) (reg : Reg) : Nat :=
  Word.wrap (regWidth timer reg) (state.regs reg)

/-- Write a register. -/
def pwmPutreg (timer : Timer) (state : State) (reg : Reg) (value : Nat) : State :=
  { state with
    regs := Function.update state.regs reg (Word.wrap (regWidth timer reg) value) }

/-- Clear some bits of a register and set others. -/
def pwmModifyreg (timer : Timer) (state : State) (reg : Reg) (clearbits setbits : Nat) : State :=
  pwmPutreg timer state reg
    (Word.andNot (regWidth timer reg) (pwmGetreg timer state reg) clearbits ||| setbits)

/-- The compare register of a channel of the timer. -/
def Timer.ccr (timer : Timer) (index : Nat) : Option Reg :=
  ccrReg timer.timersV2 timer.timtype index

/-- Write the compare register of a channel. -/
def pwmCcrUpdate (timer : Timer) (state : State) (index ccr : Nat) : State × Int :=
  match timer.ccr index with
  | some reg => (pwmPutreg timer state reg ccr, 0)
  | none => (state, einval)

/-- Write the reload value. -/
def pwmArrUpdate (timer : Timer) (state : State) (arr : Nat) : State :=
  pwmPutreg timer state .arr arr

/-- Read the reload value. -/
def pwmArrGet (timer : Timer) (state : State) : Nat := pwmGetreg timer state .arr

/-- `b16toi(duty * reload + b16HALF)` with unsigned words of 32 bits. -/
def dutyCcr (duty reload : Nat) : Nat :=
  Word.add 32 (Word.wrap 32 (duty * reload)) 0x8000 >>> 16

/-- Change the duty of a channel. A channel without compare register is not reported. -/
def pwmDutyUpdate (timer : Timer) (state : State) (channel duty : Nat) : State × Int :=
  let reload := pwmArrGet timer state
  ((pwmCcrUpdate timer state channel (dutyCcr duty reload)).1, 0)

/-- Enable or disable the counter. -/
def pwmTimerEnable (timer : Timer) (state : State) (enable : Bool) : State :=
  if enable then pwmModifyreg timer state .cr1 0 1 else pwmModifyreg timer state .cr1 1 0

/-- The prescaler for a frequency, before one is subtracted. -/
def prescalerFor (pclk frequency : Nat) : Nat :=
  let prescaler := Word.add 32 (pclk / frequency) 65534 / 65535
  if prescaler < 1 then 1 else if prescaler > 65536 then 65536 else prescaler

/-- The reload value for a frequency. -/
def reloadFor (pclk frequency : Nat) : Nat :=
  let timclk := pclk / prescalerFor pclk frequency
  let reload := timclk / frequency
  if reload < 2 then 1 else if reload > 65535 then 65535 else reload - 1

/-- Change the frequency of the timer. -/
def pwmFrequencyUpdate (timer : Timer) (state : State) (frequency : Nat) : State × Int :=
  let state := pwmArrUpdate timer state (reloadFor timer.pclk frequency)
  (pwmPutreg timer state .psc (Word.wrap 16 (prescalerFor timer.pclk frequency - 1)), 0)

/-- Make the timer load its prescaler. -/
def pwmSoftUpdate (timer : Timer) (state : State) : State := pwmPutreg timer state .egr 1

/-- The outputs of the configured channels, two bits for each channel. -/
def pwmOutputsFromChannels (timer : Timer) : Nat :=
  timer.channels.foldl (fun outputs entry =>
    if entry.channel ≠ 0 then
      let outputs := if entry.out1 then outputs ||| 1 <<< ((entry.channel - 1) * 2) else outputs
      Word.wrap 16 (if entry.out2 then outputs ||| 2 <<< ((entry.channel - 1) * 2) else outputs)
    else outputs) 0

/-- The bit of each output, and its enable bit. -/
def outputBits (timer : Timer) : List (Nat × Nat) :=
  [(0, 0), (1, 2), (2, 4), (3, 6), (4, 8), (5, 10), (6, 12)] ++
    if timer.timersV2 then [(8, 16), (10, 20)] else []

/-- Enable or disable outputs. -/
def pwmOutputsEnable (timer : Timer) (state : State) (outputs : Nat) (enable : Bool) :
    State × Int :=
  let ccer := pwmGetreg timer state .ccer
  let regval := (outputBits timer).foldl (fun regval bits =>
    regval ||| if outputs.testBit bits.1 then 1 <<< bits.2 else 0) 0
  let ccer := if enable then ccer ||| regval else Word.andNot 32 ccer regval
  (pwmPutreg timer state .ccer ccer, 0)

/-- The loop of `pwm_duty_channels_update`, which stops at a channel that is not configured. -/
def dutyChannelsLoop (timer : Timer) : State → List PwmChan → State × Int
  | state, [] => (state, 0)
  | state, entry :: rest =>
    if entry.channel ≠ 0 then
      if timer.channels.any fun known => known.channel = entry.channel then
        let done := pwmDutyUpdate timer state entry.channel entry.duty
        if done.2 < 0 then done else dutyChannelsLoop timer done.1 rest
      else (state, einval)
    else dutyChannelsLoop timer state rest

/-- Change the duties of the listed channels. The result of the loop is dropped. -/
def pwmDutyChannelsUpdate (timer : Timer) (state : State) (info : PwmInfo) : State × Int :=
  ((dutyChannelsLoop timer state info.channels).1, 0)

/-- The update event of `pwm_timer`, with the repetition counter of advanced timers. -/
def timerUpdate (timer : Timer) (state : State) : State :=
  if timer.timtype = .advanced ∨ timer.timtype = .countup16N then
    pwmSoftUpdate timer (pwmPutreg timer state .rcr 0)
  else pwmSoftUpdate timer state

/-- The part of `pwm_timer` behind the duties: update event, outputs and counter. -/
def timerRun (timer : Timer) (state : State) : State × Int :=
  let state := timerUpdate timer state
  let done := pwmOutputsEnable timer state (pwmOutputsFromChannels timer) true
  if done.2 < 0 then done else (pwmTimerEnable timer done.1 true, done.2)

/-- Set up the timer and start the output. -/
def pwmTimer (timer : Timer) (state : State) (info : PwmInfo) : State × Int :=
  let done := pwmFrequencyUpdate timer state info.frequency
  if done.2 < 0 then done
  else
    let done := pwmDutyChannelsUpdate timer done.1 info
    if done.2 < 0 then done else timerRun timer done.1

/-- The loop of `pwm_start` for a frequency that has not changed. -/
def startLoop (timer : Timer) : State → List PwmChan → State × Int
  | state, [] => (state, 0)
  | state, entry :: rest =>
    let done := pwmDutyUpdate timer state entry.channel entry.duty
    if done.2 = 0 then startLoop timer done.1 rest else done

/-- Start the output, or change it. -/
def pwmStart (timer : Timer) (state : State) (info : PwmInfo) : State × Int :=
  if info.frequency = state.frequency then startLoop timer state info.channels
  else
    let done := pwmTimer timer state info
    if done.2 = 0 then ({ done.1 with frequency := info.frequency }, done.2) else done

/-- Reset the timer through its bit in the reset register. -/
def rccReset (timer : Timer) (state : State) : State := { state with regs := timer.resetValue }

/-- Stop the output with a reset of the timer. -/
def pwmStop (timer : Timer) (state : State) : State × Int :=
  if timer.timid ∈ timer.pwmTimers then
    let state := { state with frequency := 0 }
    let state := pwmPutreg timer state .dier 0
    let state := pwmPutreg timer state .sr 0
    (rccReset timer state, 0)
  else (state, einval)

end Chewie.Pwm
