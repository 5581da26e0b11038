import Chewie.Pwm.Timer
import Chewie.Lib.Ratio

/-!
# Frequency and duty in the registers

The prescaler is the smallest divider that leaves a count in the range of the reload register. The
lemmas say what the registers hold after the driver has set a frequency and a duty, and that the
unsigned words do not wrap for the frequencies that a timer can have.
-/

namespace Chewie.Pwm

open Word Ratio Function

variable {timer : Timer} {pclk frequency : Nat}

theorem lt_regWidth (timer : Timer) (reg : Reg) {value : Nat} (fits : value < 2 ^ 16) :
    value < 2 ^ regWidth timer reg := by
  unfold regWidth
  split
  · omega
  · exact fits

theorem reloadFor_lt (pclk frequency : Nat) : reloadFor pclk frequency < 2 ^ 16 := by
  unfold reloadFor
  dsimp only
  split_ifs <;> omega

theorem prescalerFor_le (pclk frequency : Nat) :
    1 ≤ prescalerFor pclk frequency ∧ prescalerFor pclk frequency ≤ 65536 := by
  unfold prescalerFor
  dsimp only
  split_ifs <;> omega

theorem pwmFrequencyUpdate_regs (timer : Timer) (state : State) (frequency : Nat) :
    (pwmFrequencyUpdate timer state frequency).1.regs =
      update (update state.regs .arr (reloadFor timer.pclk frequency)) .psc
        (prescalerFor timer.pclk frequency - 1) := by
  have divided := prescalerFor_le timer.pclk frequency
  have small : prescalerFor timer.pclk frequency - 1 < 2 ^ 16 := by omega
  have reload := lt_regWidth timer .arr (reloadFor_lt timer.pclk frequency)
  have prescaler := lt_regWidth timer .psc small
  simp only [pwmFrequencyUpdate, pwmArrUpdate, pwmPutreg, wrap_of_lt small,
    wrap_of_lt reload, wrap_of_lt prescaler]

theorem dutyCcr_lt (duty reload : Nat) : dutyCcr duty reload < 2 ^ 16 := by
  have bound := add_lt 32 (wrap 32 (duty * reload)) 0x8000
  unfold dutyCcr
  omega

theorem pwmDutyUpdate_regs {state : State} {channel duty : Nat} {reg : Reg}
    (selected : timer.ccr channel = some reg) :
    (pwmDutyUpdate timer state channel duty).1.regs =
      update state.regs reg (dutyCcr duty (pwmArrGet timer state)) := by
  have fits := lt_regWidth timer reg (dutyCcr_lt duty (pwmArrGet timer state))
  simp only [pwmDutyUpdate, pwmCcrUpdate, selected, pwmPutreg, wrap_of_lt fits]

theorem pwmDutyUpdate_none {state : State} {channel duty : Nat}
    (selected : timer.ccr channel = none) : pwmDutyUpdate timer state channel duty = (state, 0) := by
  simp only [pwmDutyUpdate, pwmCcrUpdate, selected]

theorem prescalerFor_eq (slow : 2 ≤ pclk / frequency) (fast : pclk / frequency ≤ 65535 * 65536) :
    prescalerFor pclk frequency = divider 65535 (pclk / frequency) := by
  have sum : add 32 (pclk / frequency) 65534 = pclk / frequency + 65534 := add_of_lt (by omega)
  have lower : 1 ≤ (pclk / frequency + 65534) / 65535 := by omega
  have upper : (pclk / frequency + 65534) / 65535 ≤ 65536 := by omega
  unfold prescalerFor divider
  rw [sum, if_neg (Nat.not_lt.2 lower), if_neg (Nat.not_lt.2 upper)]

theorem reloadFor_eq (slow : 2 ≤ pclk / frequency) (fast : pclk / frequency ≤ 65535 * 65536) :
    2 ≤ pclk / frequency / divider 65535 (pclk / frequency) ∧
      reloadFor pclk frequency + 1 = pclk / frequency / divider 65535 (pclk / frequency) := by
  have exchange : pclk / prescalerFor pclk frequency / frequency =
      pclk / frequency / divider 65535 (pclk / frequency) := by
    rw [prescalerFor_eq slow fast, Nat.div_div_eq_div_mul, Nat.mul_comm, Nat.div_div_eq_div_mul]
  have upper := @div_divider_le 65535 (by decide) (pclk / frequency)
  have lower : 2 ≤ pclk / frequency / divider 65535 (pclk / frequency) := by
    by_cases whole : 1 < divider 65535 (pclk / frequency)
    · have half := @half_le_div_divider 65535 _ (by decide) whole
      omega
    · have positive := @divider_pos 65535 (pclk / frequency) (by decide) (by omega)
      rw [show divider 65535 (pclk / frequency) = 1 by omega, Nat.div_one]
      exact slow
  refine ⟨lower, ?_⟩
  unfold reloadFor
  dsimp only
  rw [if_neg (by omega), if_neg (by omega)]
  omega

theorem dutyCcr_eq {duty reload : Nat} (whole : duty ≤ 65536) (small : reload ≤ 65534) :
    duty * reload + 0x8000 < 2 ^ 32 ∧ dutyCcr duty reload = nearest 16 (duty * reload) := by
  have product : duty * reload ≤ 65536 * 65534 := Nat.mul_le_mul whole small
  have precise : wrap 32 (duty * reload) = duty * reload := wrap_of_lt (by omega)
  have sum : add 32 (duty * reload) 0x8000 = duty * reload + 0x8000 := add_of_lt (by omega)
  refine ⟨by omega, ?_⟩
  unfold dutyCcr nearest
  rw [precise, sum, Nat.shiftRight_eq_div_pow]
  rfl

/-- The prescaler and reload registers for a frequency that the timer can have. -/
structure Period (timer : Timer) (frequency psc arr : Nat) : Prop where
  psc_le : psc ≤ 65535
  arr_pos : 1 ≤ arr
  arr_le : arr ≤ 65534
  period_le : (psc + 1) * (arr + 1) ≤ timer.pclk / frequency
  lt_period : timer.pclk / frequency < (psc + 1) * (arr + 1) + (psc + 1)
  /-- The prescaler is only used when the counter takes half of its range. -/
  resolution : 0 < psc → 32768 ≤ arr + 1

/-- The compare value for a duty: rounded to the nearest, without wrapping. -/
structure Compare (arr duty ccr : Nat) : Prop where
  no_wrap : duty * arr + 0x8000 < 2 ^ 32
  nearest : (ccr : Int) = round ((duty * arr : ℚ) / 65536)
  ccr_le : ccr ≤ arr

theorem period_of_frequency (slow : 2 ≤ timer.pclk / frequency)
    (fast : timer.pclk / frequency ≤ 65535 * 65536) :
    Period timer frequency (prescalerFor timer.pclk frequency - 1)
      (reloadFor timer.pclk frequency) := by
  have divided := prescalerFor_le timer.pclk frequency
  have parts := prescalerFor_eq slow fast
  have limit := @div_divider_le 65535 (by decide) (timer.pclk / frequency)
  have whole : prescalerFor timer.pclk frequency - 1 + 1 = prescalerFor timer.pclk frequency :=
    Nat.sub_add_cancel divided.1
  obtain ⟨two, steps⟩ := reloadFor_eq slow fast
  rw [← parts] at two steps limit
  constructor
  · omega
  · omega
  · omega
  · rw [whole, steps]
    exact Nat.mul_div_le _ _
  · rw [whole, steps, Nat.mul_comm]
    exact Nat.lt_div_mul_add (by omega)
  · intro used
    have half := @half_le_div_divider 65535 (timer.pclk / frequency) (by decide) (by omega)
    rw [← parts] at half
    omega

theorem compare_of_duty {duty reload : Nat} (whole : duty ≤ 65536) (small : reload ≤ 65534) :
    Compare reload duty (dutyCcr duty reload) := by
  obtain ⟨fits, rounded⟩ := dutyCcr_eq whole small
  refine ⟨fits, ?_, ?_⟩
  · rw [rounded, nearest_eq_round _ (by decide)]
    norm_num
  · rw [rounded]
    calc nearest 16 (duty * reload)
        ≤ nearest 16 (2 ^ 16 * reload) :=
          nearest_mono (Nat.mul_le_mul_right _ whole)
      _ = reload := nearest_mul _ (by decide)

theorem dutyCcr_mono {less more reload : Nat} (ordered : less ≤ more) (whole : more ≤ 65536)
    (small : reload ≤ 65534) : dutyCcr less reload ≤ dutyCcr more reload := by
  rw [(dutyCcr_eq (Nat.le_trans ordered whole) small).2, (dutyCcr_eq whole small).2]
  exact nearest_mono (Nat.mul_le_mul_right _ ordered)

/-- Setting a frequency that the timer can have makes a period that is as long as requested up to
one step, and every later duty up to one is rounded to the nearest compare value, in the order of
the duties. -/
theorem pwm_registers (timer : Timer) (state : State) (frequency : Nat) (positive : 1 ≤ frequency)
    (slow : frequency ≤ timer.pclk / 2) (fast : timer.pclk / frequency ≤ 65535 * 65536) :
    Period timer frequency ((pwmFrequencyUpdate timer state frequency).1.regs .psc)
        ((pwmFrequencyUpdate timer state frequency).1.regs .arr) ∧
      ∀ later : State,
        later.regs .arr = (pwmFrequencyUpdate timer state frequency).1.regs .arr →
        ∀ channel reg, timer.ccr channel = some reg → ∀ duty ≤ 65536,
          Compare (later.regs .arr) duty
              ((pwmDutyUpdate timer later channel duty).1.regs reg) ∧
            ∀ less ≤ duty, (pwmDutyUpdate timer later channel less).1.regs reg ≤
              (pwmDutyUpdate timer later channel duty).1.regs reg := by
  have count : 2 ≤ timer.pclk / frequency := by
    apply (Nat.le_div_iff_mul_le positive).2
    omega
  have period := period_of_frequency count fast
  have written := pwmFrequencyUpdate_regs timer state frequency
  have psc : (pwmFrequencyUpdate timer state frequency).1.regs .psc =
      prescalerFor timer.pclk frequency - 1 := by
    rw [written, Function.update_self]
  have arr : (pwmFrequencyUpdate timer state frequency).1.regs .arr =
      reloadFor timer.pclk frequency := by
    rw [written, Function.update_of_ne (by decide), Function.update_self]
  rw [psc, arr]
  refine ⟨period, ?_⟩
  intro later kept channel reg selected duty whole
  have reload : pwmArrGet timer later = reloadFor timer.pclk frequency := by
    unfold pwmArrGet pwmGetreg
    rw [kept, wrap_of_lt (lt_regWidth timer .arr (reloadFor_lt _ _))]
  have value (any : Nat) : (pwmDutyUpdate timer later channel any).1.regs reg =
      dutyCcr any (reloadFor timer.pclk frequency) := by
    rw [pwmDutyUpdate_regs selected, Function.update_self, reload]
  rw [kept, value duty]
  refine ⟨compare_of_duty whole period.arr_le, ?_⟩
  intro less ordered
  rw [value less]
  exact dutyCcr_mono ordered whole period.arr_le

/-- A general 16-bit timer with four channels at 84 MHz. -/
def sampleTimer : Timer where
  timid := 4
  pwmTimers := [4]
  timersV2 := false
  timtype := .general16
  channels := [⟨1, true, false⟩, ⟨2, true, false⟩, ⟨3, true, false⟩, ⟨4, true, false⟩]
  pclk := 84000000
  resetValue := fun _ => 0
  clock := by decide

/-- The motor frequency on the sample timer: a prescaler of four and 52500 steps. -/
theorem pwm_registers_motor : Period sampleTimer 400 3 52499 ∧ Compare 52499 23592 18899 := by
  have result := pwm_registers sampleTimer ⟨0, fun _ => 0⟩ 400 (by decide) (by decide) (by decide)
  have compare := (result.2 (pwmFrequencyUpdate sampleTimer ⟨0, fun _ => 0⟩ 400).1 rfl 1 .ccr1 rfl
    23592 (by decide)).1
  exact ⟨result.1, compare⟩

end Chewie.Pwm
