import Chewie.Lib.Word
import Chewie.Lib.Signed
import Mathlib.Tactic.Linarith

/-!
# Deadlines in clock ticks

`clock_abstime2ticks` turns an absolute time into the number of ticks to wait from now, and
`clock_time2ticks` turns a relative time into ticks and rounds up. The nanoseconds have 64 bits and
do not overflow, but the tick count is narrowed to `sclock_t`, a signed word of 32 bits. A deadline
is exact as long as it is not more than `INT32_MAX` ticks away.
-/

namespace Chewie.Clock

open Word Signed

def nsecPerSec : Int := 1000000000

/-- The length of a clock tick, `USEC_PER_TICK`. -/
structure TickConfig where
  usecPerTick : Nat
  positive : 0 < usecPerTick
  /-- `NSEC_PER_TICK` is a `long`. -/
  fits : usecPerTick * 1000 < 2 ^ 31

def TickConfig.nsecPerTick (config : TickConfig) : Int := config.usecPerTick * 1000

/-- The default tick of ten milliseconds. -/
def defaultTick : TickConfig := ⟨10000, by decide, by decide⟩

/-- `struct timespec`. -/
structure Timespec where
  sec : Nat
  nsec : Int
deriving DecidableEq

/-- The seconds fit their type and the nanoseconds are less than a second. -/
structure Timespec.Valid (time : Timespec) : Prop where
  sec_lt : time.sec < 2 ^ 32
  nsec_nonneg : 0 ≤ time.nsec
  nsec_lt : time.nsec < nsecPerSec

/-- The time in nanoseconds. -/
def Timespec.total (time : Timespec) : Int := time.sec * nsecPerSec + time.nsec

/-- The error that the conversion returns. -/
inductive Errno where
  | einval
deriving DecidableEq

def compareTimespec (left right : Timespec) : Int :=
  if left.sec < right.sec then -1
  else if right.sec < left.sec then 1
  else left.nsec - right.nsec

/-- `clock_time2ticks`, with the quotient of C, which truncates. -/
def clockTime2ticks (config : TickConfig) (reltime : Timespec) : Int :=
  let relnsec := Signed.wrap 64 (reltime.sec * nsecPerSec + reltime.nsec)
  Signed.wrap 32 ((Signed.wrap 64 (relnsec + config.nsecPerTick - 1)).tdiv config.nsecPerTick)

/-- The relative time of `clock_abstime2ticks`, with the borrow from the seconds. -/
def relativeTime (abstime currtime : Timespec) : Timespec :=
  let nsec := abstime.nsec - currtime.nsec
  let sec := Word.sub 32 abstime.sec currtime.sec
  if nsec < 0 then ⟨Word.sub 32 sec 1, nsec + nsecPerSec⟩ else ⟨sec, nsec⟩

/-- `clock_abstime2ticks`, where `gettime` is the answer of `clock_gettime`. -/
def clockAbstime2ticks (config : TickConfig) (gettime : Option Timespec) (abstime : Timespec) :
    Except Errno Int :=
  match gettime with
  | none => .error .einval
  | some currtime =>
    if compareTimespec abstime currtime < 0 then .ok (-1)
    else .ok (clockTime2ticks config (relativeTime abstime currtime))

variable {config : TickConfig} {abstime now : Timespec}

theorem TickConfig.nsecPerTick_pos (config : TickConfig) : 0 < config.nsecPerTick := by
  have positive := config.positive
  unfold TickConfig.nsecPerTick
  omega

theorem TickConfig.nsecPerTick_lt (config : TickConfig) : config.nsecPerTick < 2 ^ 31 := by
  have fits := config.fits
  unfold TickConfig.nsecPerTick
  omega

theorem compareTimespec_neg (absValid : abstime.Valid) (nowValid : now.Valid) :
    compareTimespec abstime now < 0 ↔ abstime.total < now.total := by
  have absNonneg := absValid.nsec_nonneg
  have absLt := absValid.nsec_lt
  have nowNonneg := nowValid.nsec_nonneg
  have nowLt := nowValid.nsec_lt
  unfold compareTimespec Timespec.total
  unfold nsecPerSec at *
  split_ifs <;> omega

theorem relativeTime_spec (absValid : abstime.Valid) (nowValid : now.Valid)
    (ahead : now.total ≤ abstime.total) :
    (relativeTime abstime now).Valid ∧
      (relativeTime abstime now).total = abstime.total - now.total := by
  have absNonneg := absValid.nsec_nonneg
  have absLt := absValid.nsec_lt
  have nowNonneg := nowValid.nsec_nonneg
  have nowLt := nowValid.nsec_lt
  have secLt := absValid.sec_lt
  unfold Timespec.total at ahead ⊢
  have later : now.sec ≤ abstime.sec := by
    unfold nsecPerSec at *
    omega
  have seconds : sub 32 abstime.sec now.sec = abstime.sec - now.sec := sub_of_le later secLt
  unfold relativeTime
  by_cases borrow : abstime.nsec - now.nsec < 0
  · have whole : 1 ≤ abstime.sec - now.sec := by
      unfold nsecPerSec at *
      omega
    have borrowed : sub 32 (abstime.sec - now.sec) 1 = abstime.sec - now.sec - 1 :=
      sub_of_le whole (by omega)
    simp only [seconds, borrow, ↓reduceIte, borrowed]
    unfold nsecPerSec at *
    exact ⟨⟨by dsimp only; omega, by dsimp only; omega,
      by dsimp only; unfold nsecPerSec; omega⟩, by omega⟩
  · simp only [seconds, borrow, ↓reduceIte]
    unfold nsecPerSec at *
    exact ⟨⟨by dsimp only; omega, by dsimp only; omega,
      by dsimp only; unfold nsecPerSec; omega⟩, by omega⟩

/-- The least number of ticks that covers a number of nanoseconds. -/
def ticksFor (config : TickConfig) (nanoseconds : Int) : Int :=
  (nanoseconds + config.nsecPerTick - 1) / config.nsecPerTick

theorem ticksFor_least (config : TickConfig) {nanoseconds : Int} (nonneg : 0 ≤ nanoseconds) :
    IsLeast {ticks : Int | 0 ≤ ticks ∧ nanoseconds ≤ ticks * config.nsecPerTick}
      (ticksFor config nanoseconds) := by
  have positive := config.nsecPerTick_pos
  have upper := Int.lt_mul_ediv_self_add (x := nanoseconds + config.nsecPerTick - 1) positive
  refine ⟨⟨Int.ediv_nonneg (by omega) (by omega), ?_⟩, ?_⟩
  · unfold ticksFor
    rw [Int.mul_comm]
    omega
  · rintro ticks ⟨_, enough⟩
    apply Int.le_of_lt_add_one
    apply Int.ediv_lt_of_lt_mul positive
    rw [Int.add_mul]
    omega

theorem ticksFor_le (config : TickConfig) {nanoseconds ticks : Int} (nonneg : 0 ≤ nanoseconds)
    (ticksNonneg : 0 ≤ ticks) :
    ticksFor config nanoseconds ≤ ticks ↔ nanoseconds ≤ ticks * config.nsecPerTick := by
  have least := ticksFor_least config nonneg
  constructor
  · intro below
    exact le_trans least.1.2
      (Int.mul_le_mul_of_nonneg_right below (le_of_lt config.nsecPerTick_pos))
  · intro enough
    exact least.2 ⟨ticksNonneg, enough⟩

theorem clockTime2ticks_eq (config : TickConfig) {reltime : Timespec} (valid : reltime.Valid) :
    clockTime2ticks config reltime = wrap 32 (ticksFor config reltime.total) := by
  have secLt := valid.sec_lt
  have nonneg := valid.nsec_nonneg
  have nsecLt := valid.nsec_lt
  have positive := config.nsecPerTick_pos
  have fits := config.nsecPerTick_lt
  have precise : wrap 64 (reltime.sec * nsecPerSec + reltime.nsec) = reltime.total := by
    apply wrap_of_fits
    · unfold nsecPerSec at *
      omega
    · unfold nsecPerSec at *
      omega
  have sum : wrap 64 (reltime.total + config.nsecPerTick - 1) =
      reltime.total + config.nsecPerTick - 1 := by
    unfold Timespec.total
    apply wrap_of_fits
    · unfold nsecPerSec at *
      omega
    · unfold nsecPerSec at *
      omega
  have sumNonneg : 0 ≤ reltime.total + config.nsecPerTick - 1 := by
    unfold Timespec.total nsecPerSec at *
    omega
  unfold clockTime2ticks
  simp only [precise, sum]
  rw [Int.tdiv_eq_ediv_of_nonneg sumNonneg]
  rfl

theorem clockAbstime2ticks_ahead (absValid : abstime.Valid) (nowValid : now.Valid)
    (ahead : now.total ≤ abstime.total) :
    clockAbstime2ticks config (some now) abstime =
      .ok (wrap 32 (ticksFor config (abstime.total - now.total))) := by
  have relative := relativeTime_spec absValid nowValid ahead
  have notBefore : ¬compareTimespec abstime now < 0 := by
    rw [compareTimespec_neg absValid nowValid]
    omega
  simp [clockAbstime2ticks, notBefore, clockTime2ticks_eq config relative.1, relative.2]

theorem clockAbstime2ticks_past (absValid : abstime.Valid) (nowValid : now.Valid)
    (past : abstime.total < now.total) :
    clockAbstime2ticks config (some now) abstime = .ok (-1) := by
  have before := (compareTimespec_neg absValid nowValid).2 past
  simp [clockAbstime2ticks, before]

/-- The conversion gives the least number of ticks that reaches the deadline, and for a deadline in
the past a number that is not positive. -/
def DeadlineExact (config : TickConfig) (now abstime : Timespec) : Prop :=
  ∃ ticks, clockAbstime2ticks config (some now) abstime = .ok ticks ∧
    (now.total ≤ abstime.total →
      IsLeast {count : Int | 0 ≤ count ∧
        abstime.total - now.total ≤ count * config.nsecPerTick} ticks) ∧
    (abstime.total < now.total → ticks ≤ 0)

/-- The conversion is exact exactly for the deadlines that are at most `INT32_MAX` ticks away. -/
theorem deadline_exact_iff (config : TickConfig) (now abstime : Timespec) (nowValid : now.Valid)
    (absValid : abstime.Valid) :
    DeadlineExact config now abstime ↔
      abstime.total - now.total ≤ (2 ^ 31 - 1) * config.nsecPerTick := by
  have positive := config.nsecPerTick_pos
  by_cases ahead : now.total ≤ abstime.total
  · have result := @clockAbstime2ticks_ahead config abstime now absValid nowValid ahead
    have least := ticksFor_least config (Int.sub_nonneg.2 ahead)
    have near : ticksFor config (abstime.total - now.total) ≤ 2 ^ 31 - 1 ↔
        abstime.total - now.total ≤ (2 ^ 31 - 1) * config.nsecPerTick :=
      ticksFor_le config (Int.sub_nonneg.2 ahead) (by decide)
    have below : Signed.wrap 32 (ticksFor config (abstime.total - now.total)) < 2 ^ 31 :=
      Signed.wrap_lt 31 _
    constructor
    · rintro ⟨ticks, returned, precise, _⟩
      rw [result] at returned
      cases returned
      have same := (precise ahead).unique least
      omega
    · intro small
      have kept : Signed.wrap 32 (ticksFor config (abstime.total - now.total)) =
          ticksFor config (abstime.total - now.total) :=
        Signed.wrap_of_fits (le_trans (by decide) least.1.1) (by omega)
      rw [kept] at result
      exact ⟨_, result, fun _ => least, fun past => absurd past (by omega)⟩
  · have past : abstime.total < now.total := by omega
    have far : abstime.total - now.total ≤ (2 ^ 31 - 1) * config.nsecPerTick := by
      omega
    constructor
    · exact fun _ => far
    · intro _
      exact ⟨-1, clockAbstime2ticks_past absValid nowValid past,
        fun notPast => absurd notPast ahead, fun _ => by decide⟩

/-- A deadline in the next second is exact. -/
theorem deadline_exact_next_second : DeadlineExact defaultTick ⟨5, 999999999⟩ ⟨6, 1⟩ := by
  apply (deadline_exact_iff defaultTick ⟨5, 999999999⟩ ⟨6, 1⟩ ⟨by decide, by decide, by decide⟩
    ⟨by decide, by decide, by decide⟩).2
  decide

/-- With ticks of ten milliseconds a deadline that is 21474837 seconds away gets a negative number
of ticks. -/
theorem deadline_far_negative :
    clockAbstime2ticks defaultTick (some ⟨0, 0⟩) ⟨21474837, 0⟩ = .ok (-2147483596) ∧
      ¬DeadlineExact defaultTick ⟨0, 0⟩ ⟨21474837, 0⟩ := by
  have result : clockAbstime2ticks defaultTick (some ⟨0, 0⟩) ⟨21474837, 0⟩ =
      .ok (-2147483596) := by decide
  refine ⟨result, ?_⟩
  rintro ⟨ticks, returned, precise, _⟩
  rw [result] at returned
  cases returned
  have nonneg := (precise (by decide)).1.1
  omega

end Chewie.Clock
