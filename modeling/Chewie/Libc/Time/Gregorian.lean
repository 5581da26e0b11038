import Chewie.Libc.Time.Simple

/-!
# Round trips of calendar time

`mktime` passes `tm_mon`, which counts from 0, to a routine that counts months from 1. In the builds
with Gregorian time the result is therefore a month early, for every time. With Julian time
`gmtime_r` uses the Julian calendar on top, since `GREG_DUTC` is compared as an unsigned number. The
routines count in years that start in March, so that a leap day is the last day of its year.
-/

namespace Chewie.Libc.Time

/-- The date in the calendar for a month, from 1, of a year that starts in March. -/
def marchDate (year month day : Int) : Date :=
  ⟨year + month / 11, month + 2 - 12 * (month / 11), day⟩

/-- The day number of a day in a year that starts in March. -/
def marchDays (year month day : Int) : Int :=
  1461 * (year + 4800) / 4 + 367 * month / 12 - 3 * ((year + 4900) / 100) / 4 + day - 32075

section March

variable {year month day : Int}

theorem marchDays_tdiv (later : 0 ≤ year) (lower : 1 ≤ month) :
    (1461 * (year + 4800)).tdiv 4 + (367 * month).tdiv 12 - (3 * (year + 4900).tdiv 100).tdiv 4 +
      day - 32075 = marchDays year month day := by
  unfold marchDays
  rw [@Int.tdiv_eq_ediv_of_nonneg (year + 4900) 100 (by omega),
    Int.tdiv_eq_ediv_of_nonneg (by omega), Int.tdiv_eq_ediv_of_nonneg (by omega),
    Int.tdiv_eq_ediv_of_nonneg (by omega)]

theorem clockGregorian2utc_march (later : 0 ≤ year) (lower : 1 ≤ month) (upper : month ≤ 12) :
    clockGregorian2utc (marchDate year month day).year (marchDate year month day).month day =
      timeT (marchDays year month day) := by
  rw [← marchDays_tdiv later lower]
  by_cases winter : month ≤ 10
  · have same : month / 11 = 0 := by omega
    have date : marchDate year month day = ⟨year, month + 2, day⟩ := by simp [marchDate, same]
    have spring : ¬month + 2 ≤ 2 := by omega
    rw [date]
    simp only [clockGregorian2utc]
    rw [if_neg spring, show year + 4800 + 0 = year + 4800 by omega,
      show year + 4900 + 0 = year + 4900 by omega, show month + 2 - 2 - 12 * 0 = month by omega]
  · have next : month / 11 = 1 := by omega
    have date : marchDate year month day = ⟨year + 1, month - 10, day⟩ := by
      simp only [marchDate, next, Date.mk.injEq, and_true, true_and]
      omega
    have early : month - 10 ≤ 2 := by omega
    rw [date]
    simp only [clockGregorian2utc]
    rw [if_pos early, show year + 1 + 4800 + -1 = year + 4800 by omega,
      show year + 1 + 4900 + -1 = year + 4900 by omega,
      show month - 10 - 2 - 12 * -1 = month by omega]

theorem shiftMonth_march (lower : 1 ≤ month) (upper : month ≤ 12) :
    let date := marchDate year month day
    let before := if month = 1 then marchDate (year - 1) 12 day else marchDate year (month - 1) day
    shiftMonth date.year (date.month - 1) = (before.year, before.month) := by
  interval_cases month <;> simp [shiftMonth, marchDate]

theorem marchDays_before (year month day : Int) :
    let before :=
      if month = 1 then marchDays (year - 1) 12 day else marchDays year (month - 1) day
    marchDays year month day - 31 ≤ before ∧ before ≤ marchDays year month day - 28 := by
  have century : (year - 1 + 4900) / 100 = (year + 4900) / 100 ∨
      year + 4900 = 100 * ((year + 4900) / 100) ∧
        (year - 1 + 4900) / 100 = (year + 4900) / 100 - 1 := by omega
  unfold marchDays
  by_cases first : month = 1
  · rw [first]
    rcases century with same | ⟨whole, next⟩
    · rw [same]
      omega
    · omega
  · rw [if_neg first]
    omega

theorem clockGregorian2utc_early (later : 1 ≤ year) (lower : 1 ≤ month) (upper : month ≤ 12) :
    let date := marchDate year month day
    let shifted := shiftMonth date.year (date.month - 1)
    year - 1 ≤ shifted.1 ∧ ∃ early, 28 ≤ early ∧ early ≤ 31 ∧
      clockGregorian2utc shifted.1 shifted.2 day = timeT (marchDays year month day - early) := by
  have shift := @shiftMonth_march year month day lower upper
  have days := marchDays_before year month day
  dsimp only at shift days ⊢
  rw [shift]
  by_cases first : month = 1
  · rw [if_pos first] at days ⊢
    refine ⟨by simp [marchDate], marchDays year month day - marchDays (year - 1) 12 day, by omega,
      by omega, ?_⟩
    rw [clockGregorian2utc_march (by omega) (by decide) (by decide)]
    congr 1
    omega
  rw [if_neg first] at days ⊢
  refine ⟨by simp only [marchDate]; omega,
    marchDays year month day - marchDays year (month - 1) day, by omega, by omega, ?_⟩
  rw [clockGregorian2utc_march (by omega) (by omega) (by omega)]
  congr 1
  omega

end March

theorem marchMonth_spec {day : Int} (lower : 31 ≤ day) (upper : day ≤ 396) :
    1 ≤ 80 * day / 2447 ∧ 80 * day / 2447 ≤ 12 ∧
      367 * (80 * day / 2447) / 12 = 2447 * (80 * day / 2447) / 80 := by
  have first : 1 ≤ 80 * day / 2447 := by omega
  have last : 80 * day / 2447 ≤ 12 := by omega
  refine ⟨first, last, ?_⟩
  generalize 80 * day / 2447 = month at first last
  interval_cases month <;> decide

/-- The Gregorian date of a day number. -/
theorem clockUtc2gregorian_march {jd : Int} (lower : 2440588 ≤ jd) (upper : jd ≤ 2490298) :
    ∃ year month day, 1 ≤ year ∧ 1 ≤ month ∧ month ≤ 12 ∧
      clockUtc2gregorian jd = marchDate year month day ∧ marchDays year month day = jd := by
  obtain ⟨n, century⟩ : ∃ n, n = 4 * (jd + 68569) / 146097 := ⟨_, rfl⟩
  obtain ⟨l, left⟩ : ∃ l, l = jd + 68569 - (146097 * n + 3) / 4 := ⟨_, rfl⟩
  obtain ⟨i, years⟩ : ∃ i, i = 4000 * (l + 1) / 1461001 := ⟨_, rfl⟩
  obtain ⟨day, rest⟩ : ∃ day, day = l - 1461 * i / 4 + 31 := ⟨_, rfl⟩
  have dayLow : 31 ≤ day := by omega
  have dayHigh : day ≤ 396 := by omega
  have month := marchMonth_spec dayLow dayHigh
  refine ⟨100 * (n - 49) + i, 80 * day / 2447, day - 2447 * (80 * day / 2447) / 80, by omega,
    month.1, month.2.1, ?_, ?_⟩
  · simp (disch := omega) only [clockUtc2gregorian, marchDate, Int.tdiv_eq_ediv_of_nonneg,
      ← century, ← left, ← years, ← rest]
  · have whole : (100 * (n - 49) + i + 4900) / 100 = n := by omega
    have parts : 1461 * (100 * (n - 49) + i + 4800) / 4 = 36525 * (n - 1) + 1461 * i / 4 := by omega
    unfold marchDays
    omega

/-- The Julian date of a day number, which is 13 or 14 days behind. -/
theorem clockUtc2julian_march {jd : Int} (lower : 2440588 ≤ jd) (upper : jd ≤ 2490298) :
    ∃ year month day, 1900 ≤ year ∧ 1 ≤ month ∧ month ≤ 12 ∧
      clockUtc2julian jd = marchDate year month day ∧
      jd - 14 ≤ marchDays year month day ∧ marchDays year month day ≤ jd - 13 := by
  obtain ⟨k, cycle⟩ : ∃ k, k = (jd + 1402 - 1) / 1461 := ⟨_, rfl⟩
  obtain ⟨l, left⟩ : ∃ l, l = jd + 1402 - 1461 * k := ⟨_, rfl⟩
  obtain ⟨n, years⟩ : ∃ n, n = (l - 1) / 365 - l / 1461 := ⟨_, rfl⟩
  obtain ⟨day, rest⟩ : ∃ day, day = l - 365 * n + 30 := ⟨_, rfl⟩
  have nHigh : n ≤ 3 := by omega
  have dayLow : 31 ≤ day := by omega
  have dayHigh : day ≤ 396 := by omega
  have month := marchMonth_spec dayLow dayHigh
  refine ⟨4 * k + n - 4716, 80 * day / 2447, day - 2447 * (80 * day / 2447) / 80, by omega,
    month.1, month.2.1, ?_, ?_⟩
  · simp (disch := omega) only [clockUtc2julian, marchDate, Int.tdiv_eq_ediv_of_nonneg,
      ← cycle, ← left, ← years, ← rest, Date.mk.injEq, and_self, and_true]
    omega
  · have parts : 1461 * (4 * k + n - 4716 + 4800) / 4 = 1461 * k + 30681 + 365 * n := by omega
    unfold marchDays
    omega

/-- The calendar routines of `mktime` go back to the day with a shift of some days, and without a
shift only in the simple build. -/
theorem clockUtc2calendar_shift (build : Build) {days : Int} (lower : 0 ≤ days)
    (upper : days ≤ 49710) :
    let date := clockUtc2calendar build days
    ∃ shift, -50 ≤ shift ∧ shift ≤ 1 ∧ (shift = 0 ↔ build = .simple ∧ ¬Misdated days) ∧
      clockCalendar2utc build date.year (date.month - 1) date.day = timeT (days + shift) := by
  have number : timeT (days + jdOfEpoch) = days + jdOfEpoch := by
    unfold timeT jdOfEpoch
    omega
  have epoch : ∀ early, timeT (timeT (days + jdOfEpoch - early) - jdOfEpoch) =
      timeT (days + -early) := by
    intro early
    unfold timeT jdOfEpoch
    omega
  cases build with
  | simple =>
    refine ⟨if Misdated days then 1 else 0, ?_, ?_, ?_, clockUtc2simple_back lower upper⟩
    · split <;> decide
    · split <;> decide
    · by_cases misdated : Misdated days <;> simp [misdated]
  | gregorian =>
    obtain ⟨year, month, day, later, first, last, date, back⟩ :=
      @clockUtc2gregorian_march (days + jdOfEpoch) (by unfold jdOfEpoch; omega)
        (by unfold jdOfEpoch; omega)
    obtain ⟨_, early, least, most, result⟩ :=
      @clockGregorian2utc_early year month day later first last
    refine ⟨-early, by omega, by omega, by simp; omega, ?_⟩
    simp only [clockUtc2calendar, number, date, clockCalendar2utc]
    rw [show (marchDate year month day).day = day from rfl, result, back, epoch]
  | julian =>
    obtain ⟨year, month, day, later, first, last, date, low, high⟩ :=
      @clockUtc2julian_march (days + jdOfEpoch) (by unfold jdOfEpoch; omega)
        (by unfold jdOfEpoch; omega)
    obtain ⟨notBefore, early, least, most, result⟩ :=
      @clockGregorian2utc_early year month day (by omega) first last
    have unsigned : ¬timeT gregDutc ≤ days := by
      have large : timeT gregDutc = 4294825869 := by decide
      omega
    have modern : isGreg ⟨(shiftMonth (marchDate year month day).year
        ((marchDate year month day).month - 1)).1, (shiftMonth (marchDate year month day).year
        ((marchDate year month day).month - 1)).2, day⟩ = true := by
      unfold isGreg
      rw [if_pos]
      exact lt_of_lt_of_le (by decide) (le_trans (by omega : (1899 : Int) ≤ year - 1) notBefore)
    refine ⟨marchDays year month day - (days + jdOfEpoch) - early, by omega, by omega,
      by simp; omega, ?_⟩
    simp only [clockUtc2calendar, if_neg unsigned, number, date, clockCalendar2utc]
    rw [show (marchDate year month day).day = day from rfl, if_pos modern, result,
      show marchDays year month day - early =
        days + jdOfEpoch - (days + jdOfEpoch - marchDays year month day + early) by omega, epoch]
    congr 1
    omega

theorem mktime_gmtimeR_shift {build : Build} {timer shift : Int}
    (back : clockCalendar2utc build (clockUtc2calendar build (timer / 86400)).year
      ((clockUtc2calendar build (timer / 86400)).month - 1)
      (clockUtc2calendar build (timer / 86400)).day = timeT (timer / 86400 + shift)) :
    mktime build (gmtimeR build timer) = timeT (timer + 86400 * shift) := by
  simp only [mktime, gmtimeR, Int.sub_add_cancel, back]
  unfold timeT
  omega

/-- `mktime` gives back the time that `gmtime_r` has split exactly in the simple build, and there
for the days that are not in 2101. -/
theorem mktime_gmtimeR_iff (build : Build) (timer : Int) (lower : 0 ≤ timer)
    (upper : timer < 2 ^ 32) :
    mktime build (gmtimeR build timer) = timer ↔ build = .simple ∧ ¬Misdated (timer / 86400) := by
  obtain ⟨shift, low, high, precise, back⟩ :=
    @clockUtc2calendar_shift build (timer / 86400) (by omega) (by omega)
  rw [mktime_gmtimeR_shift back, ← precise]
  unfold timeT
  omega

/-- The first second of March 2000 goes through the simple build. -/
theorem mktime_gmtimeR_leap_year : mktime .simple (gmtimeR .simple 951868800) = 951868800 := by
  apply (mktime_gmtimeR_iff .simple 951868800 (by decide) (by decide)).2
  decide

/-- In the Gregorian build the first of February 1970 comes back as the epoch, and in the simple
build the first second of 2101 comes back a day late. -/
theorem mktime_gmtimeR_shifted :
    gmtimeR .gregorian 2678400 = ⟨70, 1, 1, 0, 0, 0⟩ ∧
      mktime .gregorian (gmtimeR .gregorian 2678400) = 0 ∧
      mktime .simple (gmtimeR .simple 4133980800) = 4134067200 := by
  refine ⟨by decide, by decide, ?_⟩
  rw [mktime_gmtimeR_shift (clockUtc2simple_back (by decide) (by decide))]
  decide

end Chewie.Libc.Time
