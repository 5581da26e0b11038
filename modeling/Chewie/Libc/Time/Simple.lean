import Chewie.Libc.Time.Model
import Mathlib.Tactic.IntervalCases
import Mathlib.Tactic.Linarith

/-!
# Dates since 1970

The simple build counts one leap year in every four years. The date that it finds for a day is the
date that it turns back into the same day, but for the days of 2101: `clock_utc2calendar` has seen
that 2100 is not a leap year and `clock_calendar2utc` has not.
-/

namespace Chewie.Libc.Time

theorem clockIsleapyear_near {year : Int} (lower : 1970 ≤ year) (upper : year ≤ 2110) :
    clockIsleapyear year = true ↔ year % 4 = 0 ∧ year ≠ 2100 := by
  unfold clockIsleapyear
  split_ifs <;> simp <;> omega

theorem yearDays_near {value : Int} (lower : 0 ≤ value) (upper : value ≤ 140) :
    yearDays value = if value % 4 = 2 ∧ value ≠ 130 then 366 else 365 := by
  have leap := @clockIsleapyear_near (value + 1970) (by omega) (by omega)
  have same : (value + 1970) % 4 = 0 ∧ value + 1970 ≠ 2100 ↔ value % 4 = 2 ∧ value ≠ 130 := by omega
  simp only [yearDays, leap, same]

/-- The number of days from 1970 to a year by the count of `clock_calendar2utc`. -/
def daysBefore (value : Int) : Int := value * 365 + (value + 1) / 4

/-- Whether the loop over the years has gone past the end of 2100. -/
def late (cycle value : Int) : Int := if cycle = 32 ∧ 131 ≤ value then 1 else 0

theorem yearLoop_spec (cycle value days : Int) (lower : 0 ≤ cycle) (upper : cycle ≤ 34)
    (start : cycle * 4 ≤ value) (nonneg : 0 ≤ days)
    (within : daysBefore value - late cycle value + days < daysBefore (cycle * 4) + 1461) :
    let year := yearLoop value days
    value ≤ year.1 ∧ year.1 ≤ cycle * 4 + 4 ∧ 0 ≤ year.2 ∧ year.2 < yearDays year.1 ∧
      daysBefore year.1 - late cycle year.1 + year.2 =
        daysBefore value - late cycle value + days := by
  fun_induction yearLoop value days with
  | case1 value days enough ih =>
    have bound : value ≤ cycle * 4 + 3 := by
      have positive := yearDays_pos value
      unfold daysBefore late at within
      split at within <;> omega
    have length := @yearDays_near value (by omega) (by omega)
    have step : daysBefore (value + 1) - late cycle (value + 1) - yearDays value =
        daysBefore value - late cycle value := by
      unfold daysBefore late
      split_ifs <;> omega
    have next := ih (by omega) (by omega) (by omega)
    exact ⟨by omega, next.2.1, next.2.2.1, next.2.2.2.1, by omega⟩
  | case2 value days done =>
    have bound : value ≤ cycle * 4 + 4 := by
      unfold daysBefore late at within
      split at within <;> omega
    exact ⟨le_refl _, bound, nonneg, Int.not_le.1 done, rfl⟩

/-- The days of 2101, with the day that comes out as a second first of January 2102. -/
def Misdated (days : Int) : Prop := 47847 ≤ days ∧ days ≤ 48212

instance decidableMisdated (days : Int) : Decidable (Misdated days) :=
  inferInstanceAs (Decidable (_ ∧ _))

theorem yearLoop_days {days : Int} (lower : 0 ≤ days) (upper : days ≤ 49710) :
    let year := yearLoop (days / 1461 * 4) (days - days / 1461 * 1461)
    0 ≤ year.1 ∧ year.1 ≤ 140 ∧ 0 ≤ year.2 ∧ year.2 < yearDays year.1 ∧
      daysBefore year.1 + year.2 = days + if Misdated days then 1 else 0 := by
  have base : daysBefore (days / 1461 * 4) = days / 1461 * 1461 := by
    unfold daysBefore
    omega
  have notLate : late (days / 1461) (days / 1461 * 4) = 0 := if_neg (by omega)
  have loop := yearLoop_spec (days / 1461) (days / 1461 * 4) (days - days / 1461 * 1461) (by omega)
    (by omega) (le_refl _) (by omega) (by omega)
  generalize yearLoop (days / 1461 * 4) (days - days / 1461 * 1461) = year at loop ⊢
  dsimp only at loop ⊢
  have length := @yearDays_near year.1 (by omega) (by omega)
  have behind : late (days / 1461) year.1 = if Misdated days then 1 else 0 := by
    have short := loop.2.2.2.1
    unfold late daysBefore Misdated at *
    split_ifs at * <;> omega
  exact ⟨by omega, by omega, loop.2.2.1, loop.2.2.2.1, by omega⟩

theorem clockUtc2simple_back {days : Int} (lower : 0 ≤ days) (upper : days ≤ 49710) :
    let date := clockUtc2simple days
    clockCalendar2utc .simple date.year (date.month - 1) date.day =
      timeT (days + if Misdated days then 1 else 0) := by
  have loop := yearLoop_days lower upper
  simp only [clockUtc2simple]
  generalize yearLoop (days / 1461 * 4) (days - days / 1461 * 1461) = year at loop ⊢
  have back : year.1 * 365 + (year.1 + 1970 - 1969) / 4 = daysBefore year.1 := by
    unfold daysBefore
    omega
  simp only [clockCalendar2utc, Int.add_comm 1970 year.1, Int.add_sub_cancel, back]
  congr 1
  omega

end Chewie.Libc.Time
