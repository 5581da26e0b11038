import Mathlib.Data.Int.Order.Basic
import Mathlib.Algebra.Group.Int.Defs

/-!
# Calendar time

`gmtime_r` splits a `time_t` into days and a time of day and turns the days into a date; `mktime`
goes back. There are three pairs of calendar routines, one for each build: the simple one for dates
since 1970, the Gregorian one, and the Gregorian one with the Julian calendar before 1582. A
`time_t` is an unsigned word of 32 bits, the other numbers are signed, and a quotient truncates.
-/

namespace Chewie.Libc.Time

/-- The calendar routines that are compiled in. -/
inductive Build where
  | simple
  /-- `CONFIG_GREGORIAN_TIME`. -/
  | gregorian
  /-- `CONFIG_GREGORIAN_TIME` and `CONFIG_JULIAN_TIME`. -/
  | julian
deriving DecidableEq

/-- `struct tm` without the extended fields. -/
structure Tm where
  /-- `tm_year`, since 1900. -/
  year : Int
  /-- `tm_mon`, from 0. -/
  mon : Int
  /-- `tm_mday`, from 1. -/
  mday : Int
  hour : Int
  min : Int
  sec : Int
deriving DecidableEq

/-- The year, month and day that a calendar routine stores, with months and days from 1. -/
structure Date where
  year : Int
  month : Int
  day : Int
deriving DecidableEq

/-- Conversion to `time_t`. -/
def timeT (value : Int) : Int := value % 2 ^ 32

def jdOfEpoch : Int := 2440588

def gregDutc : Int := -141427

/-- `GREG_YEAR`, `GREG_MONTH` and `GREG_DAY`. -/
def gregStart : Date := ⟨1582, 10, 15⟩

def clockIsleapyear (year : Int) : Bool :=
  if year % 400 ≠ 0 then
    if year % 100 ≠ 0 then
      if year % 4 ≠ 0 then false else true
    else false
  else true

/-- `g_daysbeforemonth`. -/
def daysbeforemonthTable : List Int := [0, 31, 59, 90, 120, 151, 181, 212, 243, 273, 304, 334, 365]

/-- `clock_daysbeforemonth`, for a month from 0. -/
def clockDaysbeforemonth (month : Int) (leapyear : Bool) : Int :=
  let retval := daysbeforemonthTable.getD month.toNat 0
  if 2 ≤ month ∧ leapyear then retval + 1 else retval

/-- The number of days of a year that is counted from 1970. -/
def yearDays (value : Int) : Int := if clockIsleapyear (value + 1970) then 366 else 365

theorem yearDays_pos (value : Int) : 0 < yearDays value := by
  unfold yearDays
  split <;> decide

/-- The loop over the years: the years since 1970 and the days into the year. -/
def yearLoop (value days : Int) : Int × Int :=
  if yearDays value ≤ days then yearLoop (value + 1) (days - yearDays value) else (value, days)
termination_by days.toNat
decreasing_by
  have positive := yearDays_pos value
  omega

/-- The search for the month, from 0, in which the day of the year is. -/
def monthLoop (days : Int) (leapyear : Bool) (min max : Int) : Int :=
  let value := (min + max) / 2
  if days < clockDaysbeforemonth (value + 1) leapyear then
    if days < clockDaysbeforemonth value leapyear then
      if min < value - 1 then monthLoop days leapyear min (value - 1) else min
    else value
  else if value + 1 < max then monthLoop days leapyear (value + 1) max
  else value + 1
termination_by (max - min).toNat
decreasing_by
  · omega
  · omega

/-- `clock_utc2calendar` of the simple build. -/
def clockUtc2simple (days : Int) : Date :=
  let year := yearLoop (days / 1461 * 4) (days - days / 1461 * 1461)
  let leapyear := clockIsleapyear (year.1 + 1970)
  let month := monthLoop year.2 leapyear 0 11
  ⟨1970 + year.1, month + 1, year.2 - clockDaysbeforemonth month leapyear + 1⟩

def clockUtc2gregorian (jd : Int) : Date :=
  let l := jd + 68569
  let n := (4 * l).tdiv 146097
  let l := l - (146097 * n + 3).tdiv 4
  let i := (4000 * (l + 1)).tdiv 1461001
  let l := l - (1461 * i).tdiv 4 + 31
  let j := (80 * l).tdiv 2447
  let d := l - (2447 * j).tdiv 80
  let l := j.tdiv 11
  let m := j + 2 - 12 * l
  let y := 100 * (n - 49) + i + l
  ⟨y, m, d⟩

def clockUtc2julian (jd : Int) : Date :=
  let j := jd + 1402
  let k := (j - 1).tdiv 1461
  let l := j - 1461 * k
  let n := (l - 1).tdiv 365 - l.tdiv 1461
  let i := l - 365 * n + 30
  let j := (80 * i).tdiv 2447
  let d := i - (2447 * j).tdiv 80
  let i := j.tdiv 11
  let m := j + 2 - 12 * i
  let y := 4 * k + n + i - 4716
  ⟨y, m, d⟩

/-- `clock_utc2calendar`. The comparison with `GREG_DUTC` is one of unsigned words. -/
def clockUtc2calendar (build : Build) (utc : Int) : Date :=
  match build with
  | .simple => clockUtc2simple utc
  | .gregorian => clockUtc2gregorian (timeT (utc + jdOfEpoch))
  | .julian =>
    if timeT gregDutc ≤ utc then clockUtc2gregorian (timeT (utc + jdOfEpoch))
    else clockUtc2julian (timeT (utc + jdOfEpoch))

def clockGregorian2utc (year month day : Int) : Int :=
  let temp := if month ≤ 2 then -1 else 0
  timeT ((1461 * (year + 4800 + temp)).tdiv 4 + (367 * (month - 2 - 12 * temp)).tdiv 12 -
    (3 * (year + 4900 + temp).tdiv 100).tdiv 4 + day - 32075)

def clockJulian2utc (year month day : Int) : Int :=
  timeT (367 * year - (7 * (year + 5001 + (month - 9).tdiv 7)).tdiv 4 + (275 * month).tdiv 9 + day +
    1729777)

/-- The year and the month after the month is shifted into the range from 1 to 12. -/
def shiftMonth (year month : Int) : Int × Int :=
  let dyear := (month - 1).tdiv 12
  let month := month - 12 * dyear
  let year := year + dyear
  if month < 1 then (year - 1, month + 12) else (year, month)

/-- `isgreg`, whether a date is on or behind the day of the change of the calendar. -/
def isGreg (date : Date) : Bool :=
  if date.year > gregStart.year then true
  else if date.year < gregStart.year then false
  else if date.month > gregStart.month then true
  else if date.month < gregStart.month then false
  else date.day ≥ gregStart.day

def clockCalendar2utc (build : Build) (year month day : Int) : Int :=
  match build with
  | .simple =>
    timeT ((year - 1970) * 365 + (year - 1969) / 4 +
      clockDaysbeforemonth month (clockIsleapyear year) + (day - 1))
  | .gregorian =>
    let shifted := shiftMonth year month
    timeT (clockGregorian2utc shifted.1 shifted.2 day - jdOfEpoch)
  | .julian =>
    let shifted := shiftMonth year month
    if isGreg ⟨shifted.1, shifted.2, day⟩ then
      timeT (clockGregorian2utc shifted.1 shifted.2 day - jdOfEpoch)
    else timeT (clockJulian2utc shifted.1 shifted.2 day - jdOfEpoch)

def gmtimeR (build : Build) (timer : Int) : Tm :=
  let jdn := timer / 86400
  let epoch := timer - 86400 * jdn
  let hour := epoch / 3600
  let epoch := epoch - 3600 * hour
  let min := epoch / 60
  let sec := epoch - 60 * min
  let date := clockUtc2calendar build jdn
  ⟨date.year - 1900, date.month - 1, date.day, hour, min, sec⟩

def mktime (build : Build) (tp : Tm) : Int :=
  let jdn := clockCalendar2utc build (tp.year + 1900) tp.mon tp.mday
  timeT (((jdn * 24 + tp.hour) * 60 + tp.min) * 60 + tp.sec)

end Chewie.Libc.Time
