import Mathlib.Data.Int.Order.Basic

/-! # The civil calendar

Days counted from 1 January 1970 and dates of the proleptic Gregorian calendar.
Years start in March inside the computation, so that the leap day is the last one
of its year, of its four years and of its four centuries.
-/
namespace Meldbase.Calendar

structure Date where
  (year month day : ℤ)
  deriving DecidableEq

structure YearDay where
  (year day : ℤ)

def yearDay (days : ℤ) : YearDay :=
  let era := (days+719468) / 146097
  let inEra := (days+719468) % 146097
  let century := min 3 (inEra / 36524)
  let inCentury := inEra - 36524 * century
  let four := inCentury / 1461
  let inFour := inCentury % 1461
  let year := min 3 (inFour / 365)
  ⟨400*era+100*century+4*four+year,inFour - 365 * year⟩
def daysBefore (year : ℤ) : ℤ := 365*year + year / 4 - year / 100 + year / 400 - 719468
def isLeap (year : ℤ) : Bool := year % 4 = 0 && (year % 100 ≠ 0 || year % 400 = 0)
def daysInMonth (year month : ℤ) : ℤ :=
  if month = 2 then if isLeap year then 29 else 28
  else if month = 4 ∨ month = 6 ∨ month = 9 ∨ month = 11 then 30 else 31
def monthIndex (day : ℤ) : ℤ := (5*day+2) / 153
def ofDays (days : ℤ) : Date :=
  let y := yearDay days
  let index := monthIndex y.day
  { year := if index < 10 then y.year else y.year+1
    month := if index < 10 then index+3 else index - 9
    day := y.day - (153*index+2) / 5 + 1 }
def toDays (date : Date) : ℤ :=
  if 2 < date.month then daysBefore date.year + (153 * (date.month - 3) + 2) / 5 + date.day - 1
  else daysBefore (date.year - 1) + (153 * (date.month+9) + 2) / 5 + date.day - 1

end Meldbase.Calendar
