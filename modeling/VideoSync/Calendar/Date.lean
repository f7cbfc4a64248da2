/-
  The proleptic Gregorian calendar. Days are counted from 1970-01-01 and years from March, so that
  the leap day ends a year; four centuries of 146097 days repeat.
-/

namespace VideoSync.Calendar

/-- A calendar date. -/
structure Date where
  year : Int
  month : Nat
  day : Nat
  deriving DecidableEq, Repr

/-- Whether a year has a 29th of February. -/
def isLeap (year : Int) : Bool := year % 4 == 0 && (year % 100 != 0 || year % 400 == 0)

/-- How many days a month has. -/
def daysInMonth (year : Int) (month : Nat) : Nat :=
  if month = 2 then if isLeap year then 29 else 28
  else if month = 4 ∨ month = 6 ∨ month = 9 ∨ month = 11 then 30
  else 31

/-- Whether month and day exist. -/
def Date.Valid (d : Date) : Prop :=
  1 ≤ d.month ∧ d.month ≤ 12 ∧ 1 ≤ d.day ∧ d.day ≤ daysInMonth d.year d.month

instance (d : Date) : Decidable d.Valid := by unfold Date.Valid; infer_instance

/-- Days from the first of March of the year 0 to 1970-01-01. -/
def epochShift : Int := 719468

/-- Days in four centuries. -/
def cycleDays : Int := 146097

/-- Days before the year `y` of a four-century cycle, for `0 ≤ y`. -/
def daysBeforeYear (y : Int) : Int := 365 * y + y / 4 - y / 100

/-- Days before the month `m` of a year that starts in March, for March as month 0. -/
def daysBeforeMonth (m : Int) : Int := (153 * m + 2) / 5

/-- The number of a date's day, the first of January 1970 being day 0. -/
def Date.toDays (d : Date) : Int :=
  let year := if d.month ≤ 2 then d.year - 1 else d.year
  let month : Int := if d.month ≤ 2 then d.month + 9 else d.month - 3
  year / 400 * cycleDays + daysBeforeYear (year % 400) + daysBeforeMonth month + d.day - 1
    - epochShift

/-- The year of a day within its four-century cycle. -/
def yearOfCycle (day : Int) : Int := (day - day / 1460 + day / 36524 - day / 146096) / 365

/-- The date of a day. -/
def Date.ofDays (days : Int) : Date :=
  let cycle := (days + epochShift) / cycleDays
  let day := (days + epochShift) % cycleDays
  let year := yearOfCycle day
  let dayOfYear := day - daysBeforeYear year
  let month := (5 * dayOfYear + 2) / 153
  let january := decide (10 ≤ month)
  { year := cycle * 400 + year + if january then 1 else 0
    month := (if january then month - 9 else month + 3).toNat
    day := (dayOfYear - daysBeforeMonth month + 1).toNat }

end VideoSync.Calendar
