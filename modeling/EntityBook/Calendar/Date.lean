/-! # Calendar dates

  Dates of the proleptic Gregorian calendar, with a year zero and negative
  years before it, and their numbers of days since 1970-01-01.

  `ofDays` finds the year from the mean length of a year, which misses by one
  at most, and corrects the guess.

  The modules on the calendar follow the package chrono, version 0.4: this one its
  dates, `Calendar.Timestamp` its instants in UTC, and `Calendar.Rfc3339` and
  `Calendar.Relaxed` its two readers and its writer.
-/

namespace EntityBook.Calendar

/-- A calendar date; months and days count from one. -/
structure Date where
  /-- The year; zero is the year before year one. -/
  year : Int
  /-- The month, 1 to 12. -/
  month : Nat
  /-- The day of the month, from 1. -/
  day : Nat
  deriving DecidableEq, Repr

/-! ### Years -/

/-- Every fourth year is a leap year, of the centuries every fourth one. -/
def isLeap (year : Int) : Bool :=
  year % 4 = 0 && (year % 100 ≠ 0 || year % 400 = 0)

/-- The days from 1970-01-01 to the first day of a year. -/
def yearStart (year : Int) : Int :=
  let p := year - 1
  365 * p + p / 4 - p / 100 + p / 400 - 719162

/-- The year of a day. -/
def yearOfDay (n : Int) : Int :=
  let guess := (n + 719162) * 400 / 146097 + 1
  if n < yearStart guess then guess - 1
  else if yearStart (guess + 1) ≤ n then guess + 1
  else guess

/-! ### Months -/

/-- The days of a year before a month begins. Month 13 stands for the end. -/
def monthStart (leap : Bool) (month : Nat) : Nat :=
  let extra := if leap && 2 < month then 1 else 0
  extra + match month with
    | 0 => 0 | 1 => 0 | 2 => 31 | 3 => 59 | 4 => 90 | 5 => 120 | 6 => 151
    | 7 => 181 | 8 => 212 | 9 => 243 | 10 => 273 | 11 => 304 | 12 => 334
    | _ => 365

/-- The number of days of a month. -/
def daysInMonth (year : Int) (month : Nat) : Nat :=
  monthStart (isLeap year) (month + 1) - monthStart (isLeap year) month

/-- The month that holds a day of the year, counted from zero. -/
def monthOfDay (leap : Bool) (n : Nat) : Nat :=
  if n < monthStart leap 2 then 1 else if n < monthStart leap 3 then 2
  else if n < monthStart leap 4 then 3 else if n < monthStart leap 5 then 4
  else if n < monthStart leap 6 then 5 else if n < monthStart leap 7 then 6
  else if n < monthStart leap 8 then 7 else if n < monthStart leap 9 then 8
  else if n < monthStart leap 10 then 9 else if n < monthStart leap 11 then 10
  else if n < monthStart leap 12 then 11 else 12

/-! ### Dates and day numbers -/

namespace Date

/-- A date that the calendar has. -/
def isValid (d : Date) : Bool :=
  1 ≤ d.month && d.month ≤ 12 && 1 ≤ d.day && d.day ≤ daysInMonth d.year d.month

/-- The days from 1970-01-01 to a date. -/
def toDays (d : Date) : Int :=
  yearStart d.year + monthStart (isLeap d.year) d.month + d.day - 1

/-- The date a number of days after 1970-01-01. -/
def ofDays (n : Int) : Date :=
  let year := yearOfDay n
  let rest := (n - yearStart year).toNat
  let month := monthOfDay (isLeap year) rest
  ⟨year, month, rest - monthStart (isLeap year) month + 1⟩

end Date

end EntityBook.Calendar
