import EntityBook.Calendar.Date

/-! # Timestamps

  A timestamp is a UTC instant with nanoseconds. A leap second has no number of
  its own: it is the second before it with a billion nanoseconds more, so that
  only the last second of a minute can hold one.

  The range is that of chrono, whose years go from -262143 to 262142; an instant
  with a zone is refused when the zone takes it out of that range.
-/

namespace EntityBook

namespace Timestamp

/-- The first second of the year -262143. -/
def firstSecond : Int := -8334601228800

/-- The last second of the year 262142. -/
def lastSecond : Int := 8210266876799

/-- The first supported year. -/
def firstYear : Int := -262143

/-- The last supported year. -/
def lastYear : Int := 262142

/-- The nanoseconds of a second. -/
def nanosPerSecond : Nat := 1000000000

/-- Whether a second lies in the supported years and the nanoseconds fit it: a
    billion or more only in the last second of a minute. -/
def isSupported (seconds : Int) (nanos : Nat) : Bool :=
  firstSecond ≤ seconds && seconds ≤ lastSecond &&
    (nanos < nanosPerSecond || (nanos < 2 * nanosPerSecond && seconds % 60 = 59))

end Timestamp

/-- A UTC instant. -/
structure Timestamp where
  /-- Seconds since 1970-01-01T00:00:00Z, leap seconds not counted. -/
  seconds : Int
  /-- Nanoseconds within the second; a billion or more in a leap second. -/
  nanos : Nat
  /-- The instant lies in the supported range. -/
  supported : Timestamp.isSupported seconds nanos = true
  deriving DecidableEq, Repr

namespace Timestamp

/-- 1970-01-01T00:00:00Z. -/
def epoch : Timestamp := ⟨0, 0, by decide⟩

instance : Inhabited Timestamp := ⟨epoch⟩

/-- The instant a number of seconds and nanoseconds after the epoch, if it lies
    in the supported years and its nanoseconds fit its second. -/
def ofUnix? (seconds : Int) (nanos : Nat) : Option Timestamp :=
  if h : isSupported seconds nanos then some ⟨seconds, nanos, h⟩ else none

/-- Earlier instants come first. -/
protected def compare (a b : Timestamp) : Ordering :=
  (compare a.seconds b.seconds).then (compare a.nanos b.nanos)

/-! ### Calendar fields -/

/-- An instant as a clock with a zone shows it. -/
structure Fields where
  /-- The local date. -/
  date : Calendar.Date
  /-- The hour, 0 to 23. -/
  hour : Nat
  /-- The minute, 0 to 59. -/
  minute : Nat
  /-- The second, 0 to 59, or 60 in a leap second. -/
  second : Nat
  /-- Nanoseconds, below a billion. -/
  nanos : Nat
  /-- How far the local time is ahead of UTC, in seconds. -/
  offset : Int
  deriving DecidableEq, Repr

/-- The instant that the fields name, if the calendar and the clock have it and
    the zone is less than a day away from UTC. -/
def ofFields? (f : Fields) : Option Timestamp :=
  if firstYear ≤ f.date.year && f.date.year ≤ lastYear && f.date.isValid && f.hour < 24 &&
      f.minute < 60 && f.second ≤ 60 && -86400 < f.offset && f.offset < 86400
  then
    let second := min f.second 59
    let nanos := if f.second = 60 then nanosPerSecond + f.nanos else f.nanos
    ofUnix? (f.date.toDays * 86400 + f.hour * 3600 + f.minute * 60 + second - f.offset) nanos
  else none

/-- The fields of an instant in UTC. -/
def fields (t : Timestamp) : Fields :=
  let clock := (t.seconds % 86400).toNat
  let leap := nanosPerSecond ≤ t.nanos
  { date := Calendar.Date.ofDays (t.seconds / 86400)
    hour := clock / 3600
    minute := clock / 60 % 60
    second := clock % 60 + if leap then 1 else 0
    nanos := if leap then t.nanos - nanosPerSecond else t.nanos
    offset := 0 }

end Timestamp

end EntityBook
