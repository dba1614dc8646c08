import EntityBook.Calendar.Timestamp
import EntityBook.Text.Blank
import EntityBook.Text.Integer

/-! # RFC 3339 text

  Timestamps are written in UTC with a `Z`. The text form proper has nine
  fraction digits; the JSON form has none, three, six or nine, as many as it
  needs. Years of four digits stand alone, all others carry a sign.

  `read` takes the strict grammar with any zone and answers the instant in UTC.

  This is what `parse_from_rfc3339` and `to_rfc3339_opts` of chrono do: the date and
  the time may be separated by a blank and the letters may be small, the minus of a
  zone may be the sign U+2212, second 60 is a leap second, and digits of a fraction
  beyond the ninth are dropped.
-/

namespace EntityBook.Timestamp

open Text (isDigit digitValue digitsValue natDigits)

/-! ### Writing -/

/-- A number with zeros in front, up to a width. -/
def padded (width n : Nat) : List Char :=
  let ds := natDigits n
  List.replicate (width - ds.length) '0' ++ ds

/-- A year: four digits, or a sign and at least four. -/
def yearChars (year : Int) : List Char :=
  if 0 ≤ year && year ≤ 9999 then padded 4 year.toNat
  else (if year < 0 then '-' else '+') :: padded 4 year.natAbs

/-- Date and clock up to the seconds. -/
def clockChars (f : Fields) : List Char :=
  yearChars f.date.year ++ '-' :: padded 2 f.date.month ++ '-' :: padded 2 f.date.day ++
    'T' :: padded 2 f.hour ++ ':' :: padded 2 f.minute ++ ':' :: padded 2 f.second

/-- The fraction with three, six or nine digits, or none for a whole second. -/
def fractionChars (nanos : Nat) : List Char :=
  if nanos = 0 then []
  else if nanos % 1000000 = 0 then '.' :: padded 3 (nanos / 1000000)
  else if nanos % 1000 = 0 then '.' :: padded 6 (nanos / 1000)
  else '.' :: padded 9 nanos

/-- The text form: always nine fraction digits. -/
def chars (t : Timestamp) : List Char :=
  clockChars t.fields ++ '.' :: padded 9 t.fields.nanos ++ ['Z']

/-- The text form. -/
def text (t : Timestamp) : String := String.ofList t.chars

/-- How diagnostics show an instant. -/
def debug (t : Timestamp) : String := "Timestamp(" ++ t.text ++ ")"

/-- The form inside JSON texts: no more fraction digits than needed. -/
def jsonChars (t : Timestamp) : List Char :=
  clockChars t.fields ++ fractionChars t.fields.nanos ++ ['Z']

/-! ### Reading -/

/-- Takes exactly `n` digits off a text. -/
def takeDigits : (n : Nat) → List Char → Option (Nat × List Char)
  | n, cs =>
    let ds := cs.take n
    if ds.length = n && ds.all isDigit then some (digitsValue ds, cs.drop n) else none

/-- Takes a given character off a text. -/
def takeChar (c : Char) : List Char → Option (List Char)
  | d :: r => if d = c then some r else none
  | [] => none

/-- Takes the character between date and time. -/
def takeSeparator : List Char → Option (List Char)
  | c :: r => if c = 'T' || c = 't' || c = ' ' then some r else none
  | [] => none

/-- The nanoseconds of fraction digits; those beyond the ninth count nothing. -/
def fractionNanos (ds : List Char) : Nat :=
  let used := ds.take 9
  digitsValue used * Nat.pow 10 (9 - used.length)

/-- Takes a fraction off a text: a point and at least one digit, or nothing. -/
def takeFraction : List Char → Option (Nat × List Char)
  | '.' :: r =>
    let ds := r.takeWhile isDigit
    if ds.isEmpty then none else some (fractionNanos ds, r.dropWhile isDigit)
  | cs => some (0, cs)

/-- Takes the sign of a zone off a text; the minus may be the typographic one. -/
def takeZoneSign : List Char → Option (Int × List Char)
  | '+' :: r => some (1, r)
  | '-' :: r => some (-1, r)
  | '−' :: r => some (-1, r)
  | _ => none

/-- Takes a zone off a text: `Z`, or a sign, hours and minutes with what
    `separate` accepts between them. Answers seconds ahead of UTC. -/
def takeZone (separate : List Char → Option (List Char)) (cs : List Char) :
    Option (Int × List Char) :=
  match cs with
  | 'Z' :: r => some (0, r)
  | 'z' :: r => some (0, r)
  | cs => do
    let (sign, cs) ← takeZoneSign cs
    let (hours, cs) ← takeDigits 2 cs
    let cs ← separate cs
    let (minutes, cs) ← takeDigits 2 cs
    if minutes < 60 then some (sign * (hours * 3600 + minutes * 60), cs) else none

/-- Reads the fields of a strict RFC 3339 text. -/
def readFields (cs : List Char) : Option Fields := do
  let (year, cs) ← takeDigits 4 cs
  let cs ← takeChar '-' cs
  let (month, cs) ← takeDigits 2 cs
  let cs ← takeChar '-' cs
  let (day, cs) ← takeDigits 2 cs
  let cs ← takeSeparator cs
  let (hour, cs) ← takeDigits 2 cs
  let cs ← takeChar ':' cs
  let (minute, cs) ← takeDigits 2 cs
  let cs ← takeChar ':' cs
  let (second, cs) ← takeDigits 2 cs
  let (nanos, cs) ← takeFraction cs
  let (offset, cs) ← takeZone (takeChar ':') cs
  if cs.isEmpty then
    some { date := ⟨year, month, day⟩, hour, minute, second, nanos, offset }
  else none

/-- Reads a strict RFC 3339 text, blanks around it allowed. -/
def read (cs : List Char) : Option Timestamp :=
  (readFields (Text.trimChars cs)).bind ofFields?

end EntityBook.Timestamp
