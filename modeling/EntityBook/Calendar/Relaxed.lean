import EntityBook.Calendar.Rfc3339

/-! # Relaxed timestamps

  Times inside JSON texts are read by a wider grammar than RFC 3339: fields may
  have fewer digits and blanks in front, a year may carry a sign and then has
  any number of digits, and the zone may be written `UTC` or without its colon.
  Every timestamp's own JSON form is in it, also those with years of five and
  six digits.

  chrono reads a date and time in this way when it is decoded by serde; what it
  writes there is `jsonChars`.
-/

namespace EntityBook.Timestamp

open Text (isBlank isDigit digitsValue)

/-- Drops leading blanks. -/
def skipBlanks (cs : List Char) : List Char := cs.dropWhile isBlank

/-- Takes at least one and at most `limit` digits off a text. -/
def takeUpTo (limit : Nat) (cs : List Char) : Option (Nat × List Char) :=
  let ds := (cs.take limit).takeWhile isDigit
  if ds.isEmpty then none else some (digitsValue ds, cs.drop ds.length)

/-- Takes a field of one or two digits off a text, after blanks. -/
def takeField (cs : List Char) : Option (Nat × List Char) := takeUpTo 2 (skipBlanks cs)

/-- Takes a year off a text, after blanks: up to four digits, or a sign and any
    number of them. -/
def takeYear (cs : List Char) : Option (Int × List Char) :=
  match skipBlanks cs with
  | '-' :: r => (takeUpTo r.length r).map fun (n, r) => (-(n : Int), r)
  | '+' :: r => (takeUpTo r.length r).map fun (n, r) => ((n : Int), r)
  | r => (takeUpTo 4 r).map fun (n, r) => ((n : Int), r)

/-- Takes a character off a text, after blanks. -/
def takeMark (c : Char) (cs : List Char) : Option (List Char) := takeChar c (skipBlanks cs)

/-- Drops the colons and blanks between the hours and minutes of a zone. -/
def skipZoneSeparator (cs : List Char) : Option (List Char) :=
  some (cs.dropWhile fun c => c = ':' || isBlank c)

/-- Takes a zone off a text, after blanks. -/
def takeRelaxedZone (cs : List Char) : Option (Int × List Char) :=
  let cs := skipBlanks cs
  if (cs.take 3).map Char.toUpper = "UTC".toList then some (0, cs.drop 3)
  else takeZone skipZoneSeparator cs

/-- Reads the fields of a relaxed text, blanks after it allowed. -/
def readRelaxedFields (cs : List Char) : Option Fields := do
  let (year, cs) ← takeYear cs
  let cs ← takeMark '-' cs
  let (month, cs) ← takeField cs
  let cs ← takeMark '-' cs
  let (day, cs) ← takeField cs
  let cs ← takeSeparator cs
  let (hour, cs) ← takeField cs
  let cs ← takeMark ':' cs
  let (minute, cs) ← takeField cs
  let cs ← takeMark ':' cs
  let (second, cs) ← takeField cs
  let (nanos, cs) ← takeFraction cs
  let (offset, cs) ← takeRelaxedZone cs
  if (skipBlanks cs).isEmpty then
    some { date := ⟨year, month, day⟩, hour, minute, second, nanos, offset }
  else none

/-- Reads a relaxed text. -/
def readRelaxed (cs : List Char) : Option Timestamp := (readRelaxedFields cs).bind ofFields?

end EntityBook.Timestamp
