import EntityBook.Calendar.Date
import EntityBook.Double.Text
import EntityBook.Toml.Text

/-! # TOML values

  The values that a configuration can use are kept; floats, dates, arrays and
  inline tables are read, so that a faulty one is noticed, and forgotten.

  The package toml adds limits to the grammar: integers have 64 bits, a float may
  not be beyond all doubles, arrays and inline tables are nested less than 80 deep,
  and a key has less than 80 parts.
-/

namespace EntityBook.Toml

open Text (isDigit digitsValue)

/-- A value of a TOML document. -/
inductive Value where
  /-- A string of any kind. -/
  | string (text : String)
  /-- A 64-bit integer. -/
  | integer (n : Int)
  /-- A truth value. -/
  | boolean (value : Bool)
  /-- A float, a date or time, an array or an inline table. -/
  | other
  deriving DecidableEq, Repr

/-- How deep arrays and inline tables may be nested, and how many parts a key may
    have, since each part leads into one more table. -/
def maxDepth : Nat := 79

/-! ### Keys -/

/-- The characters of bare keys. -/
def isBareKeyChar (c : Char) : Bool := c.isAlphanum || c = '_' || c = '-'

/-- Takes one part of a key: bare, or a string on one line. -/
def takeKeyPart (cs : List Char) : Option (String × List Char) :=
  match cs with
  | '"' :: r => (takeBasic (r.length + 1) r).map fun (k, r) => (String.ofList k, r)
  | '\'' :: r => (takeLiteral r).map fun (k, r) => (String.ofList k, r)
  | cs =>
    let k := cs.takeWhile isBareKeyChar
    if k.isEmpty then none else some (String.ofList k, cs.drop k.length)

/-- Takes a key: parts with points between them, blanks around each part. `room`
    bounds the number of parts. -/
def takeKey : (room : Nat) → List Char → Option (List String × List Char)
  | 0, _ => none
  | room + 1, cs => do
    let (part, r) ← takeKeyPart (skipBlanks cs)
    match skipBlanks r with
    | '.' :: r => do
      let (rest, r) ← takeKey room r
      some (part :: rest, r)
    | r => some ([part], r)

/-! ### Numbers -/

/-- Takes digits of a class with single underscores between them. -/
def takeDigitRow (isDigit : Char → Bool) : List Char → Option (List Char × List Char)
  | [] => none
  | c :: r =>
    if !isDigit c then none
    else
      match r with
      | '_' :: r => (takeDigitRow isDigit r).map fun (ds, r) => (c :: ds, r)
      | r =>
        match takeDigitRow isDigit r with
        | some (ds, r) => some (c :: ds, r)
        | none => some ([c], r)

/-- Takes a plus or a minus, if there is one. -/
def takeSign : List Char → List Char × List Char
  | '-' :: r => (['-'], r)
  | '+' :: r => ([], r)
  | cs => ([], cs)

/-- Takes the digits of a decimal integer: a zero alone, or no zero in front. -/
def takeDecimalDigits : List Char → Option (List Char × List Char)
  | '0' :: r => some (['0'], r)
  | cs => takeDigitRow isDigit cs

/-- The integers of 64 bits. -/
def integer? (n : Int) : Option Value :=
  if Int64.minValue.toInt ≤ n && n ≤ Int64.maxValue.toInt then some (.integer n) else none

/-- Takes a decimal integer with an optional sign. -/
def takeDecimal (cs : List Char) : Option (Value × List Char) := do
  let (sign, r) := takeSign cs
  let (ds, r) ← takeDecimalDigits r
  let n : Int := digitsValue ds
  let v ← integer? (if sign.isEmpty then n else -n)
  some (v, r)

/-- The value of digits in a base up to sixteen. -/
def valueInBase (base : Nat) (ds : List Char) : Nat :=
  ds.foldl (fun n c => n * base + (Text.hexValue c).getD 0) 0

/-- The digits of a base up to sixteen. -/
def isDigitOf (base : Nat) (c : Char) : Bool :=
  match Text.hexValue c with
  | some d => d < base
  | none => false

/-- Takes an integer with a marked base; it has no sign. -/
def takeInBase (base : Nat) (cs : List Char) : Option (Value × List Char) := do
  let (ds, r) ← takeDigitRow (isDigitOf base) cs
  let v ← integer? (valueInBase base ds)
  some (v, r)

/-- Takes an integer. -/
def takeInteger (cs : List Char) : Option (Value × List Char) :=
  match cs with
  | '0' :: 'x' :: r => takeInBase 16 r
  | '0' :: 'o' :: r => takeInBase 8 r
  | '0' :: 'b' :: r => takeInBase 2 r
  | cs => takeDecimal cs

/-- Takes the fraction of a float, if there is one. -/
def takeFloatFraction : List Char → Option (List Char × List Char)
  | '.' :: r => (takeDigitRow isDigit r).map fun (ds, r) => ('.' :: ds, r)
  | cs => some ([], cs)

/-- Takes the exponent of a float, if there is one. -/
def takeFloatExponent : List Char → Option (List Char × List Char)
  | c :: r =>
    if c = 'e' || c = 'E' then
      let (sign, r) := takeSign r
      (takeDigitRow isDigit r).map fun (ds, r) => ('e' :: (sign ++ ds), r)
    else some ([], c :: r)
  | [] => some ([], [])

/-- Takes a float: an integer with a fraction, an exponent or both, or one of the
    two names. A numeral beyond all doubles is refused. -/
def takeFloat (cs : List Char) : Option (Value × List Char) :=
  let (sign, r) := takeSign cs
  match r with
  | 'i' :: 'n' :: 'f' :: r => some (.other, r)
  | 'n' :: 'a' :: 'n' :: r => some (.other, r)
  | r => do
    let (whole, r) ← takeDecimalDigits r
    let (fraction, r) ← takeFloatFraction r
    let (exponent, r) ← takeFloatExponent r
    if fraction.isEmpty && exponent.isEmpty then none
    else
      let x ← Double.read (sign ++ whole ++ fraction ++ exponent)
      if x == .infinity false then none else some (.other, r)

/-! ### Dates and times -/

/-- Takes exactly `n` digits. -/
def takeExactly (n : Nat) (cs : List Char) : Option (Nat × List Char) :=
  let ds := cs.take n
  if ds.length = n && ds.all isDigit then some (digitsValue ds, cs.drop n) else none

/-- Takes a given character. -/
def takeChar (c : Char) : List Char → Option (List Char)
  | d :: r => if d = c then some r else none
  | [] => none

/-- Takes a time of day. -/
def takeClock (cs : List Char) : Option (List Char) := do
  let (hour, r) ← takeExactly 2 cs
  let r ← takeChar ':' r
  let (minute, r) ← takeExactly 2 r
  let r ← takeChar ':' r
  let (second, r) ← takeExactly 2 r
  let r ← match r with
    | '.' :: r =>
      let ds := r.takeWhile isDigit
      if ds.isEmpty then none else some (r.drop ds.length)
    | r => some r
  if hour < 24 && minute < 60 && second ≤ 60 then some r else none

/-- Takes a zone, if there is one. -/
def takeZone (cs : List Char) : Option (List Char) :=
  match cs with
  | c :: r =>
    if c = 'Z' || c = 'z' then some r
    else if c = '+' || c = '-' then do
      let (hours, r) ← takeExactly 2 r
      let r ← takeChar ':' r
      let (minutes, r) ← takeExactly 2 r
      if hours < 24 && minutes < 60 then some r else none
    else some cs
  | [] => some []

/-- Takes a date that the calendar has. -/
def takeDate (cs : List Char) : Option (List Char) := do
  let (year, r) ← takeExactly 4 cs
  let r ← takeChar '-' r
  let (month, r) ← takeExactly 2 r
  let r ← takeChar '-' r
  let (day, r) ← takeExactly 2 r
  if (Calendar.Date.mk year month day).isValid then some r else none

/-- Takes the time and zone behind a date, if there are any. -/
def takeTimeOfDate (cs : List Char) : Option (List Char) :=
  match cs with
  | c :: r =>
    if c = 'T' || c = 't' then (takeClock r).bind takeZone
    else if c = ' ' && (r.head?.any isDigit) then (takeClock r).bind takeZone
    else some cs
  | [] => some []

/-- Takes a date, a date with a time, or a time. -/
def takeDateTime (cs : List Char) : Option (Value × List Char) :=
  match takeDate cs with
  | some r => (takeTimeOfDate r).map fun r => (.other, r)
  | none => (takeClock cs).map fun r => (.other, r)

/-! ### All values -/

/-- Takes a word. -/
def takeWord : (word : List Char) → List Char → Option (List Char)
  | [], cs => some cs
  | w :: word, c :: r => if c = w then takeWord word r else none
  | _ :: _, [] => none

/-- Takes a number, a date or a time. -/
def takeNumber (cs : List Char) : Option (Value × List Char) :=
  takeDateTime cs <|> takeFloat cs <|> takeInteger cs

end EntityBook.Toml
