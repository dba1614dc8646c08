import EntityBook.Double.Round
import EntityBook.Text.Integer

/-! # JSON numerals

  A numeral is kept as the digits of its parts until its meaning is asked for:
  it is an integer only when it has neither fraction nor exponent, and it is a
  double whenever its value is in range.

  Reading a double is quick and not always exact: of the digits only those that
  fit 64 bits count, and the power of ten is applied by one product or quotient
  of doubles. Numerals of up to fifteen digits with small exponents come out
  exact, longer ones may differ from the nearest double in the last bit. This is
  how serde_json reads numbers without its feature `float_roundtrip`.
-/

namespace EntityBook.Json

open Text (isDigit digitValue digitsValue)

/-- The parts of a numeral. -/
structure Numeral where
  /-- Whether a minus sign is in front. -/
  negative : Bool
  /-- The digits before the point. -/
  whole : List Char
  /-- The digits after the point, none if there is no point. -/
  fraction : List Char
  /-- The exponent, if any: whether it is negative, and its digits. -/
  exponent : Option (Bool × List Char)
  deriving DecidableEq, Repr

namespace Numeral

/-! ### Text -/

/-- The text of a numeral; an exponent always shows its sign. -/
def chars (n : Numeral) : List Char :=
  (if n.negative then ['-'] else []) ++ n.whole ++
    (if n.fraction.isEmpty then [] else '.' :: n.fraction) ++
    match n.exponent with
    | none => []
    | some (negative, ds) => 'e' :: (if negative then '-' else '+') :: ds

/-- Takes the digits before the point: a zero alone, or digits that do not
    begin with one. -/
def takeWhole : List Char → Option (List Char × List Char)
  | [] => none
  | c :: r =>
    if !isDigit c then none
    else if c = '0' then
      match r with
      | d :: _ => if isDigit d then none else some (['0'], r)
      | [] => some (['0'], [])
    else some (c :: r.takeWhile isDigit, r.dropWhile isDigit)

/-- Takes a point and the digits after it, or nothing if there is no point. -/
def takeFraction : List Char → Option (List Char × List Char)
  | '.' :: r =>
    let ds := r.takeWhile isDigit
    if ds.isEmpty then none else some (ds, r.dropWhile isDigit)
  | cs => some ([], cs)

/-- Takes the digits of an exponent. -/
def takeExponentDigits (negative : Bool) (cs : List Char) :
    Option (Option (Bool × List Char) × List Char) :=
  let ds := cs.takeWhile isDigit
  if ds.isEmpty then none else some (some (negative, ds), cs.dropWhile isDigit)

/-- Takes an exponent, or nothing if there is no exponent mark. -/
def takeExponent : List Char → Option (Option (Bool × List Char) × List Char)
  | [] => some (none, [])
  | c :: r =>
    if c = 'e' || c = 'E' then
      match r with
      | '-' :: r => takeExponentDigits true r
      | '+' :: r => takeExponentDigits false r
      | r => takeExponentDigits false r
    else some (none, c :: r)

/-- Takes a sign. -/
def takeSign : List Char → Bool × List Char
  | '-' :: r => (true, r)
  | cs => (false, cs)

/-- Takes a numeral off a text. -/
def take (cs : List Char) : Option (Numeral × List Char) := do
  let (negative, cs) := takeSign cs
  let (whole, cs) ← takeWhole cs
  let (fraction, cs) ← takeFraction cs
  let (exponent, cs) ← takeExponent cs
  some (⟨negative, whole, fraction, exponent⟩, cs)

/-! ### Integers -/

/-- The integer that a numeral denotes. One with a fraction or an exponent
    denotes none, and neither does the negative zero. -/
def integer? (n : Numeral) : Option Int :=
  let value := digitsValue n.whole
  if n.fraction.isEmpty && n.exponent.isNone && !(n.negative && value == 0) then
    some (if n.negative then -(value : Int) else value)
  else none

/-- The numeral of an integer. -/
def ofInt (n : Int) : Numeral := ⟨n < 0, Text.natDigits n.natAbs, [], none⟩

/-! ### Doubles -/

/-- Appends digits to a significand while it fits 64 bits; answers it and the
    digits left over. -/
def gather (significand : Nat) : List Char → Nat × List Char
  | [] => (significand, [])
  | c :: r =>
    let next := significand * 10 + digitValue c
    if next < Nat.pow 2 64 then gather next r else (significand, c :: r)

/-- The significand and the power of ten of a numeral. Digits before the point
    that do not fit raise the power, those after it are dropped. -/
def parts (n : Numeral) : Nat × Int :=
  let (significand, left) := gather 0 n.whole
  let (significand, dropped) := gather significand n.fraction
  let shown : Int := (left.length : Int) - (n.fraction.length - dropped.length : Nat)
  let exponent : Int :=
    match n.exponent with
    | none => 0
    | some (negative, ds) => if negative then -(digitsValue ds : Int) else digitsValue ds
  (significand, shown + exponent)

/-- The largest power of ten that is a finite double. -/
def maxPower : Nat := 308

/-- A power of ten as a double. -/
def powerOfTen (e : Nat) : Double := Double.ofRatio false (Nat.pow 10 e) 1

/-- Divides by a power of ten, in steps of `maxPower` until zero is reached. -/
def divideByPower (x : Double) (e : Nat) : Double :=
  if e ≤ maxPower then x.div (powerOfTen e)
  else if x.isZero then x
  else divideByPower (x.div (powerOfTen maxPower)) (e - maxPower)
termination_by e
decreasing_by unfold maxPower at *; omega

/-- A significand times a power of ten, if that is a finite double. -/
def scaled (significand : Nat) (exponent : Int) : Option Double :=
  let x := Double.ofRatio false significand 1
  if exponent < 0 then some (divideByPower x (-exponent).toNat)
  else if exponent ≤ maxPower then
    let y := x.mul (powerOfTen exponent.toNat)
    if y.isInfinite then none else some y
  else if x.isZero then some x
  else none

/-- The double that a numeral denotes, if it is in range. -/
def double? (n : Numeral) : Option Double :=
  let (significand, exponent) := n.parts
  (scaled significand exponent).map fun x => if n.negative then x.neg else x

end Numeral

end EntityBook.Json
