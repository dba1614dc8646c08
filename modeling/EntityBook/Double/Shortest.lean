import EntityBook.Double.Basic
import EntityBook.Text.Integer

/-! # Shortest decimals

  A double is written with the fewest digits that read back as the same double.
  The decimals that do so form an interval around the value, its ends included
  exactly when the mantissa is even. For one digit, two digits and so on, the
  two decimals of that many digits next to the value are tried; of two that
  both read back, the nearer one is taken.

  When the two are equally near the caller's `Tie` decides: serde_json, whose
  numerals are these decimals, takes the one that ends in an even digit, and the
  plain text of a parameter the larger one.
-/

namespace EntityBook.Double

/-- What to do with a value halfway between two decimals of the same length. -/
inductive Tie where
  /-- Takes the larger decimal. -/
  | up
  /-- Takes the decimal whose last digit is even. -/
  | even
  deriving DecidableEq, Repr

/-- The decimal `coefficient * 10 ^ exponent`. -/
structure Decimal where
  /-- The digits, as a number. -/
  coefficient : Nat
  /-- The power of ten that scales them. -/
  exponent : Int
  deriving DecidableEq, Repr

namespace Decimal

/-- Moves trailing zeros of the coefficient into the exponent. -/
def strip (coefficient : Nat) (exponent : Int) : Decimal :=
  if h : 0 < coefficient ∧ coefficient % 10 = 0 then strip (coefficient / 10) (exponent + 1)
  else ⟨coefficient, exponent⟩
termination_by coefficient
decreasing_by omega

/-- The digits of the coefficient. -/
def digits (d : Decimal) : List Char := Text.natDigits d.coefficient

/-- The exponent of the first digit. -/
def leading (d : Decimal) : Int := d.exponent + d.digits.length - 1

end Decimal

/-- A positive value and the interval around it that reads back as it, over a
    common denominator. -/
structure Interval where
  /-- Lower end. -/
  low : Nat
  /-- The value itself. -/
  mid : Nat
  /-- Upper end. -/
  high : Nat
  /-- The denominator of all three. -/
  den : Nat
  /-- Whether the ends belong to the interval. -/
  closed : Bool

/-- The interval of `mantissa * 2 ^ exponent`. Below a power of two the doubles
    lie twice as close, so the lower half of the interval is half as wide. -/
def interval (mantissa : Nat) (exponent : Int) : Interval :=
  let up := Nat.pow 2 exponent.toNat
  let narrow := mantissa = Nat.pow 2 52 && -1074 < exponent
  { low := (4 * mantissa - if narrow then 1 else 2) * up
    mid := 4 * mantissa * up
    high := (4 * mantissa + 2) * up
    den := 4 * Nat.pow 2 (-exponent).toNat
    closed := mantissa % 2 = 0 }

namespace Interval

/-- The interval measured in units of `10 ^ k`. -/
def inUnits (i : Interval) (k : Int) : Interval :=
  { i with
    low := i.low * Nat.pow 10 (-k).toNat
    mid := i.mid * Nat.pow 10 (-k).toNat
    high := i.high * Nat.pow 10 (-k).toNat
    den := i.den * Nat.pow 10 k.toNat }

/-- Whether an integer lies in the interval. -/
def contains (i : Interval) (c : Nat) : Bool :=
  if i.closed then i.low ≤ c * i.den && c * i.den ≤ i.high
  else i.low < c * i.den && c * i.den < i.high

/-- The integer of the interval nearest to the value, if there is one. -/
def nearest? (tie : Tie) (i : Interval) : Option Nat :=
  let c := i.mid / i.den
  let r := i.mid % i.den
  match i.contains c, i.contains (c + 1) with
  | false, false => none
  | true, false => some c
  | false, true => some (c + 1)
  | true, true =>
    if 2 * r < i.den then some c
    else if i.den < 2 * r then some (c + 1)
    else match tie with
      | .up => some (c + 1)
      | .even => some (if c % 2 = 0 then c else c + 1)

end Interval

/-- An exponent `e` with `10 ^ (e - 1) ≤ value < 10 ^ e`, from the binary
    logarithm: 30103 / 100000 is the decimal logarithm of two to enough places
    for every double. -/
def decimalPoint (mantissa : Nat) (exponent : Int) : Int :=
  let e := (((mantissa.log2 : Int) + exponent) * 30103).fdiv 100000
  let i := (interval mantissa exponent).inUnits (e + 1)
  if i.den ≤ i.mid then e + 2 else e + 1

/-- Tries `10 ^ k`, then finer units, at most `fuel` times. -/
def searchDigits (tie : Tie) (i : Interval) : (fuel : Nat) → (k : Int) → Decimal
  | 0, k => Decimal.strip ((i.inUnits k).mid / (i.inUnits k).den) k
  | fuel + 1, k =>
    match (i.inUnits k).nearest? tie with
    | some c => Decimal.strip c k
    | none => searchDigits tie i fuel (k - 1)

/-- The shortest decimal of the magnitude of a finite double other than zero.
    Seventeen digits always suffice. -/
def shortest (tie : Tie) (x : Double) : Decimal :=
  searchDigits tie (interval x.mantissa x.exponent) 17
    (decimalPoint x.mantissa x.exponent - 1)

end EntityBook.Double
