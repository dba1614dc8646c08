import EntityBook.Double.Basic

/-! # Rounding to the nearest double

  `ofRatio` takes a fraction of natural numbers to the nearest double, ties to
  the even mantissa, and to infinity beyond the largest finite one. Integers,
  decimal numerals, products and quotients all come down to it.
-/

namespace EntityBook.Double

/-! ### From fractions -/

/-- A quotient rounded to the nearest integer, a tie to the even one. -/
def roundDiv (num den : Nat) : Nat :=
  let q := num / den
  let r := num % den
  if 2 * r < den then q
  else if den < 2 * r then q + 1
  else if q % 2 = 0 then q else q + 1

/-- A fraction times a power of two, as a fraction. -/
def scaleByTwo (num den : Nat) (e : Int) : Nat × Nat :=
  if 0 ≤ e then (num * Nat.pow 2 e.toNat, den) else (num, den * Nat.pow 2 (-e).toNat)

/-- The floor of the binary logarithm of a positive fraction. -/
def log2Ratio (num den : Nat) : Int :=
  let e : Int := (num.log2 : Int) - den.log2
  let (n, d) := scaleByTwo num den (-e)
  if d ≤ n then e else e - 1

/-- The exponent of the doubles around a positive fraction. -/
def ratioExponent (num den : Nat) : Int :=
  max (log2Ratio num den - 52) (-1074)

/-- The double nearest to `num / den`, with the given sign. -/
def ofRatio (negative : Bool) (num den : Nat) : Double :=
  if num = 0 then zero negative
  else
    let q := ratioExponent num den
    let (n, d) := scaleByTwo num den (-q)
    let magnitude := (q + 1074).toNat * Nat.pow 2 52 + roundDiv n d
    ofMagnitude negative (min magnitude infinityMagnitude)

/-- The double nearest to an integer. -/
def ofInt (n : Int) : Double := ofRatio (n < 0) n.natAbs 1

/-- The decimal digits a double can need before its value is out of range. -/
def decimalRange : Int := 400

/-- The double nearest to `coefficient * 10 ^ exponent`. Exponents beyond every
    double are answered without computing the power. -/
def ofDecimal (negative : Bool) (coefficient : Nat) (exponent : Int) : Double :=
  if coefficient = 0 then zero negative
  else if decimalRange < exponent then infinity negative
  else if exponent < 0 then
    -- The coefficient is below `2 ^ (log2 + 1)`, hence below `10 ^ (log2 + 1)`.
    if (coefficient.log2 : Int) + 1 + exponent < -decimalRange then zero negative
    else ofRatio negative coefficient (Nat.pow 10 (-exponent).toNat)
  else ofRatio negative (coefficient * Nat.pow 10 exponent.toNat) 1

/-! ### Products and quotients -/

/-- The magnitude of a finite double as a fraction. -/
def ratio (x : Double) : Nat × Nat := scaleByTwo x.mantissa 1 x.exponent

/-- The product, correctly rounded. -/
def mul (x y : Double) : Double :=
  let negative := x.isNegative != y.isNegative
  if x.isNaN || y.isNaN then nan
  else if x.isInfinite || y.isInfinite then
    if x.isZero || y.isZero then nan else infinity negative
  else ofRatio negative (x.ratio.1 * y.ratio.1) (x.ratio.2 * y.ratio.2)

/-- The quotient, correctly rounded. -/
def div (x y : Double) : Double :=
  let negative := x.isNegative != y.isNegative
  if x.isNaN || y.isNaN then nan
  else if x.isInfinite then if y.isInfinite then nan else infinity negative
  else if y.isInfinite then zero negative
  else if y.isZero then if x.isZero then nan else infinity negative
  else ofRatio negative (x.ratio.1 * y.ratio.2) (x.ratio.2 * y.ratio.1)

/-- The double of opposite sign. -/
def neg (x : Double) : Double := ofMagnitude (!x.isNegative) x.magnitude

end EntityBook.Double
