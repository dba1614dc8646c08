/-! # Doubles

  A double is its 64 bits: a sign, eleven exponent bits and 52 fraction bits.
  A finite one stands for `mantissa * 2 ^ exponent`. Everything here is exact
  arithmetic on those integers, so nothing depends on the machine.

  Two doubles are the same value of the type when they have the same bits;
  `agrees` is the comparison of numbers, where the two zeros are equal and no
  NaN is equal to anything.
-/

namespace EntityBook

/-- A binary floating-point number of 64 bits. -/
structure Double where
  /-- Sign, exponent field and fraction field, from the most significant bit. -/
  bits : BitVec 64
  deriving DecidableEq, Repr

namespace Double

/-! ### Fields -/

/-- The magnitude of infinity: all exponent bits set and no fraction. -/
def infinityMagnitude : Nat := 0x7FF0000000000000

/-- The sign bit. -/
def isNegative (x : Double) : Bool := x.bits.msb

/-- The bits below the sign, as a number; finite magnitudes grow with it. -/
def magnitude (x : Double) : Nat := x.bits.toNat % Nat.pow 2 63

/-- The double with a given sign and magnitude. -/
def ofMagnitude (negative : Bool) (magnitude : Nat) : Double :=
  ⟨BitVec.ofNat 64 ((if negative then Nat.pow 2 63 else 0) + magnitude)⟩

/-- The integer that is scaled by the exponent; below `2 ^ 53`. -/
def mantissa (x : Double) : Nat :=
  if x.magnitude < Nat.pow 2 52 then x.magnitude
  else Nat.pow 2 52 + x.magnitude % Nat.pow 2 52

/-- The power of two that scales the mantissa. -/
def exponent (x : Double) : Int :=
  if x.magnitude < Nat.pow 2 52 then -1074 else (x.magnitude / Nat.pow 2 52 : Nat) - 1075

/-! ### Classes and particular values -/

/-- The sign-free test for NaN: beyond infinity. -/
def isNaN (x : Double) : Bool := infinityMagnitude < x.magnitude

/-- Recognises both infinities. -/
def isInfinite (x : Double) : Bool := x.magnitude == infinityMagnitude

/-- Neither infinite nor NaN. -/
def isFinite (x : Double) : Bool := x.magnitude < infinityMagnitude

/-- Recognises both zeros. -/
def isZero (x : Double) : Bool := x.magnitude == 0

/-- The NaN that readers and arithmetic answer. -/
def nan : Double := ofMagnitude false 0x7FF8000000000000

/-- The infinity of a given sign. -/
def infinity (negative : Bool) : Double := ofMagnitude negative infinityMagnitude

/-- The zero of a given sign. -/
def zero (negative : Bool) : Double := ofMagnitude negative 0

/-- Equality of numbers: the zeros are equal, a NaN is equal to nothing. -/
def agrees (x y : Double) : Bool :=
  !x.isNaN && !y.isNaN && (x == y || (x.isZero && y.isZero))

instance : Inhabited Double := ⟨zero false⟩

end Double

end EntityBook
