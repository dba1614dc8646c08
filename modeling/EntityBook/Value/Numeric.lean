import EntityBook.Double.Round
import EntityBook.Json.Decode
import EntityBook.Text.Blank
import EntityBook.Value.Error

/-! # Exact rationals

  A rational is a pair of 64-bit integers as it was given: one half and two
  quarters are different, so that texts come back unchanged. `sameValue`
  compares the lowest terms.

  The denominator is positive unless the rational was read from a JSON text,
  which is taken as it stands.
-/

namespace EntityBook

/-- A fraction that is not reduced by itself. -/
structure Numeric where
  /-- The numerator. -/
  num : Int64
  /-- The denominator. -/
  denom : Int64
  deriving DecidableEq, Repr

namespace Numeric

open Text (intChars readInt64 trimChars)

/-- Zero over one. -/
def zero : Numeric := ⟨0, 1⟩

instance : Inhabited Numeric := ⟨zero⟩

/-- The fraction with a positive denominator. -/
def make (num denom : Int64) : Except ValueError Numeric :=
  if denom ≤ 0 then .error (.badDenominator denom) else .ok ⟨num, denom⟩

/-- Whether the numerator is zero. -/
def isZero (n : Numeric) : Bool := n.num == 0

/-- The fraction in lowest terms. -/
def reduce (n : Numeric) : Numeric :=
  let g := Nat.gcd n.num.toInt.natAbs n.denom.toInt.natAbs
  if g ≤ 1 then n
  else
    let g := Int64.ofNat g
    ⟨n.num / g, n.denom / g⟩

/-- Whether two fractions have the same lowest terms. -/
def sameValue (a b : Numeric) : Bool := a.reduce == b.reduce

/-- Both parts as doubles, divided. -/
def toDouble (n : Numeric) : Double :=
  (Double.ofInt n.num.toInt).div (Double.ofInt n.denom.toInt)

/-! ### Text -/

/-- Numerator and denominator with a slash between them. -/
def chars (n : Numeric) : List Char :=
  intChars n.num.toInt ++ '/' :: intChars n.denom.toInt

/-- The text of a fraction. -/
def text (n : Numeric) : String := String.ofList n.chars

/-- Reads an integer, or two with a slash between them. Blanks are allowed
    around the text and around both integers. -/
def read (cs : List Char) : Except ValueError Numeric :=
  let cs := trimChars cs
  let bad := ValueError.unreadable "numeric" (String.ofList cs)
  match cs.span (· ≠ '/') with
  | (num, _ :: denom) =>
    match readInt64 (trimChars num), readInt64 (trimChars denom) with
    | some num, some denom => make num denom
    | _, _ => .error bad
  | (_, []) =>
    match readInt64 cs with
    | some num => .ok ⟨num, 1⟩
    | none => .error bad

/-- Reads the text of a fraction. -/
def parse (s : String) : Except ValueError Numeric := read s.toList

/-! ### JSON -/

/-- The tree of a fraction. -/
def toJson (n : Numeric) : Json :=
  .ofMembers [("num", .ofInt n.num.toInt), ("denom", .ofInt n.denom.toInt)]

/-- The fraction of a tree; the denominator is not looked at. -/
def ofJson? (room : Nat) (j : Json) : Option Numeric :=
  if room = 0 then none
  else
    match j.record? ["num", "denom"] with
    | some [some num, some denom] => do some ⟨← num.int64?, ← denom.int64?⟩
    | _ => none

end Numeric

end EntityBook
