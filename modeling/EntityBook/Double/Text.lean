import EntityBook.Double.Round
import EntityBook.Double.Shortest

/-! # The text of a double

  Parameters write a double in plain positional notation, however long that
  gets, and read any usual spelling. The JSON form differs: a whole number
  keeps a `.0`, and very large and very small numbers are scientific, as serde_json
  writes them.
-/

namespace EntityBook.Double

open Text (natDigits intChars isDigit digitsValue)

/-! ### Writing -/

/-- A decimal in positional notation; a whole number gets `whole` behind it. -/
def positional (whole : List Char) (d : Decimal) : List Char :=
  if 0 ≤ d.exponent then
    d.digits ++ List.replicate d.exponent.toNat '0' ++ whole
  else
    let places := (-d.exponent).toNat
    if places < d.digits.length then
      let cut := d.digits.length - places
      d.digits.take cut ++ '.' :: d.digits.drop cut
    else
      '0' :: '.' :: (List.replicate (places - d.digits.length) '0' ++ d.digits)

/-- A decimal in scientific notation, with a sign in the exponent. -/
def scientific (d : Decimal) : List Char :=
  let mark := if d.leading < 0 then ['e'] else ['e', '+']
  match d.digits with
  | [] => []
  | first :: [] => first :: mark ++ intChars d.leading
  | first :: rest => first :: '.' :: rest ++ mark ++ intChars d.leading

/-- The minus sign of a negative double, also of the negative zero. -/
def signChars (x : Double) : List Char := if x.isNegative then ['-'] else []

/-- The plain text of a double. -/
def chars (x : Double) : List Char :=
  if x.isNaN then "NaN".toList
  else if x.isInfinite then x.signChars ++ "inf".toList
  else if x.isZero then x.signChars ++ ['0']
  else x.signChars ++ positional [] (x.shortest .up)

/-- The JSON numeral of a finite double. -/
def jsonChars (x : Double) : List Char :=
  if x.isZero then x.signChars ++ "0.0".toList
  else
    let d := x.shortest .even
    x.signChars ++
      if -5 ≤ d.leading && d.leading < 16 then positional ".0".toList d else scientific d

/-! ### Reading -/

/-- Takes the leading digits off a text. -/
def spanDigits (cs : List Char) : List Char × List Char :=
  (cs.takeWhile isDigit, cs.dropWhile isDigit)

/-- Reads an exponent after its mark: an optional sign and at least one digit. -/
def readExponent (cs : List Char) : Option Int := Text.readInt cs

/-- Reads an unsigned numeral: digits with at most one point among them, then
    perhaps an exponent. -/
def readMagnitude (negative : Bool) (cs : List Char) : Option Double :=
  let (whole, rest) := spanDigits cs
  let (fraction, rest) :=
    match rest with
    | '.' :: r => spanDigits r
    | r => ([], r)
  let coefficient := digitsValue (whole ++ fraction)
  let places : Int := fraction.length
  if whole.isEmpty && fraction.isEmpty then none
  else
    match rest with
    | [] => some (ofDecimal negative coefficient (-places))
    | c :: r =>
      if c = 'e' || c = 'E' then
        (readExponent r).map fun e => ofDecimal negative coefficient (e - places)
      else none

/-- The names of the values that are not numerals. -/
def readName (negative : Bool) (cs : List Char) : Option Double :=
  let name := cs.map Char.toLower
  if name = "inf".toList || name = "infinity".toList then some (infinity negative)
  else if name = "nan".toList then some nan
  else none

/-- Reads a double without its sign. -/
def readUnsigned (negative : Bool) (cs : List Char) : Option Double :=
  match readName negative cs with
  | some x => some x
  | none => readMagnitude negative cs

/-- Reads a double: an optional sign, then a name or a numeral, and nothing
    else. The value is the nearest double. -/
def read : List Char → Option Double
  | '-' :: r => readUnsigned true r
  | '+' :: r => readUnsigned false r
  | cs => readUnsigned false cs

end EntityBook.Double
