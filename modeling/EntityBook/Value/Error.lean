import EntityBook.Text.Integer
import EntityBook.Text.Quoted

/-! # Errors of values

  Why a text or a number is not a value of the kind asked for.
-/

namespace EntityBook

/-- The causes for which a value cannot be built. -/
inductive ValueError where
  /-- Hexadecimal text with half a byte at the end. -/
  | oddHexDigits
  /-- A byte that is no hexadecimal digit, and its position in the text. -/
  | badHexDigit (byte : Nat) (position : Nat)
  /-- Hexadecimal text for another number of bytes than expected. -/
  | wrongLength (expected actual : Nat)
  /-- Text that is not the form of any value of a kind. -/
  | unreadable (kind : String) (text : String)
  /-- A denominator that is not positive. -/
  | badDenominator (denominator : Int64)
  /-- A name that no parameter kind has. -/
  | unsupportedKind (name : String)
  /-- A slot path without a name in it. -/
  | emptyPath (path : String)
  /-- Text that does not encode a side-table value. -/
  | badEncoding
  deriving DecidableEq, Repr

namespace ValueError

open Text (intText natText quote quoteChar)

/-- The wording of an error. -/
def message : ValueError → String
  | oddHexDigits => "invalid hex string: Odd number of digits"
  | badHexDigit byte position =>
    "invalid hex string: Invalid character " ++ quoteChar (Char.ofNat byte) ++
      " at position " ++ natText position
  | wrongLength expected actual =>
    "invalid byte length: expected " ++ natText expected ++ ", got " ++ natText actual
  | unreadable kind text => "invalid " ++ kind ++ " text: " ++ quote text
  | badDenominator d => "numeric denominator must be positive, got " ++ intText d.toInt
  | unsupportedKind name => "unsupported parameter kind: " ++ name
  | emptyPath path => "invalid kvp path: " ++ quote path
  | badEncoding => "serialization error"

end ValueError

end EntityBook
