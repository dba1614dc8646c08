import EntityBook.Json.Decode
import EntityBook.Text.Blank
import EntityBook.Value.Error

/-! # Identifiers

  An identifier is a word of 128 bits. Its text is 32 hexadecimal digits, and
  identifiers are ordered as their texts are. Inside JSON texts it has the
  hyphenated form, and four forms are read.

  The texts are read as the package hex, version 0.4, reads sixteen bytes, with its
  errors in their order; the form inside JSON is that of the package uuid, version 1.
-/

namespace EntityBook

/-- A 128-bit identifier. -/
structure Guid where
  /-- The word; its first byte is the most significant one. -/
  value : BitVec 128
  deriving DecidableEq, Repr

namespace Guid

open Text (hexDigits readHex hexCodeValue trimChars)

/-- The identifier with the given number, modulo `2 ^ 128`. -/
def ofNat (n : Nat) : Guid := ⟨BitVec.ofNat 128 n⟩

/-- The number of an identifier. -/
def toNat (g : Guid) : Nat := g.value.toNat

/-- The all-zero identifier, which no live entity has. -/
def null : Guid := ofNat 0

/-- Recognises the all-zero identifier. -/
def isNull (g : Guid) : Bool := g == null

instance : Inhabited Guid := ⟨null⟩

instance : LT Guid := ⟨fun a b => a.toNat < b.toNat⟩

instance (a b : Guid) : Decidable (a < b) := inferInstanceAs (Decidable (a.toNat < b.toNat))

/-- The order of the texts. -/
protected def compare (a b : Guid) : Ordering := compare a.toNat b.toNat

/-- The sixteen bytes of an identifier, as numbers. -/
def bytes (g : Guid) : List Nat :=
  (List.range 16).map fun i => g.toNat / Nat.pow 256 (15 - i) % 256

/-- The identifier with the given bytes. -/
def ofBytes (bs : List Nat) : Guid := ofNat (bs.foldl (fun n b => n * 256 + b) 0)

/-! ### Text -/

/-- The 32 digits of an identifier. -/
def hexChars (g : Guid) : List Char := hexDigits 32 g.toNat

/-- The text of an identifier. -/
def hex (g : Guid) : String := String.ofList g.hexChars

/-- The first eight digits, for messages. -/
def shortHex (g : Guid) : String := String.ofList (g.hexChars.take 8)

/-- How diagnostics show an identifier. -/
def debug (g : Guid) : String := "Guid(" ++ g.shortHex ++ ")"

/-- The bytes of a text. -/
def utf8 (cs : List Char) : List Nat :=
  (cs.flatMap String.utf8EncodeChar).map UInt8.toNat

/-- Reads 32 digits of either case, blanks around them allowed. An odd number of
    bytes is reported first, then the first byte that is no digit, then a wrong
    length. -/
def read (cs : List Char) : Except ValueError Guid :=
  let cs := trimChars cs
  let codes := utf8 cs
  if codes.length % 2 = 1 then .error .oddHexDigits
  else
    match codes.zipIdx.find? fun (b, _) => (hexCodeValue b).isNone with
    | some (b, i) => .error (.badHexDigit b i)
    | none =>
      if codes.length = 32 then .ok (ofNat ((readHex cs).getD 0))
      else .error (.wrongLength 16 (codes.length / 2))

/-- Reads the text of an identifier. -/
def parse (s : String) : Except ValueError Guid := read s.toList

/-! ### JSON -/

/-- Groups of eight, four, four, four and twelve digits with hyphens between. -/
def hyphenated (g : Guid) : List Char :=
  let cs := g.hexChars
  cs.take 8 ++ '-' :: (cs.drop 8).take 4 ++ '-' :: (cs.drop 12).take 4 ++
    '-' :: (cs.drop 16).take 4 ++ '-' :: cs.drop 20

/-- The tree of an identifier. -/
def toJson (g : Guid) : Json := .ofString (String.ofList g.hyphenated)

/-- Reads exactly 32 digits. -/
def readSimple (cs : List Char) : Option Guid :=
  if cs.length = 32 then (readHex cs).map ofNat else none

/-- Reads the hyphenated form. -/
def readHyphenated (cs : List Char) : Option Guid :=
  if cs.length = 36 && [8, 13, 18, 23].all fun i => cs[i]? == some '-' then
    readSimple (cs.take 8 ++ (cs.drop 9).take 4 ++ (cs.drop 14).take 4 ++
      (cs.drop 19).take 4 ++ cs.drop 24)
  else none

/-- The scheme in front of the form that names it, in lower case. -/
def urnStart : List Char := "urn:uuid:".toList

/-- Whether a text starts with the scheme, in letters of either case. -/
def startsWithUrn (cs : List Char) : Bool := (cs.take urnStart.length).map Char.toLower == urnStart

/-- Reads any of the four forms: 32 digits, hyphenated, that in braces, and that
    after its scheme. -/
def readAnyForm (cs : List Char) : Option Guid :=
  if cs.length = 32 then readSimple cs
  else if cs.length = 36 then readHyphenated cs
  else if cs.length = 38 && cs.head? = some '\x7b' && cs.getLast? = some '\x7d' then
    readHyphenated ((cs.drop 1).take 36)
  else if cs.length = 45 && startsWithUrn cs then readHyphenated (cs.drop urnStart.length)
  else none

/-- The identifier of a tree. -/
def ofJson? (j : Json) : Option Guid :=
  match j.string? with
  | some s => readAnyForm s.toList
  | none => none

end Guid

end EntityBook
