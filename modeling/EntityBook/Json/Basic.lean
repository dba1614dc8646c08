import EntityBook.Json.Numeral

/-! # JSON trees

  The tree of a JSON text. It keeps the order and the repetitions of object
  members and the parts of numerals, because what they mean depends on who asks.
  A string whose escapes hold half of a surrogate pair denotes no text; it may
  stand where nobody reads it, so the tree has a place for it.

  The modules on JSON follow the package serde_json, version 1 with its default
  features: `Json.Reader` the texts it accepts, `Json.Numeral` how it reads numbers,
  `Json.Writer` its compact form, and `Json.Decode` how serde, version 1, takes
  records from what was read.
-/

namespace EntityBook

/-- The tree of a JSON text. -/
inductive Json where
  /-- The literal `null`. -/
  | null
  /-- The literals `true` and `false`. -/
  | bool (value : Bool)
  /-- A number. -/
  | number (numeral : Json.Numeral)
  /-- A string, or `none` for one that denotes no text. -/
  | string (text : Option String)
  /-- An array. -/
  | array (items : List Json)
  /-- An object, its members in the order of the text. -/
  | object (members : List (Option String × Json))

namespace Json

/-- The tree of a text. -/
def ofString (s : String) : Json := .string (some s)

/-- The tree of an integer. -/
def ofInt (n : Int) : Json := .number (.ofInt n)

/-- The tree of an object with the given members. -/
def ofMembers (members : List (String × Json)) : Json :=
  .object (members.map fun (name, value) => (some name, value))

/-- The text of a tree's string, if it is one and denotes a text. -/
def string? : Json → Option String
  | .string text => text
  | _ => none

/-- The truth value of a tree, if it is one. -/
def bool? : Json → Option Bool
  | .bool value => some value
  | _ => none

/-- The integer of a tree, if it is one between the bounds. -/
def integerIn? (low high : Int) : Json → Option Int
  | .number n =>
    match n.integer? with
    | some i => if low ≤ i && i ≤ high then some i else none
    | none => none
  | _ => none

/-- The 64-bit integer of a tree, if it is one. -/
def int64? (j : Json) : Option Int64 :=
  (j.integerIn? Int64.minValue.toInt Int64.maxValue.toInt).map Int64.ofInt

/-- The double of a tree, if it is a number in range. -/
def double? : Json → Option Double
  | .number n => n.double?
  | _ => none

end Json

end EntityBook
