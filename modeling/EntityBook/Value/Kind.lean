import EntityBook.Calendar.Timestamp
import EntityBook.Double.Basic
import EntityBook.Value.Entity
import EntityBook.Value.Numeric

/-! # Parameter kinds

  The kinds of parameters form a closed set. A scalar has a value of its own; a
  reference, a choice and a collection point at other entities; the side-table
  and the owning book are neither.
-/

namespace EntityBook

/-- The kinds whose value can be copied as it stands. -/
inductive ScalarKind where
  /-- A text. -/
  | string
  /-- A 32-bit integer. -/
  | int32
  /-- A 64-bit integer. -/
  | int64
  /-- A binary floating-point number. -/
  | double
  /-- A truth value. -/
  | boolean
  /-- An identifier. -/
  | guid
  /-- An instant. -/
  | time
  /-- An exact rational. -/
  | numeric
  /-- A single character. -/
  | char
  deriving DecidableEq, Repr

namespace ScalarKind

/-- The type of the values of a scalar kind. -/
@[reducible] def Value : ScalarKind → Type
  | string => String
  | int32 => Int32
  | int64 => Int64
  | double => Double
  | boolean => Bool
  | guid => Guid
  | time => Timestamp
  | numeric => Numeric
  | char => Char

/-- Scalars are equal when they are indistinguishable. -/
instance decEqValue : (k : ScalarKind) → DecidableEq k.Value
  | string => inferInstanceAs (DecidableEq String)
  | int32 => inferInstanceAs (DecidableEq Int32)
  | int64 => inferInstanceAs (DecidableEq Int64)
  | double => inferInstanceAs (DecidableEq Double)
  | boolean => inferInstanceAs (DecidableEq Bool)
  | guid => inferInstanceAs (DecidableEq Guid)
  | time => inferInstanceAs (DecidableEq Timestamp)
  | numeric => inferInstanceAs (DecidableEq Numeric)
  | char => inferInstanceAs (DecidableEq Char)

/-- The name of a scalar kind. -/
def name : ScalarKind → String
  | string => "string"
  | int32 => "gint32"
  | int64 => "gint64"
  | double => "double"
  | boolean => "boolean"
  | guid => "guid"
  | time => "time"
  | numeric => "numeric"
  | char => "character"

/-- The name of a scalar kind inside JSON texts. -/
def jsonName : ScalarKind → String
  | string => "String"
  | int32 => "Int32"
  | int64 => "Int64"
  | double => "Double"
  | boolean => "Boolean"
  | guid => "Guid"
  | time => "Time"
  | numeric => "Numeric"
  | char => "Char"

/-- All scalar kinds. -/
def all : List ScalarKind := [string, int32, int64, double, boolean, guid, time, numeric, char]

end ScalarKind

/-- The kind of a parameter. -/
inductive ParamKind where
  /-- A value of its own. -/
  | scalar (kind : ScalarKind)
  /-- The side-table of the instance. -/
  | slots
  /-- Many entities of one type. -/
  | collection
  /-- One entity of any type. -/
  | choice
  /-- The book that owns the instance. -/
  | book
  /-- One entity of a given type. -/
  | reference (target : TypeTag)
  deriving DecidableEq, Repr

namespace ParamKind

/-- The name of a kind; a reference is called after its target. -/
def name : ParamKind → String
  | scalar k => k.name
  | slots => "kvp"
  | collection => "collection"
  | choice => "choice"
  | book => "book"
  | reference target => target

/-- Whether a kind has a value of its own. -/
def isScalar : ParamKind → Bool
  | scalar _ => true
  | _ => false

/-- Whether a kind points at other entities. -/
def isReference : ParamKind → Bool
  | collection => true
  | choice => true
  | reference _ => true
  | _ => false

/-- The kinds that have a name of their own. -/
def named : List ParamKind := ScalarKind.all.map scalar ++ [slots, collection, choice, book]

/-- The kind with a given name. References are not found by name: a type's name
    means one only to those who know the types. -/
def ofName (name : String) : Except ValueError ParamKind :=
  match named.find? fun k => k.name == name with
  | some k => .ok k
  | none => .error (.unsupportedKind name)

/-! ### JSON -/

/-- The name of a kind inside JSON texts. -/
def jsonName : ParamKind → String
  | scalar k => k.jsonName
  | slots => "Kvp"
  | collection => "Collection"
  | choice => "Choice"
  | book => "Book"
  | reference _ => "Reference"

/-- The tree of a kind: its name, and the target behind it for a reference. -/
def toJson : ParamKind → Json
  | reference target => .ofMembers [("Reference", .ofString target)]
  | k => .ofString k.jsonName

/-- The kind of a tree. -/
def ofJson? (room : Nat) (j : Json) : Option ParamKind :=
  match j with
  | .object [(some "Reference", target)] =>
    if room = 0 then none else target.string?.map reference
  | j =>
    match j.unitName? room false with
    | some name => named.find? fun k => k.jsonName == name
    | none => none

end ParamKind

end EntityBook
