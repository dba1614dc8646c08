import EntityBook.Calendar.Rfc3339
import EntityBook.Double.Text
import EntityBook.SideTable.Frame
import EntityBook.Value.Kind

/-! # Parameter values

  A value of any parameter kind, and its text. The text of every kind but the
  side-table carries the whole value: `parse` reads it back.
-/

namespace EntityBook

/-! ### Scalars -/

namespace ScalarKind

open Text (intChars readInt32 readInt64 trimChars)

/-- The text of a truth value. -/
def booleanChars (b : Bool) : List Char := if b then "true".toList else "false".toList

/-- The text of a scalar. -/
def chars : (k : ScalarKind) → k.Value → List Char
  | string, v => v.toList
  | int32, v => intChars v.toInt
  | int64, v => intChars v.toInt
  | double, v => v.chars
  | boolean, v => booleanChars v
  | guid, v => v.hexChars
  | time, v => v.chars
  | numeric, v => v.chars
  | char, v => [v]

/-- Takes what a reader found, or reports the whole text as unreadable. -/
def orUnreadable {α : Type} (kind : String) (cs : List Char) : Option α → Except ValueError α
  | some v => .ok v
  | none => .error (.unreadable kind (String.ofList cs))

/-- Reads a truth value in any case of letters. -/
def readBoolean (cs : List Char) : Option Bool :=
  let word := cs.map Char.toLower
  if word = booleanChars true then some true
  else if word = booleanChars false then some false
  else none

/-- Reads a text of exactly one character. -/
def readChar : List Char → Option Char
  | [c] => some c
  | _ => none

/-- Reads the text of a scalar. Blanks around it are allowed where they cannot be
    part of the value. -/
def read : (k : ScalarKind) → List Char → Except ValueError k.Value
  | string, cs => .ok (String.ofList cs)
  | int32, cs => orUnreadable "gint32" cs (readInt32 (trimChars cs))
  | int64, cs => orUnreadable "gint64" cs (readInt64 (trimChars cs))
  | double, cs => orUnreadable "double" cs (Double.read (trimChars cs))
  | boolean, cs => orUnreadable "boolean" (trimChars cs) (readBoolean (trimChars cs))
  | guid, cs => Guid.read cs
  | time, cs => orUnreadable "time" cs (Timestamp.read cs)
  | numeric, cs => Numeric.read cs
  | char, cs => orUnreadable "character" cs (readChar cs)

/-- Equality of scalars as values: doubles compare as numbers. -/
def agrees : (k : ScalarKind) → k.Value → k.Value → Bool
  | double, a, b => a.agrees b
  | _, a, b => decide (a = b)

/-- The value that stands for nothing given. -/
def initial : (k : ScalarKind) → k.Value
  | string => ""
  | int32 => 0
  | int64 => 0
  | double => Double.zero false
  | boolean => false
  | guid => Guid.null
  | time => Timestamp.epoch
  | numeric => Numeric.zero
  | char => 'x'

end ScalarKind

/-! ### Values of all kinds -/

/-- A value of a parameter. -/
inductive ParamValue where
  /-- A scalar. -/
  | scalar (kind : ScalarKind) (value : kind.Value)
  /-- A side-table. -/
  | slots (frame : Frame)
  /-- The entity that a reference points at, if any. -/
  | reference (target : Option Guid)
  /-- The entity of any type that a choice points at, if any. -/
  | choice (target : Option Entity)
  /-- The members of a collection. -/
  | collection (members : List Guid)
  /-- The owning book. -/
  | book (id : Guid)
  deriving DecidableEq

namespace ParamValue

open Text (trimChars)

/-- Texts with commas between them. -/
def joinCommas : List (List Char) → List Char
  | [] => []
  | [cs] => cs
  | cs :: rest => cs ++ ',' :: joinCommas rest

/-- The text of a value. A side-table is summarised. -/
def chars : ParamValue → List Char
  | scalar k v => k.chars v
  | slots f => f.summary.toList
  | reference none => []
  | reference (some g) => g.hexChars
  | choice none => []
  | choice (some e) => e.text.toList
  | collection gs => joinCommas (gs.map Guid.hexChars)
  | book g => g.hexChars

/-- The text of a value. -/
def text (v : ParamValue) : String := String.ofList v.chars

/-- Reads each text of a list; the first error is the answer. -/
def readAll : List (List Char) → Except ValueError (List Guid)
  | [] => .ok []
  | cs :: rest =>
    match Guid.read cs with
    | .error e => .error e
    | .ok g =>
      match readAll rest with
      | .error e => .error e
      | .ok gs => .ok (g :: gs)

/-- Reads the members of a collection, with commas between them. -/
def readCollection (cs : List Char) : Except ValueError (List Guid) :=
  let cs := trimChars cs
  if cs.isEmpty then .ok [] else readAll (cs.splitOn ',')

/-- Reads nothing from a blank text, and a value from any other. -/
def readOptional {α : Type} (read : List Char → Except ValueError α) (cs : List Char) :
    Except ValueError (Option α) :=
  let cs := trimChars cs
  if cs.isEmpty then .ok none else (read cs).map some

/-- Reads the text of a value of a given kind. A summary does not carry a
    side-table, so none can be read. -/
def read : ParamKind → List Char → Except ValueError ParamValue
  | .scalar k, cs => (k.read cs).map (scalar k)
  | .slots, cs => .error (.unreadable "kvp" (String.ofList cs))
  | .collection, cs => (readCollection cs).map collection
  | .choice, cs => (readOptional Entity.read cs).map choice
  | .book, cs => (Guid.read cs).map book
  | .reference _, cs => (readOptional Guid.read cs).map reference

/-- Reads the text of a value of a given kind. -/
def parse (kind : ParamKind) (s : String) : Except ValueError ParamValue := read kind s.toList

/-- Equality of values: doubles compare as numbers. -/
def agrees (a b : ParamValue) : Bool :=
  match a, b with
  | scalar k v, scalar l w => if h : l = k then k.agrees v (h ▸ w) else false
  | a, b => decide (a = b)

end ParamValue

end EntityBook
