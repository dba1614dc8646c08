import EntityBook.Calendar.Relaxed
import EntityBook.Double.Text
import EntityBook.Json.Writer
import EntityBook.SideTable.Frame

/-! # Side-tables as JSON

  A slot is written as a record of its type and its value, a frame as a record
  whose only field maps names to slots. The text form of a slot is the JSON text
  of that tree; it is how single slots are kept outside the table.

  A double that is not finite is written `null`, and that does not read back.

  When the value of a slot stands before its type, it is held back until the
  type is known, which asks more of it than being skipped would. Slots inside
  such a value may give their type by its place among the types, where they are
  written as arrays. All of this is how serde decodes records whose type stands in
  a field beside their value.
-/

namespace EntityBook

/-! ### Writing -/

namespace Double

/-- The tree of a double: a numeral, or `null` if it is not finite. The numeral
    is the one that its text is made of. -/
def toJson (x : Double) : Json :=
  match x.isFinite, Json.Numeral.take x.jsonChars with
  | true, some (n, _) => .number n
  | _, _ => .null

end Double

namespace Timestamp

/-- The tree of an instant. -/
def toJson (t : Timestamp) : Json := .ofString (String.ofList t.jsonChars)

/-- The instant of a tree. -/
def ofJson? (j : Json) : Option Timestamp :=
  match j.string? with
  | some s => readRelaxed s.toList
  | none => none

end Timestamp

namespace Slot

/-- The record of a slot. -/
def tagged (type : String) (value : Json) : Json :=
  .ofMembers [("type", .ofString type), ("value", value)]

mutual

/-- The tree of a slot. -/
def toJson : Slot → Json
  | int64 v => tagged "int64" (.ofInt v.toInt)
  | double v => tagged "double" v.toJson
  | numeric v => tagged "numeric" v.toJson
  | string v => tagged "string" (.ofString v)
  | guid v => tagged "guid" v.toJson
  | time v => tagged "time" v.toJson
  | frame f => tagged "frame" (.ofMembers [("slots", .object (membersOf f))])

/-- The members that hold the slots of a frame. -/
def membersOf : Frame → List (Option String × Json)
  | .empty => []
  | .cons name slot rest => (some name, slot.toJson) :: membersOf rest

end

/-- The text form of a slot. -/
def text (s : Slot) : String := s.toJson.text

end Slot

namespace Frame

/-- The tree of a frame. -/
def toJson (f : Frame) : Json := .ofMembers [("slots", .object (Slot.membersOf f))]

end Frame

/-! ### Reading -/

namespace Slot

/-- Whether a record gives the value before the type. -/
def valueFirst : Json → Bool
  | .object members =>
    match members.find? fun m => m.1 == some "type" || m.1 == some "value" with
    | some m => m.1 == some "value"
    | none => false
  | _ => false

/-- Adds the decoded slots of a list of members to a frame; of slots with the
    same name the last one stays. -/
def collect (decode : Json → Option Slot) : List (Option String × Json) → Frame → Option Frame
  | [], f => some f
  | (name, j) :: rest, f =>
    match name, decode j with
    | some name, some slot => collect decode rest (f.insert name slot)
    | _, _ => none

/-- The names of the types in their order. -/
def typeNames : List String := ["int64", "double", "numeric", "string", "guid", "time", "frame"]

/-- The name that a record gives its type: in an array it stands plainly, in an
    object as an alternative without content. -/
def typeName? (room : Nat) (buffered : Bool) (record type : Json) : Option String :=
  match record with
  | .array _ => type.plainName? typeNames buffered
  | _ => type.unitName? room buffered

mutual

/-- The slot of a tree. `room` bounds the nesting; `buffered` says that the tree
    was held back before. -/
def ofJson? : (room : Nat) → (buffered : Bool) → Json → Option Slot
  | 0, _, _ => none
  | room + 1, buffered, j =>
    match j.record? ["type", "value"] with
    | some [some type, some value] =>
      if valueFirst j && !Json.isBufferable room value then none
      else
        let held := buffered || valueFirst j
        match typeName? room buffered j type with
        | some "int64" => value.int64?.map int64
        | some "double" => value.double?.map double
        | some "numeric" => (Numeric.ofJson? room value).map numeric
        | some "string" => value.string?.map string
        | some "guid" => (Guid.ofJson? value).map guid
        | some "time" => (Timestamp.ofJson? value).map time
        | some "frame" => (frameOfJson? room held value).map frame
        | _ => none
    | _ => none

/-- The frame of a tree; the record and the object in it both take room. -/
def frameOfJson? : (room : Nat) → (buffered : Bool) → Json → Option Frame
  | 0, _, _ => none
  | 1, _, _ => none
  | room + 2, buffered, j =>
    match j.record? ["slots"] with
    | some [some (.object members)] => collect (ofJson? room buffered) members .empty
    | _ => none

end

/-- The slot of a text. -/
def parse (s : String) : Except ValueError Slot :=
  match (Json.parse? s).bind (ofJson? Json.maxDepth false) with
  | some slot => .ok slot
  | none => .error .badEncoding

end Slot

namespace Frame

/-- The frame of a tree. -/
def ofJson? (j : Json) : Option Frame := Slot.frameOfJson? Json.maxDepth false j

end Frame

end EntityBook
