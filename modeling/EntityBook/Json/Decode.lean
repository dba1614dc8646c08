import EntityBook.Json.Reader

/-! # Decoding JSON trees

  A record is an object whose members come in any order, or an array of its
  fields in their own order. A known member must not be repeated; an unknown one
  is ignored whatever it holds, but its name has to be a text.

  Decoders carry `room`, the number of nested arrays and objects they may still
  enter. What is ignored takes no room.

  This is what serde derives for records without options of their own, and what
  serde_json adds to it: it refuses the 128th level of nesting. Buffered values are
  those that serde holds back because they stand before the tag of their type.
-/

namespace EntityBook.Json

/-- How deep the arrays and objects of a text may be nested. -/
def maxDepth : Nat := 127

/-! ### Records -/

/-- Looks up a member that must not be repeated: `none` if it is. -/
def member? (name : String) (members : List (Option String × Json)) : Option (Option Json) :=
  match members.filter fun m => m.1 == some name with
  | [] => some none
  | [m] => some (some m.2)
  | _ => none

/-- The fields of a record by position, `none` for one that is missing. The
    whole is `none` for anything that is not a record of these fields. -/
def record? (names : List String) : Json → Option (List (Option Json))
  | .object members =>
    if members.all fun m => m.1.isSome then names.mapM fun name => member? name members
    else none
  | .array items =>
    if items.length ≤ names.length then
      some (items.map some ++ List.replicate (names.length - items.length) none)
    else none
  | _ => none

/-! ### Buffered values -/

mutual

/-- Whether a value can be held back and decoded later: its strings denote
    texts, its numbers are in range and it fits the room. -/
def isBufferable : (room : Nat) → Json → Bool
  | _, .null => true
  | _, .bool _ => true
  | _, .number n => n.double?.isSome
  | _, .string s => s.isSome
  | 0, .array _ => false
  | room + 1, .array items => itemsBufferable room items
  | 0, .object _ => false
  | room + 1, .object members => membersBufferable room members

/-- Whether all items can be held back. -/
def itemsBufferable : (room : Nat) → List Json → Bool
  | _, [] => true
  | room, j :: rest => isBufferable room j && itemsBufferable room rest

/-- Whether all members and their names can be held back. -/
def membersBufferable : (room : Nat) → List (Option String × Json) → Bool
  | _, [] => true
  | room, (name, j) :: rest =>
    name.isSome && isBufferable room j && membersBufferable room rest

end

/-! ### Names of alternatives -/

/-- The empty value behind the name of an alternative without content. A value
    that was held back may also be an empty object. -/
def isUnit (buffered : Bool) : Json → Bool
  | .null => true
  | .object [] => buffered
  | _ => false

/-- The name of an alternative without content: a string, or an object with
    that name as its only member and nothing behind it. -/
def unitName? (room : Nat) (buffered : Bool) : Json → Option String
  | .string s => s
  | .object [(some name, j)] => if 0 < room && isUnit buffered j then some name else none
  | _ => none

/-- The name of an alternative where only a plain name may stand: a string or, in
    a value that was held back, its place among the names. -/
def plainName? (names : List String) (buffered : Bool) : Json → Option String
  | .string s => s
  | .number n =>
    match buffered, n.integer? with
    | true, some (.ofNat i) => names[i]?
    | _, _ => none
  | _ => none

end EntityBook.Json
