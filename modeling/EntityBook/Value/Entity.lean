import EntityBook.Value.Guid

/-! # Entities

  An entity is named by its type and an identifier, which is unique among the
  entities of that type in a book.
-/

namespace EntityBook

/-- The name of an entity type. -/
abbrev TypeTag := String

/-- The name of an entity: its type and its identifier. -/
structure Entity where
  /-- The type. -/
  typeTag : TypeTag
  /-- The identifier. -/
  guid : Guid
  deriving DecidableEq, Repr

namespace Entity

open Text (trimChars)

instance : Inhabited Entity := ⟨⟨"", .null⟩⟩

/-- Ordered by type, within a type by identifier. -/
instance : LT Entity :=
  ⟨fun a b => a.typeTag < b.typeTag ∨ (a.typeTag = b.typeTag ∧ a.guid < b.guid)⟩

instance (a b : Entity) : Decidable (a < b) :=
  inferInstanceAs (Decidable (_ ∨ (_ ∧ _)))

/-- The order by type, within a type by identifier. -/
protected def compare (a b : Entity) : Ordering :=
  if a < b then .lt else if b < a then .gt else .eq

/-- The text of an entity: type, colon, identifier. -/
def text (e : Entity) : String := e.typeTag ++ ":" ++ e.guid.hex

/-- How diagnostics show an entity. -/
def debug (e : Entity) : String := "Entity(" ++ e.typeTag ++ ":" ++ e.guid.shortHex ++ ")"

/-- How diagnostics show a type. -/
def tagDebug (tag : TypeTag) : String := "TypeTag(" ++ tag ++ ")"

/-- Cuts a text at its last colon. -/
def splitAtLastColon (cs : List Char) : Option (List Char × List Char) :=
  match cs.reverse.span (· ≠ ':') with
  | (after, _ :: before) => some (before.reverse, after.reverse)
  | (_, []) => none

/-- Reads a type that is not empty, a colon and an identifier. The type may hold
    colons itself. -/
def read (cs : List Char) : Except ValueError Entity :=
  match splitAtLastColon (trimChars cs) with
  | some (tag, guid) =>
    if tag.isEmpty then .error (.unreadable "entity" (String.ofList cs))
    else
      match Guid.read guid with
      | .ok guid => .ok ⟨String.ofList tag, guid⟩
      | .error e => .error e
  | none => .error (.unreadable "entity" (String.ofList cs))

/-- Reads the text of an entity. -/
def parse (s : String) : Except ValueError Entity := read s.toList

/-! ### JSON -/

/-- The tree of an entity. -/
def toJson (e : Entity) : Json :=
  .ofMembers [("type_tag", .ofString e.typeTag), ("guid", e.guid.toJson)]

/-- The entity of a tree. -/
def ofJson? (room : Nat) (j : Json) : Option Entity :=
  if room = 0 then none
  else
    match j.record? ["type_tag", "guid"] with
    | some [some tag, some guid] => do some ⟨← tag.string?, ← Guid.ofJson? guid⟩
    | _ => none

end Entity

end EntityBook
