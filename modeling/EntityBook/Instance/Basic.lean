import EntityBook.Payload.Basic
import EntityBook.SideTable.Frame
import EntityBook.Value.Entity

/-! # Instances

  An instance is a live entity in a book: its side-table, its payload, and how
  deep it is being edited. The payload is of a type of the user's choice, which
  this library only reaches through accessors.
-/

namespace EntityBook

/-- A live entity. -/
structure Instance (P : PayloadFamily) where
  /-- The entity. -/
  entity : Entity
  /-- The book that owns it. -/
  owner : Guid
  /-- The side-table. -/
  slots : Frame := .empty
  /-- The number of open edits. It is not bounded: the overflow of a counter of 32 bits is
      left out. -/
  level : Nat := 0
  /-- Whether it changed since its last accepted commit. -/
  dirty : Bool := false
  /-- Whether it is to be removed when its last edit closes. -/
  deleting : Bool := false
  /-- The payload. -/
  payload : Payload P

namespace Instance

variable {P : PayloadFamily}

/-- Opens an edit. -/
def enter (i : Instance P) : Instance P := { i with level := i.level + 1 }

/-- Closes an edit, if one is open. -/
def leave? (i : Instance P) : Option (Instance P) :=
  match i.level with
  | 0 => none
  | n + 1 => some { i with level := n }

/-- Asks for removal when the last edit closes. -/
def markDeleting (i : Instance P) : Instance P := { i with deleting := true }

/-- Forgets that it changed. -/
def markClean (i : Instance P) : Instance P := { i with dirty := false }

/-- Replaces the side-table, which counts as a change whatever is in it. -/
def withSlots (i : Instance P) (f : Frame) : Instance P := { i with slots := f, dirty := true }

/-- Replaces the payload, which counts as a change. -/
def withPayload (i : Instance P) (p : Payload P) :
    Instance P := { i with payload := p, dirty := true }

end Instance

end EntityBook
