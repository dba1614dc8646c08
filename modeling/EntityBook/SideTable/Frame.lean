import EntityBook.Calendar.Timestamp
import EntityBook.Double.Basic
import EntityBook.Value.Guid
import EntityBook.Value.Numeric

/-! # Side-tables

  Every instance carries a side-table: a tree of named slots. A slot holds a
  value or a frame of further slots, and is addressed by a path of names.

  A frame lists its slots by name in increasing order. `insert` and `erase` keep
  that order; `find` does not depend on it.
-/

namespace EntityBook

mutual

/-- What a slot holds. -/
inductive Slot where
  /-- A 64-bit integer. -/
  | int64 (value : Int64)
  /-- A binary floating-point number. -/
  | double (value : Double)
  /-- An exact rational. -/
  | numeric (value : Numeric)
  /-- A text. -/
  | string (value : String)
  /-- An identifier. -/
  | guid (value : Guid)
  /-- An instant. -/
  | time (value : Timestamp)
  /-- Further slots. -/
  | frame (slots : Frame)

/-- Named slots. -/
inductive Frame where
  /-- No slot. -/
  | empty
  /-- A slot, and those with greater names. -/
  | cons (name : String) (slot : Slot) (rest : Frame)

end

deriving instance DecidableEq for Slot, Frame

namespace Slot

/-- The name of what a slot holds. -/
def kindName : Slot → String
  | int64 _ => "gint64"
  | double _ => "double"
  | numeric _ => "numeric"
  | string _ => "string"
  | guid _ => "guid"
  | time _ => "time"
  | frame _ => "frame"

/-- The frame of a slot, empty if it holds a value. -/
def inner : Slot → Frame
  | frame f => f
  | _ => .empty

end Slot

namespace Frame

instance : Inhabited Frame := ⟨empty⟩

/-! ### Slots of one frame -/

/-- The slots of a frame in order. -/
def toList : Frame → List (String × Slot)
  | empty => []
  | cons name slot rest => (name, slot) :: rest.toList

/-- The number of slots of a frame, those of inner frames not counted. -/
def size : Frame → Nat
  | empty => 0
  | cons _ _ rest => rest.size + 1

/-- A frame without slots. -/
def isEmpty : Frame → Bool
  | empty => true
  | cons _ _ _ => false

/-- The slot with a given name. -/
def find (name : String) : Frame → Option Slot
  | empty => none
  | cons n slot rest => if n = name then some slot else rest.find name

/-- Puts a slot under a name, in place of the one that was there. -/
def insert (name : String) (slot : Slot) : Frame → Frame
  | empty => cons name slot empty
  | cons n s rest =>
    if n = name then cons name slot rest
    else if name < n then cons name slot (cons n s rest)
    else cons n s (rest.insert name slot)

/-- Removes the slot with a given name. -/
def erase (name : String) : Frame → Frame
  | empty => empty
  | cons n s rest => if n = name then rest.erase name else cons n s (rest.erase name)

@[simp] theorem find_empty (name : String) : find name empty = none := rfl

@[simp] theorem find_insert_self (name : String) (slot : Slot) (f : Frame) :
    (f.insert name slot).find name = some slot := by
  match f with
  | empty => simp [insert, find]
  | cons n s rest =>
    have ih := find_insert_self name slot rest
    by_cases h : n = name
    · simp [insert, find, h]
    · by_cases hlt : name < n
      · simp [insert, find, h, hlt]
      · simp [insert, find, h, hlt, ih]

theorem find_insert_of_ne {name other : String} (h : other ≠ name) (slot : Slot) (f : Frame) :
    (f.insert name slot).find other = f.find other := by
  match f with
  | empty => simp [insert, find, Ne.symm h]
  | cons n s rest =>
    have ih := find_insert_of_ne h slot rest
    by_cases hn : n = name
    · subst hn
      simp [insert, find, Ne.symm h]
    · by_cases hlt : name < n
      · simp [insert, find, hn, hlt, Ne.symm h]
      · simp [insert, find, hn, hlt, ih]

@[simp] theorem find_erase_self (name : String) (f : Frame) :
    (f.erase name).find name = none := by
  match f with
  | empty => rfl
  | cons n s rest =>
    have ih := find_erase_self name rest
    by_cases h : n = name
    · simp [erase, h, ih]
    · simp [erase, find, h, ih]

theorem find_erase_of_ne {name other : String} (h : other ≠ name) (f : Frame) :
    (f.erase name).find other = f.find other := by
  match f with
  | empty => rfl
  | cons n s rest =>
    have ih := find_erase_of_ne h rest
    by_cases hn : n = name
    · subst hn
      simp [erase, find, Ne.symm h, ih]
    · simp [erase, find, hn, ih]

/-! ### Paths -/

/-- The names of a path; separators at either end and doubled ones count
    nothing. -/
def names (path : String) : List String :=
  ((path.toList.splitOn '/').filter fun cs => !cs.isEmpty).map String.ofList

/-- The slot at the end of a list of names. -/
def getAt : List String → Frame → Option Slot
  | [], _ => none
  | [name], f => f.find name
  | name :: rest, f =>
    match f.find name with
    | some (.frame g) => g.getAt rest
    | _ => none

/-- Puts a slot at the end of a list of names. Frames are made on the way, also
    in place of values. -/
def setAt (slot : Slot) : List String → Frame → Frame
  | [], f => f
  | [name], f => f.insert name slot
  | name :: rest, f =>
    let g := match f.find name with
      | some s => s.inner
      | none => empty
    f.insert name (.frame (g.setAt slot rest))

/-- Removes the slot at the end of a list of names. Every frame on the way that
    is empty afterwards goes too. -/
def deleteAt : List String → Frame → Frame
  | [], f => f
  | [name], f => f.erase name
  | name :: rest, f =>
    match f.find name with
    | some (.frame g) =>
      let g := g.deleteAt rest
      if g.isEmpty then f.erase name else f.insert name (.frame g)
    | _ => f

/-- Reads the slot at a path. -/
def get (path : String) (f : Frame) : Option Slot := f.getAt (names path)

/-- Writes the slot at a path; answers the slot that was there. -/
def set (path : String) (slot : Slot) (f : Frame) : Except ValueError (Option Slot × Frame) :=
  match names path with
  | [] => .error (.emptyPath path)
  | ns => .ok (f.getAt ns, f.setAt slot ns)

/-- Deletes the slot at a path; answers the slot that was there. -/
def delete (path : String) (f : Frame) : Option Slot × Frame :=
  (f.get path, f.deleteAt (names path))

/-! ### Leaves -/

/-- The path of a slot below a base path. -/
def joinPath (base name : String) : String :=
  if base.isEmpty then name else base ++ "/" ++ name

mutual

/-- The leaves of a slot at a path: the slot itself if it holds a value or an
    empty frame, otherwise the leaves of its frame. -/
def slotLeaves (path : String) : Slot → List (String × Slot)
  | .frame empty => [(path, .frame empty)]
  | .frame (cons name slot rest) => leavesBelow path (cons name slot rest)
  | slot => [(path, slot)]

/-- The leaves of a frame whose own path is `base`, depth first. -/
def leavesBelow (base : String) : Frame → List (String × Slot)
  | empty => []
  | cons name slot rest => slotLeaves (joinPath base name) slot ++ leavesBelow base rest

end

/-- Every slot of the tree that holds a value or an empty frame, with its path,
    depth first and by name. -/
def leaves (f : Frame) : List (String × Slot) := leavesBelow "" f

/-- A summary that shows nothing of the contents. -/
def summary (f : Frame) : String := "frame (" ++ Text.natText f.size ++ " children)"

end Frame

end EntityBook
