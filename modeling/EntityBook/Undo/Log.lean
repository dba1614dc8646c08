import EntityBook.Class.Accessor
import EntityBook.Value.Entity

/-! # The undo log

  Changes are recorded as captures of single parameters and grouped to labelled
  operations. The operations before the cursor are applied, those behind it are
  undone. A side-table has no single text, so it is captured slot by slot.

  `past` and `future` are the view of the log: undo moves the last operation of
  the one to the front of the other, redo moves it back.
-/

namespace EntityBook

/-! ### Captures -/

/-- What was seen of a parameter or a slot. -/
inductive Capture where
  /-- Not seen yet; filled in when the operation ends. -/
  | pending
  /-- The entity or the slot was not there. -/
  | absent
  /-- The text of the value. -/
  | value (text : String)
  deriving DecidableEq, Repr

/-- What undoing an entry does to its entity. -/
inductive UndoAction where
  /-- Nothing: the value did not change. -/
  | noOp
  /-- Makes the entity again, which was deleted. -/
  | create
  /-- Deletes the entity, which was created. -/
  | delete
  /-- Restores a value. -/
  | modify
  deriving DecidableEq, Repr

/-! ### Entries and operations -/

/-- A value before and after an operation. -/
structure Change (P : PayloadFamily) where
  /-- The entity. -/
  entity : Entity
  /-- The parameter. -/
  param : Param P
  /-- The path of the slot, if the parameter is the side-table. -/
  path : Option String
  /-- The value before. -/
  before : Capture
  /-- The value after. -/
  after : Capture := .pending
  /-- Whether both turned out equal, so that nothing needs to be restored. -/
  kept : Bool := false

/-- One recorded fact. -/
inductive UndoEntry (P : PayloadFamily) where
  /-- The entity was created. -/
  | created (entity : Entity)
  /-- The entity was deleted. -/
  | deleted (entity : Entity)
  /-- A value was changed. -/
  | changed (change : Change P)

namespace UndoEntry

variable {P : PayloadFamily}

/-- The entity of an entry. -/
def entity : UndoEntry P → Entity
  | created e => e
  | deleted e => e
  | changed c => c.entity

/-- What undoing an entry does. -/
def action : UndoEntry P → UndoAction
  | created _ => .delete
  | deleted _ => .create
  | changed c => if c.kept then .noOp else .modify

/-- Whether an entry is about a parameter of an entity. -/
def targets (u : UndoEntry P) (e : Entity) (param : String) : Bool :=
  match u with
  | changed c => c.entity == e && c.param.name == param
  | _ => false

/-- The change of an entry, if it is one. -/
def change? : UndoEntry P → Option (Change P)
  | changed c => some c
  | _ => none

end UndoEntry

/-- A step of the user. -/
structure UndoOperation (P : PayloadFamily) where
  /-- What the user calls it. -/
  label : String
  /-- What happened, in order. -/
  entries : List (UndoEntry P)

/-- An operation that is being recorded. -/
structure OpenOperation (P : PayloadFamily) where
  /-- What the user calls it. -/
  label : String
  /-- What happened so far. -/
  entries : List (UndoEntry P) := []
  /-- The side-tables that may get new slots before the operation ends. -/
  watched : List (Entity × Param P) := []
  /-- The state of entities that are changed when no operation is applied. It
      becomes an operation of its own before this one. -/
  baseline : List (UndoEntry P) := []

/-! ### The log -/

/-- The recorded operations of a book. -/
structure UndoLog (P : PayloadFamily) where
  /-- All operations, oldest first. -/
  operations : List (UndoOperation P) := []
  /-- How many of them are applied. -/
  cursor : Nat := 0
  /-- The operation that is being recorded. -/
  recording : Option (OpenOperation P) := none

namespace UndoLog

variable {P : PayloadFamily}

instance : Inhabited (UndoLog P) := ⟨{}⟩

/-- The applied operations, oldest first. -/
def past (l : UndoLog P) : List (UndoOperation P) := l.operations.take l.cursor

/-- The undone operations, the next to redo first. -/
def future (l : UndoLog P) : List (UndoOperation P) := l.operations.drop l.cursor

/-- Whether there is an operation to undo. -/
def canUndo (l : UndoLog P) : Bool := 0 < l.cursor && !l.operations.isEmpty

/-- Whether there is an operation to redo. -/
def canRedo (l : UndoLog P) : Bool := l.cursor < l.operations.length

/-- The operation that undo would take back. -/
def lastApplied? (l : UndoLog P) : Option (UndoOperation P) :=
  match l.cursor with
  | 0 => none
  | n + 1 => l.operations[n]?

/-- The operation that redo would apply. -/
def nextUndone? (l : UndoLog P) : Option (UndoOperation P) := l.operations[l.cursor]?

/-- Appends an operation in place of the undone ones and keeps the newest. -/
def push (l : UndoLog P) (op : UndoOperation P) (limit : Nat) : UndoLog P :=
  let ops := l.past ++ [op]
  let ops := ops.drop (ops.length - limit)
  { l with operations := ops, cursor := ops.length }

/-- The latest value that the applied operations saw of a parameter or slot. -/
def lastKnown (l : UndoLog P) (e : Entity) (param : String) (path : Option String) :
    Option Capture :=
  let entries := (l.past.flatMap UndoOperation.entries).reverse
  match entries.find? fun u => u.targets e param && (u.change?.map (·.path)) == some path with
  | some (.changed c) => if c.after = .pending then none else some c.after
  | _ => none

/-- Puts a path into a sorted list, once. -/
def insertPath (path : String) : List String → List String
  | [] => [path]
  | p :: rest =>
    if p = path then p :: rest
    else if path < p then path :: p :: rest
    else p :: insertPath path rest

/-- The slot paths that entries hold for a side-table. -/
def pathsIn (entries : List (UndoEntry P)) (e : Entity) (param : String) : List String :=
  (entries.filter fun u => u.targets e param).filterMap fun u => u.change?.bind (·.path)

/-- The slot paths that the applied operations saw of a side-table. -/
def knownPaths (l : UndoLog P) (e : Entity) (param : String) : List String :=
  pathsIn (l.past.flatMap UndoOperation.entries) e param

end UndoLog

/-! ### Diagnostics -/

namespace Capture

/-- How diagnostics show a capture. -/
def debug : Capture → String
  | pending => "Pending"
  | absent => "Absent"
  | value s => "Value(" ++ Text.quote s ++ ")"

end Capture

namespace UndoAction

/-- How diagnostics show an action. -/
def debug : UndoAction → String
  | noOp => "NoOp"
  | create => "Create"
  | delete => "Delete"
  | modify => "Modify"

end UndoAction

namespace UndoEntry

variable {P : PayloadFamily}

/-- The value before, absent for entries about existence. -/
def before : UndoEntry P → Capture
  | changed c => c.before
  | _ => .absent

/-- The value after, absent for entries about existence. -/
def after : UndoEntry P → Capture
  | changed c => c.after
  | _ => .absent

/-- How diagnostics show an entry. -/
def debug (u : UndoEntry P) : String :=
  Text.showRecord "UndoEntity" [("entity", u.entity.debug),
    ("param", Text.showOption (u.change?.map fun c => Text.quote c.param.name)),
    ("kvp_path", Text.showOption ((u.change?.bind (·.path)).map Text.quote)),
    ("before", u.before.debug), ("after", u.after.debug), ("action", u.action.debug)]

end UndoEntry

end EntityBook
