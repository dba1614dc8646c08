import EntityBook.Backend
import EntityBook.Class.Registry
import EntityBook.Config
import EntityBook.Event
import EntityBook.OrderedMap
import EntityBook.Undo.Log

/-! # Books

  A book owns the live instances of all types, the log of what can be undone and
  the references that still wait for their targets. It resolves types against a
  registry, raises an event for every change and asks its backend about every
  commit.

  An operation answers its result together with the book it leaves, because a
  failed operation may have changed the book: a refused commit leaves the values
  that were written.
-/

namespace EntityBook

/-! ### State -/

/-- A reference that waits for its target. -/
structure ReferenceRecord (P : PayloadFamily) where
  /-- The entity that owns the parameter. -/
  source : Entity
  /-- The parameter to point at the target. -/
  param : Param P
  /-- The entity to point at. -/
  target : Entity

/-- A container of live instances. -/
structure Book (P : PayloadFamily) where
  /-- The identifier that its instances carry. -/
  id : Guid
  /-- The known classes. -/
  registry : Registry P
  /-- The settings. -/
  config : Config := {}
  /-- The live instances, by type and identifier. -/
  instances : OrderedMap Entity (Instance P) := .empty
  /-- The types that had an instance at some time, in increasing order. -/
  opened : List TypeTag := []
  /-- Who decides about commits. -/
  backend : Backend P := .accepting
  /-- The calls that the backend received, latest last. -/
  calls : List (BackendCall P) := []
  /-- The handlers of change events. -/
  bus : EventBus := {}
  /-- What can be undone. -/
  undo : UndoLog P := {}
  /-- The references that wait for their targets, oldest first. -/
  pending : List (ReferenceRecord P) := []
  /-- Whether anything changed since the book was last marked clean. -/
  dirty : Bool := false

namespace Book

variable {P : PayloadFamily}

/-! ### Looking up -/

/-- The live instance of an entity. -/
def get? (b : Book P) (e : Entity) : Option (Instance P) := b.instances.find? e

/-- Whether an entity is live. -/
def contains (b : Book P) (e : Entity) : Bool := (b.get? e).isSome

/-- The live instance of an entity that has to be there. -/
def instance? (b : Book P) (e : Entity) : Except StoreError (Instance P) :=
  match b.get? e with
  | some i => .ok i
  | none => .error (.entityNotFound e)

/-- The number of live instances. -/
def count (b : Book P) : Nat := b.instances.size

/-- The live instances of a type in the order of their identifiers, if there ever
    were any. -/
def collection? (b : Book P) (tag : TypeTag) : Option (List (Instance P)) :=
  if b.opened.contains tag then
    some ((b.instances.entries.filter fun e => e.1.typeTag == tag).map (·.2))
  else none

/-- The collections in the order of their types. -/
def collections (b : Book P) : List (List (Instance P)) := b.opened.filterMap b.collection?

/-! ### Small changes -/

/-- Puts an instance under an entity. -/
def put (b : Book P) (e : Entity) (i : Instance P) : Book P :=
  { b with instances := b.instances.insert e i }

/-- Removes the instance of an entity. -/
def remove (b : Book P) (e : Entity) : Book P := { b with instances := b.instances.erase e }

/-- Raises an event. -/
def emit (b : Book P) (ev : ChangeEvent) : Book P := { b with bus := b.bus.emit ev }

/-- Remembers a call to the backend. -/
def hear (b : Book P) (c : BackendCall P) : Book P := { b with calls := b.calls ++ [c] }

/-- Notes that something changed. -/
def markDirty (b : Book P) : Book P := { b with dirty := true }

/-- Forgets that anything changed. -/
def markClean (b : Book P) : Book P := { b with dirty := false }

/-- Replaces the backend; the new one has heard nothing yet. -/
def setBackend (b : Book P) (backend : Backend P) : Book P :=
  { b with backend := backend, calls := [] }

/-- Holds events back until the matching resume. -/
def suspend (b : Book P) : Book P := { b with bus := b.bus.suspend }

/-- Undoes one suspend. -/
def resume (b : Book P) : Book P := { b with bus := b.bus.resume }

/-- Subscribes a handler; answers its number. -/
def subscribe (b : Book P) : HandlerId × Book P :=
  let (id, bus) := b.bus.subscribe
  (id, { b with bus := bus })

/-- Removes a handler; answers whether it was subscribed. -/
def unsubscribe (b : Book P) (id : HandlerId) : Bool × Book P :=
  let (found, bus) := b.bus.unsubscribe id
  (found, { b with bus := bus })

@[simp] theorem get?_put_self (b : Book P) (e : Entity) (i : Instance P) :
    (b.put e i).get? e = some i := OrderedMap.find?_insert_self ..

theorem get?_put_of_ne (b : Book P) {e e' : Entity} (h : e' ≠ e) (i : Instance P) :
    (b.put e i).get? e' = b.get? e' := OrderedMap.find?_insert_of_ne _ h _

@[simp] theorem get?_remove_self (b : Book P) (e : Entity) :
    (b.remove e).get? e = none := OrderedMap.find?_erase_self ..

theorem get?_remove_of_ne (b : Book P) {e e' : Entity} (h : e' ≠ e) :
    (b.remove e).get? e' = b.get? e' := OrderedMap.find?_erase_of_ne _ h

@[simp] theorem get?_emit (b : Book P) (ev : ChangeEvent) (e : Entity) :
    (b.emit ev).get? e = b.get? e := rfl

@[simp] theorem get?_markDirty (b : Book P) (e : Entity) :
    b.markDirty.get? e = b.get? e := rfl

/-! ### Creation -/

/-- Puts a type into a sorted list, once. -/
def insertTag (tag : TypeTag) : List TypeTag → List TypeTag
  | [] => [tag]
  | t :: rest =>
    if t = tag then t :: rest
    else if tag < t then tag :: t :: rest
    else t :: insertTag tag rest

/-- Adds an instance to the collection of its type, unless its entity is taken there. -/
def insert? (b : Book P) (i : Instance P) : Option (Book P) :=
  if b.contains i.entity then none else some (b.put i.entity i)

/-- Makes an entity of a type with a given identifier. -/
def create (b : Book P) (tag : TypeTag) (guid : Guid) : Except StoreError Entity × Book P :=
  if guid.isNull then (.error .nullGuid, b)
  else
    match b.registry.class? tag with
    | .error e => (.error e, b)
    | .ok c =>
      let e : Entity := ⟨c.typeTag, guid⟩
      if b.contains e then (.error (.alreadyPresent e), b)
      else
        match c.initialPayload? with
        | none => (.error (.noConstructor tag), b)
        | some payload =>
          let i : Instance P := { entity := e, owner := b.id, payload }
          let b := { b with opened := insertTag c.typeTag b.opened }
          match b.insert? i with
          | none => (.error (.alreadyPresent e), b)
          | some b => (.ok e, (b.markDirty).emit (.created e))

/-! ### Edits -/

/-- Opens an edit; answers how many are open now. The backend hears of the first
    one only. -/
def beginEdit (b : Book P) (e : Entity) : Except StoreError Nat × Book P :=
  match b.get? e with
  | none => (.error (.entityNotFound e), b)
  | some i =>
    let i := i.enter
    let b := b.put e i
    (.ok i.level, if i.level = 1 then b.hear (.begin i) else b)

/-- Closes the last open edit of an instance: hands it to the backend and tells of
    the change, if there was one. What was refused stays dirty. -/
def settle (b : Book P) (e : Entity) (i : Instance P) : Except StoreError Unit × Book P :=
  let refusal := b.backend.refusal b.calls i
  let b := b.hear (.commit i refusal.isNone)
  let b := if refusal.isNone then b.put e i.markClean else b
  let b := if i.dirty then (b.markDirty).emit (.modified e) else b
  match refusal with
  | none => (.ok (), b)
  | some reason => (.error (.rejected reason), b)

/-- Closes an edit. When none is left open, the instance is removed if that was
    asked for, otherwise it is settled. -/
def commitEdit (b : Book P) (e : Entity) : Except StoreError Unit × Book P :=
  match b.get? e with
  | none => (.error (.entityNotFound e), b)
  | some i =>
    match i.leave? with
    | none => (.error (.notEditing e), b)
    | some i =>
      let b := b.put e i
      if 0 < i.level then (.ok (), b)
      else if i.deleting then (.ok (), ((b.remove e).markDirty).emit (.destroyed e))
      else b.settle e i

/-- What an edit came to. -/
inductive EditOutcome (α : Type) where
  /-- The entity is not live, so nothing was done. -/
  | missing (entity : Entity)
  /-- The change was made; its result, and the verdict on the commit. -/
  | done (result : α) (verdict : Except StoreError Unit)

namespace EditOutcome

variable {α : Type}

/-- Whether the edit itself went through. -/
def verdict : EditOutcome α → Except StoreError Unit
  | missing e => .error (.entityNotFound e)
  | done _ v => v

/-- The result of the change, if it was made. -/
def result? : EditOutcome α → Option α
  | missing _ => none
  | done a _ => some a

/-- The result of a change that can fail: an error of the edit comes first. -/
def join : EditOutcome (Except StoreError α) → Except StoreError α
  | missing e => .error (.entityNotFound e)
  | done _ (.error err) => .error err
  | done r (.ok _) => r

end EditOutcome

/-- Changes an instance inside one edit. -/
def edit {α : Type} (b : Book P) (e : Entity) (change : Instance P → α × Instance P) :
    EditOutcome α × Book P :=
  match b.get? e with
  | none => (.missing e, b)
  | some i =>
    let b := (b.beginEdit e).2
    let (a, i) := change i.enter
    let (verdict, b) := (b.put e i).commitEdit e
    (.done a verdict, b)

/-- A change that can fail, as one that then leaves the instance as it was. -/
def attempt {α : Type} (change : Instance P → Except StoreError (α × Instance P))
    (i : Instance P) : Except StoreError α × Instance P :=
  match change i with
  | .ok (a, i) => (.ok a, i)
  | .error err => (.error err, i)

/-- Tries to change an instance inside one edit; a failed change leaves it as it
    was. -/
def tryEdit (b : Book P) (e : Entity)
    (change : Instance P → Except StoreError (Instance P)) : Except StoreError Unit × Book P :=
  let (outcome, b) := b.edit e (attempt fun i => (change i).map fun i => ((), i))
  (outcome.join, b)

/-- Asks for the removal of an entity: at once if no edit is open, otherwise when
    the last one closes. -/
def delete (b : Book P) (e : Entity) : Except StoreError Unit × Book P :=
  let (outcome, b) := b.edit e fun i => ((), i.markDeleting)
  (outcome.verdict, b)

/-! ### Diagnostics -/

/-- How diagnostics show a book. -/
def debug (b : Book P) : String :=
  Text.showRecord "Book" [("id", b.id.debug), ("entities", Text.natText b.count),
    ("pending_references", Text.natText b.pending.length),
    ("dirty", Text.showBool b.dirty)]

end Book

/-- How diagnostics show a record. -/
def ReferenceRecord.debug {P : PayloadFamily} (r : ReferenceRecord P) : String :=
  "ReferenceRecord(" ++ r.source.debug ++ "." ++ r.param.name ++ " -> " ++ r.target.debug ++ ")"

end EntityBook
