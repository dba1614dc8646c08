import EntityBook.Book.Params
import EntityBook.SideTable.Json

/-! # Undo and redo

  A user's step is recorded as an operation: what was created and deleted, and
  the texts of values before and after. Nothing is recorded unless an operation
  is open and the settings allow it.

  Replaying an operation goes in three phases: first the entities that have to
  be there are made, then values are restored, then entities are deleted. So
  every value is restored on a live entity. Replay goes on whatever fails on the
  way, and its events arrive as one batch.
-/

namespace EntityBook.Book

variable {P : PayloadFamily}

/-! ### Seeing values -/

/-- All texts of a parameter: one for each leaf of a side-table, one alone for
    any other parameter. -/
def snapshot (i : Instance P) (p : Param P) :
    Except StoreError (List (Option String × Capture)) :=
  if p.isSlots then
    .ok (i.slots.leaves.map fun (path, slot) => (some path, .value slot.text))
  else
    match i.readText p with
    | .ok s => .ok [(none, .value s)]
    | .error e => .error e

/-- The present text of a parameter or a slot, absent if it cannot be seen. -/
def capture (b : Book P) (e : Entity) (p : Param P) (path : Option String) : Capture :=
  match b.get? e with
  | none => .absent
  | some i =>
    match path with
    | some path =>
      match i.slots.get path with
      | some slot => .value slot.text
      | none => .absent
    | none =>
      match i.readText p with
      | .ok s => .value s
      | .error _ => .absent

/-- Changes of an entity with the snapshots of parameters as their values before,
    and what `after` makes of them as their values after. -/
def snapshots (e : Entity) (i : Instance P) (after : Capture → Capture) :
    List (Param P) → Except StoreError (List (UndoEntry P))
  | [] => .ok []
  | p :: rest =>
    match snapshot i p with
    | .error err => .error err
    | .ok captures =>
      match snapshots e i after rest with
      | .error err => .error err
      | .ok entries =>
        let own := captures.map fun (path, before) =>
          UndoEntry.changed { entity := e, param := p, path, before, after := after before }
        .ok (own ++ entries)

/-! ### Grouping -/

/-- The operation that records, if there is one and the settings allow it. -/
def recording? (b : Book P) : Option (OpenOperation P) :=
  if b.config.undoEnabled then b.undo.recording else none

/-- Replaces the open operation. -/
def setRecording (b : Book P) (o : Option (OpenOperation P)) : Book P :=
  { b with undo := { b.undo with recording := o } }

/-- Opens an operation; one that is open already is dropped. -/
def startOperation (b : Book P) (label : String) : Book P :=
  if b.config.undoEnabled then b.setRecording (some { label }) else b

/-- The entries for slots of a side-table that none of the given entries is about,
    as slots that were absent before. -/
def newSlots (b : Book P) (entries : List (UndoEntry P)) (e : Entity) (p : Param P) :
    List (UndoEntry P) :=
  match b.get? e with
  | none => []
  | some i =>
    let known := UndoLog.pathsIn entries e p.name
    (i.slots.leaves.filter fun (path, _) => !known.contains path).map fun (path, _) =>
      .changed { entity := e, param := p, path := some path, before := .absent }

/-- Adds the new slots of every watched side-table. -/
def addNewSlots (b : Book P) (entries : List (UndoEntry P)) :
    List (Entity × Param P) → List (UndoEntry P)
  | [] => entries
  | (e, p) :: rest => addNewSlots b (entries ++ b.newSlots entries e p) rest

/-- Fills in what was not seen yet, and notes which values did not change. -/
def close (b : Book P) : UndoEntry P → UndoEntry P
  | .changed c =>
    let after := if c.after = .pending then b.capture c.entity c.param c.path else c.after
    .changed { c with after, kept := c.before = after }
  | u => u

/-- Closes the open operation. If anything was recorded, it is appended to the log
    in place of all undone operations, behind the baseline if there is one. -/
def endOperation (b : Book P) : Bool × Book P :=
  match b.undo.recording with
  | none => (false, b)
  | some o =>
    let entries := (b.addNewSlots o.entries o.watched).map b.close
    let b := b.setRecording none
    if entries.isEmpty then (false, b)
    else
      let limit := b.config.undoLimit
      let log := if o.baseline.isEmpty then b.undo
        else b.undo.push ⟨b.config.baselineLabel, o.baseline⟩ limit
      (true, { b with undo := log.push ⟨o.label, entries⟩ limit })

/-! ### Recording -/

/-- Adds entries to the open operation. -/
def addEntries (b : Book P) (o : OpenOperation P) (entries : List (UndoEntry P)) : Book P :=
  b.setRecording (some { o with entries := o.entries ++ entries })

/-- Records that an entity was just created. -/
def recordCreate (b : Book P) (e : Entity) : Book P :=
  match b.recording? with
  | none => b
  | some o => b.addEntries o [.created e]

/-- Records that an entity is about to be deleted, with all its values. -/
def recordDelete (b : Book P) (e : Entity) : Except StoreError Unit × Book P :=
  match b.recording? with
  | none => (.ok (), b)
  | some o =>
    match b.registry.class? e.typeTag with
    | .error err => (.error err, b)
    | .ok c =>
      match b.instance? e with
      | .error err => (.error err, b)
      | .ok i =>
        match snapshots e i (fun _ => .absent) c.copyable with
        | .error err => (.error err, b)
        | .ok entries => (.ok (), b.addEntries o (.deleted e :: entries))

/-- The parameter of an entity under a name, if undo can restore it. -/
def undoableParam (b : Book P) (e : Entity) (name : String) : Except StoreError (Param P) :=
  match b.param? e name with
  | .error err => .error err
  | .ok p => if p.isCopyable then .ok p else .error (.readOnly name)

/-- Before the first change of an entity while no operation is applied, keeps all
    its values in the open operation's baseline. -/
def ensureBaseline (b : Book P) (o : OpenOperation P) (e : Entity) :
    Except StoreError (OpenOperation P) :=
  if 0 < b.undo.cursor || o.baseline.any fun u => u.entity == e then .ok o
  else
    match b.registry.class? e.typeTag with
    | .error err => .error err
    | .ok c =>
      match b.instance? e with
      | .error err => .error err
      | .ok i =>
        match snapshots e i (fun seen => seen) c.copyable with
        | .error err => .error err
        | .ok entries => .ok { o with baseline := o.baseline ++ entries }

/-- Records the value of a parameter before it changes, once in an operation. -/
def recordBefore (b : Book P) (e : Entity) (name : String) : Except StoreError Unit × Book P :=
  match b.recording? with
  | none => (.ok (), b)
  | some o =>
    match b.undoableParam e name with
    | .error err => (.error err, b)
    | .ok p =>
      match b.ensureBaseline o e with
      | .error err => (.error err, b)
      | .ok o =>
        let b := b.setRecording (some o)
        if o.entries.any fun u => u.targets e name then (.ok (), b)
        else
          match b.instance? e with
          | .error err => (.error err, b)
          | .ok i =>
            match snapshots e i (fun _ => .pending) [p] with
            | .error err => (.error err, b)
            | .ok entries =>
              let watched := if p.isSlots then [(e, p)] else []
              (.ok (), b.setRecording (some { o with
                entries := o.entries ++ entries
                watched := o.watched ++ watched }))

/-- Fills in the present value of every entry about a parameter. -/
def refresh (b : Book P) (e : Entity) (p : Param P) (name : String) (u : UndoEntry P) :
    UndoEntry P :=
  match u with
  | .changed c =>
    if u.targets e name then .changed { c with after := b.capture e p c.path } else u
  | _ => u

/-- The entries for a parameter whose value before was not recorded in this
    operation: it is the latest one that the applied operations saw. -/
def unannounced (b : Book P) (e : Entity) (p : Param P) (name : String)
    (current : List (Option String × Capture)) : List (UndoEntry P) :=
  let known := if p.isSlots then b.undo.knownPaths e name else []
  let paths := (current.filterMap (·.1) ++ known).foldl (fun ps path => UndoLog.insertPath path ps) []
  let scalar := if current.any fun c => c.1.isNone then [none] else []
  (scalar ++ paths.map some).map fun path =>
    .changed
      { entity := e
        param := p
        path
        before := (b.undo.lastKnown e name path).getD .absent
        after := b.capture e p path }

/-- Records the value of a parameter after it changed. -/
def recordAfter (b : Book P) (e : Entity) (name : String) : Except StoreError Unit × Book P :=
  match b.recording? with
  | none => (.ok (), b)
  | some o =>
    match b.undoableParam e name with
    | .error err => (.error err, b)
    | .ok p =>
      match b.ensureBaseline o e with
      | .error err => (.error err, b)
      | .ok o =>
        let b := b.setRecording (some o)
        if o.entries.any fun u => u.targets e name then
          let isOwn := fun (w : Entity × Param P) => w.1 == e && w.2.name == name
          let new := match o.watched.find? isOwn with
            | some (e, p) => b.newSlots o.entries e p
            | none => []
          let o := { o with
            entries := (o.entries ++ new).map (b.refresh e p name)
            watched := o.watched.eraseP isOwn }
          (.ok (), b.setRecording (some o))
        else
          match b.instance? e with
          | .error err => (.error err, b)
          | .ok i =>
            match snapshot i p with
            | .error err => (.error err, b)
            | .ok current => (.ok (), b.addEntries o (b.unannounced e p name current))

/-- Writes a parameter from a text, with its values before and after recorded. -/
def modify (b : Book P) (e : Entity) (name : String) (s : String) :
    Except StoreError Unit × Book P :=
  match b.recordBefore e name with
  | (.error err, b) => (.error err, b)
  | (.ok _, b) =>
    match b.writeText e name s with
    | (.error err, b) => (.error err, b)
    | (.ok _, b) => b.recordAfter e name

/-! ### Replay -/

/-- Which way an operation is replayed. -/
inductive Direction where
  /-- Back to the state before it. -/
  | undo
  /-- Again to the state after it. -/
  | redo
  deriving DecidableEq, Repr

/-- Gives a parameter or a slot the value of a capture. -/
def restore (b : Book P) (c : Change P) (capture : Capture) : Book P :=
  if !b.contains c.entity then b
  else
    match c.path, capture with
    | _, .pending => b
    | none, .absent => b
    | none, .value s => (b.tryEdit c.entity fun i => i.writeText c.param s).2
    | some path, .absent =>
      (b.edit c.entity fun i => ((), i.withSlots (i.slots.delete path).2)).2
    | some path, .value s =>
      match Slot.parse s with
      | .error _ => b
      | .ok slot =>
        (b.edit c.entity fun i =>
          match i.slots.set path slot with
          | .ok (_, slots) => ((), i.withSlots slots)
          | .error _ => ((), i.withSlots i.slots)).2

/-- Makes an entity that has to be there. -/
def instantiate (b : Book P) (e : Entity) : Book P :=
  if b.contains e then b else (b.create e.typeTag e.guid).2

/-- Deletes an entity that must not be there. -/
def destroy (b : Book P) (e : Entity) : Book P :=
  if b.contains e then (b.delete e).2 else b

/-- The entities of the entries with a given action, in order. -/
def entitiesOf (entries : List (UndoEntry P)) (action : UndoAction) : List Entity :=
  (entries.filter fun u => u.action == action).map UndoEntry.entity

/-- The changes whose values have to be restored, in the order of replay. -/
def changesOf (entries : List (UndoEntry P)) (d : Direction) : List (Change P) :=
  let changes := (entries.filter fun u => u.action == .modify).filterMap UndoEntry.change?
  match d with
  | .undo => changes.reverse
  | .redo => changes

/-- Replays the entries of an operation. -/
def replay (b : Book P) (entries : List (UndoEntry P)) (d : Direction) : Book P :=
  let (made, removed) := match d with
    | .undo => (UndoAction.create, UndoAction.delete)
    | .redo => (UndoAction.delete, UndoAction.create)
  let target := fun (c : Change P) => match d with
    | .undo => c.before
    | .redo => c.after
  let b := b.suspend
  let b := (entitiesOf entries made).foldl instantiate b
  let b := (changesOf entries d).foldl (fun b c => b.restore c (target c)) b
  let b := (entitiesOf entries removed).foldl destroy b
  b.resume

/-- Moves the cursor and drops the open operation. -/
def setCursor (b : Book P) (n : Nat) : Book P :=
  { b with undo := { b.undo with cursor := n } }

/-- Takes the last applied operation back; answers whether there was one. -/
def undoLast (b : Book P) : Bool × Book P :=
  match b.undo.lastApplied? with
  | none => (false, b)
  | some op =>
    let b := (b.setRecording none).setCursor (b.undo.cursor - 1)
    (true, b.replay op.entries .undo)

/-- Applies the next undone operation again; answers whether there was one. -/
def redoNext (b : Book P) : Bool × Book P :=
  match b.undo.nextUndone? with
  | none => (false, b)
  | some op =>
    let b := (b.setRecording none).replay op.entries .redo
    (true, b.setCursor (b.undo.cursor + 1))

/-- The label of the operation that undo would take back. -/
def undoLabel (b : Book P) : Option String := b.undo.lastApplied?.map UndoOperation.label

/-- The label of the operation that redo would apply. -/
def redoLabel (b : Book P) : Option String := b.undo.nextUndone?.map UndoOperation.label

/-- Forgets all operations and what is being recorded. -/
def clearUndo (b : Book P) : Book P := { b with undo := {} }

end EntityBook.Book
