import EntityBook.Proofs.Run.Step

/-! # Runs

  What a program does to a book is a sequence of calls, each of which takes the
  book to the next one whether it succeeds or fails. `Call` lists the operations
  of the library; a book is reachable when calls lead to it from a blank one.
-/

namespace EntityBook

variable {P : PayloadFamily}

/-- A change that a caller makes to an instance it is given for an edit.

    `touches` stands for what the private fields of an instance allow: a caller cannot reach
    the entity, the owner, the level, the request for removal or the type of the payload, and
    whatever else it changes marks the instance. Left out is a caller that holds instances of
    two books at once, in nested edits, and exchanges them as a whole. -/
structure Mutation (P : PayloadFamily) where
  /-- The instance afterwards. -/
  apply : Instance P → Instance P
  touches : ∀ i : Instance P, i.Touches (apply i)

/-- A call to a book. -/
inductive Call (P : PayloadFamily) where
  | create (tag : TypeTag) (guid : Guid)
  | delete (e : Entity)
  | beginEdit (e : Entity)
  | commitEdit (e : Entity)
  | edit (e : Entity) (change : Mutation P)
  | write (e : Entity) (name : String) (v : ParamValue)
  | writeText (e : Entity) (name s : String)
  | modify (e : Entity) (name s : String)
  | link (r : ReferenceRecord P)
  | pushPending (rs : List (ReferenceRecord P))
  | takePending
  | resolvePending
  | startOperation (label : String)
  | endOperation
  | recordCreate (e : Entity)
  | recordDelete (e : Entity)
  | recordBefore (e : Entity) (name : String)
  | recordAfter (e : Entity) (name : String)
  | undo
  | redo
  | clearUndo
  | copyEntity (source : Instance P)
  | copyList (sources : List (Instance P))
  | copyCollection (sources : List (Instance P))
  | copyRecursive (source : Book P) (e : Entity)
  | copyCollectionRecursive (source : Book P) (tag : TypeTag)
  | subscribe
  | unsubscribe (id : HandlerId)
  | suspend
  | resume
  | setBackend (backend : Backend P)
  | markClean
  | register (c : ObjectClass P) (unique : c.WellFormed)

/-- Calls that keep the backend. -/
def Call.keepsBackend : Call P → Bool
  | .setBackend _ => false
  | _ => true

/-- Calls of several steps, which hold their events back until they are done. -/
def Call.holdsEvents : Call P → Bool
  | .undo | .redo | .copyEntity _ | .copyList _ | .copyCollection _ | .copyRecursive _ _
    | .copyCollectionRecursive _ _ => true
  | _ => false

/-- Calls that make, change and remove entities, or keep the log and the waiting
    references, and tell subscribers of each change at once. -/
def Call.isAct : Call P → Bool
  | .create _ _ | .delete _ | .edit _ _ | .write _ _ _ | .writeText _ _ _ | .modify _ _ _ | .link _
    | .pushPending _ | .takePending | .resolvePending | .startOperation _ | .endOperation
    | .recordCreate _ | .recordDelete _ | .recordBefore _ _ | .recordAfter _ _ | .clearUndo => true
  | _ => false

/-- Calls that keep the backend and close every edit that they open. -/
def Call.isBalanced : Call P → Bool
  | .beginEdit _ | .commitEdit _ | .setBackend _ => false
  | _ => true

namespace Book

/-! ### Calls and runs -/

/-- The book after a call. -/
def call (b : Book P) : Call P → Book P
  | .create tag guid => (b.create tag guid).2
  | .delete e => (b.delete e).2
  | .beginEdit e => (b.beginEdit e).2
  | .commitEdit e => (b.commitEdit e).2
  | .edit e change => (b.edit e fun i => ((), change.apply i)).2
  | .write e name v => (b.write e name v).2
  | .writeText e name s => (b.writeText e name s).2
  | .modify e name s => (b.modify e name s).2
  | .link r => (b.link r).2
  | .pushPending rs => b.pushPending rs
  | .takePending => b.takePending.2
  | .resolvePending => b.resolvePending.2
  | .startOperation label => b.startOperation label
  | .endOperation => b.endOperation.2
  | .recordCreate e => b.recordCreate e
  | .recordDelete e => (b.recordDelete e).2
  | .recordBefore e name => (b.recordBefore e name).2
  | .recordAfter e name => (b.recordAfter e name).2
  | .undo => b.undoLast.2
  | .redo => b.redoNext.2
  | .clearUndo => b.clearUndo
  | .copyEntity source => (b.copyEntity source).2
  | .copyList sources => (b.copyList sources).2
  | .copyCollection sources => (b.copyCollection sources).2
  | .copyRecursive source e => (b.copyRecursive source e).2
  | .copyCollectionRecursive source tag => (b.copyCollectionRecursive source tag).2
  | .subscribe => b.subscribe.2
  | .unsubscribe id => (b.unsubscribe id).2
  | .suspend => b.suspend
  | .resume => b.resume
  | .setBackend backend => b.setBackend backend
  | .markClean => b.markClean
  | .register c _ =>
    match b.registry.register c with
    | .ok r => { b with registry := r }
    | .error _ => b

/-- The book after a sequence of calls. -/
def run (b : Book P) (calls : List (Call P)) : Book P := calls.foldl call b

/-- A book in which nothing was done yet. -/
def blank (id : Guid) (registry : Registry P) (config : Config) : Book P :=
  { id, registry, config }

/-- The books that calls lead to. -/
inductive Reachable : Book P → Prop where
  | blank (id : Guid) {registry : Registry P} (config : Config) (unique : registry.WellFormed) :
      Reachable (blank id registry config)
  | call {b : Book P} (h : Reachable b) (c : Call P) : Reachable (b.call c)

theorem Reachable.run {b : Book P} (h : b.Reachable) (calls : List (Call P)) :
    (b.run calls).Reachable := by
  induction calls generalizing b with
  | nil => exact h
  | cons c rest ih => exact ih (h.call c)

/-! ### Calls take steps -/

/-- The calls that hold their events back hold them back in every case. -/
theorem Held.call (b : Book P) {c : Call P} (hc : c.holdsEvents = true) : Held b (b.call c) := by
  cases c with
  | undo => exact undoLast b
  | redo => exact redoNext b
  | copyEntity source => exact copyEntity b source
  | copyList sources => exact copyList b sources
  | copyCollection sources => exact copyCollection b sources
  | copyRecursive source e => exact copyRecursive b source e
  | copyCollectionRecursive source tag => exact copyCollectionRecursive b source tag
  | _ => cases hc

theorem Acts.call (b : Book P) {c : Call P} (hc : c.isAct = true) : Acts b (b.call c) := by
  cases c with
  | create tag guid => exact .single (.create b tag guid)
  | delete e => exact delete b e
  | edit e change => exact edit b e change.touches
  | write e name v => exact write b e name v
  | writeText e name s => exact writeText b e name s
  | modify e name s => exact modify b e name s
  | link r => exact link b r
  | pushPending rs => exact .single (.pushPending b rs)
  | takePending => exact .single (.takePending b)
  | resolvePending => exact resolvePending b
  | startOperation label => exact startOperation b label
  | endOperation => exact endOperation b
  | recordCreate e => exact recordCreate b e
  | recordDelete e => exact recordDelete b e
  | recordBefore e name => exact recordBefore b e name
  | recordAfter e name => exact recordAfter b e name
  | clearUndo => exact setUndo b {}
  | _ => cases hc

/-- Registering a class succeeds or does nothing. -/
theorem call_register_cases (b : Book P) {c : ObjectClass P} (unique : c.WellFormed) :
    b.call (.register c unique) = b ∨
      ∃ r, b.registry.register c = .ok r ∧
        b.call (.register c unique) = { b with registry := r } := by
  simp only [call]
  cases b.registry.register c with
  | ok r => exact Or.inr ⟨r, rfl, rfl⟩
  | error err => exact Or.inl rfl

theorem Moves.call (b : Book P) {c : Call P} (hc : c.isBalanced = true) : Moves b (b.call c) := by
  cases hact : c.isAct with
  | true => exact (Acts.call b hact).moves
  | false =>
    cases c with
    | beginEdit | commitEdit | setBackend => cases hc
    | undo | redo | copyEntity | copyList | copyCollection | copyRecursive
    | copyCollectionRecursive => exact (Held.call b rfl).moves
    | subscribe => exact .single (.subscribe b)
    | unsubscribe id => exact .single (.unsubscribe b id)
    | suspend => exact .single (.suspend b)
    | resume => exact .single (.resume b)
    | markClean => exact .single (.markClean b)
    | register c unique =>
      rcases call_register_cases b unique with heq | ⟨r, hr, heq⟩
      · rw [heq]
      · rw [heq]
        exact .single (.register unique hr)
    | _ => cases hact

theorem Steps.call (b : Book P) (c : Call P) : Steps b (b.call c) := by
  cases hc : c.isBalanced with
  | true => exact (Moves.call b hc).steps
  | false =>
    cases c with
    | beginEdit e => exact .single (.beginEdit b e)
    | commitEdit e => exact .single (.commitEdit b e)
    | setBackend backend => exact .single (.setBackend b backend)
    | _ => cases hc

theorem Steps.run (b : Book P) (calls : List (Call P)) : Steps b (b.run calls) := by
  induction calls generalizing b with
  | nil => exact .refl
  | cons c rest ih => exact (call b c).trans (ih (b.call c))

/-- What every step preserves, sequences of steps preserve. -/
theorem Steps.preserves {motive : Book P → Prop} (step : ∀ b b', motive b → Step b b' → motive b')
    {b b' : Book P} (h : Steps b b') (hb : motive b) : motive b' := by
  induction h with
  | refl => exact hb
  | tail _ hstep ih => exact step _ _ ih hstep

/-- What holds of blank books and survives every step holds of reachable books. -/
theorem Reachable.induct {motive : Book P → Prop}
    (start : ∀ id (registry : Registry P) config, registry.WellFormed →
      motive (Book.blank id registry config))
    (step : ∀ b b', motive b → Step b b' → motive b') {b : Book P} (h : b.Reachable) :
    motive b := by
  induction h with
  | blank id config unique => exact start id _ config unique
  | @call b h c ih => exact (Steps.call b c).preserves step ih

end Book

end EntityBook
