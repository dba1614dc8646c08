import EntityBook.Error

/-! # Outcomes of copies

  Why an entity was not copied, and what a call that copies many came to. No
  failure ends such a call.
-/

namespace EntityBook

/-- The causes for which an entity is not copied. -/
inductive CopyError where
  /-- The destination holds the entity already. -/
  | alreadyPresent (entity : Entity)
  /-- Entities of the type cannot be copied. -/
  | notCompliant (typeTag : TypeTag) (reason : String)
  /-- The entity could not be made in the destination. -/
  | construct (entity : Entity) (cause : StoreError)
  /-- The destination's backend refused a commit. The entity is there all the
      same, and its references wait. -/
  | rejected (entity : Entity) (cause : StoreError)
  /-- The source does not hold the entity. -/
  | missing (entity : Entity)
  /-- A failure of a book. -/
  | store (cause : StoreError)
  deriving DecidableEq, Repr

namespace CopyError

/-- The wording of an error. -/
def message : CopyError → String
  | alreadyPresent e => "entity already present in destination: " ++ e.text
  | notCompliant tag reason => "entity type " ++ tag ++ " is not copyable: " ++ reason
  | construct e cause => "could not construct " ++ e.text ++ " in destination: " ++ cause.message
  | rejected e cause => "destination rejected " ++ e.text ++ ": " ++ cause.message
  | missing e => "entity not found in source: " ++ e.text
  | store cause => cause.message

end CopyError

/-- What became of the entities of a call. -/
structure Report where
  /-- The entities made in the destination. -/
  copied : List Entity := []
  /-- The entities that the destination held already. -/
  skipped : List Entity := []
  /-- The entities that could not be copied, and why. -/
  failed : List (Entity × CopyError) := []
  /-- The members of the source collection that the destination held before. -/
  duplicates : Nat := 0
  /-- The references linked at the end of the call. -/
  linked : Nat := 0
  /-- The references that still wait after the call. -/
  unresolved : Nat := 0
  deriving DecidableEq, Repr

namespace Report

/-- Whether something failed, or there were duplicates before. -/
def hadErrors (r : Report) : Bool := !r.failed.isEmpty || 0 < r.duplicates

/-- The number of entities looked at. -/
def total (r : Report) : Nat := r.copied.length + r.skipped.length + r.failed.length

/-- Adds an entity that the destination held already. -/
def skip (r : Report) (e : Entity) : Report := { r with skipped := r.skipped ++ [e] }

/-- Adds an entity by what became of it. -/
def record (r : Report) (e : Entity) : Except CopyError Entity → Report
  | .ok _ => { r with copied := r.copied ++ [e] }
  | .error (.alreadyPresent _) => r.skip e
  | .error err => { r with failed := r.failed ++ [(e, err)] }

end Report

end EntityBook
