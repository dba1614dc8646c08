import EntityBook.Copy.Report
import EntityBook.Copy.Resolve

/-! # Copies between books

  Entities are copied one by one and keep their identifiers. Values are copied at
  once, references wait until their targets are there. Every call holds the
  destination's events back and resolves the waiting references at its end, so
  that a subscriber sees one batch and no entity half copied.

  A recursive call also copies what the roots refer to, and what that refers to;
  it stops after two hops.
-/

namespace EntityBook.Book

variable {P : PayloadFamily}

/-! ### One entity -/

/-- The class of an entity's type in a book, if entities of it can be copied
    there. -/
def compliantClass (b : Book P) (tag : TypeTag) : Except CopyError (ObjectClass P) :=
  match b.registry.find? tag with
  | none => .error (.notCompliant tag "type not registered")
  | some c =>
    if !c.hasConstructor then .error (.notCompliant tag "no constructor")
    else if c.copyable.isEmpty then .error (.notCompliant tag "no copyable parameters")
    else .ok c

/-- A copy under way: the destination, the references to link later, and the first
    refusal of the backend. -/
structure Progress (P : PayloadFamily) where
  /-- The destination. -/
  book : Book P
  /-- The references to link later. -/
  deferred : List (ReferenceRecord P) := []
  /-- The first refusal. -/
  refusal : Option StoreError := none

/-- Copies one parameter inside an edit. A refused commit leaves the value written
    and the references to be linked. -/
def Progress.step (source : Instance P) (s : Progress P) (p : Param P) : Progress P :=
  let (outcome, b) := s.book.edit source.entity (attempt fun dest => source.copyParam dest p)
  let targets := match outcome.result? with
    | some (.ok (.deferred targets)) => targets
    | _ => []
  let refusal := match outcome.verdict with
    | .ok _ => none
    | .error err => some err
  { book := b
    deferred := s.deferred ++ targets.map fun t => ⟨source.entity, p, t⟩
    refusal := s.refusal <|> refusal }

/-- Copies one entity, its references left waiting. -/
def copyOne (dest : Book P) (source : Instance P) : Except CopyError Entity × Book P :=
  let e := source.entity
  if dest.contains e then (.error (.alreadyPresent e), dest)
  else
    match dest.compliantClass e.typeTag with
    | .error err => (.error err, dest)
    | .ok c =>
      match dest.create e.typeTag e.guid with
      | (.error err, dest) => (.error (.construct e err), dest)
      | (.ok _, dest) =>
        let s := c.copyable.foldl (Progress.step source) { book := dest }
        let dest := s.book.pushPending s.deferred
        match s.refusal with
        | some err => (.error (.rejected e err), dest)
        | none => (.ok e, dest)

/-- Copies an entity. -/
def copyEntity (dest : Book P) (source : Instance P) : Except CopyError Entity × Book P :=
  let (result, dest) := dest.suspend.copyOne source
  let (_, dest) := dest.resolvePending
  (result, dest.resume)

/-! ### Many entities -/

/-- A call under way. -/
structure Batch (P : PayloadFamily) where
  /-- The destination. -/
  book : Book P
  /-- What became of the entities so far. -/
  report : Report := {}

namespace Batch

/-- Copies one instance and reports it. -/
def copy (s : Batch P) (source : Instance P) : Batch P :=
  let (result, b) := s.book.copyOne source
  ⟨b, s.report.record source.entity result⟩

/-- Resolves the waiting references and lets the events go. -/
def finish (s : Batch P) : Report × Book P :=
  let (r, b) := s.book.resolvePending
  ({ s.report with linked := r.linked, unresolved := r.remaining }, b.resume)

end Batch

/-- The number of instances whose entities a book holds already. -/
def countDuplicates (dest : Book P) (sources : List (Instance P)) : Nat :=
  sources.countP fun i => dest.contains i.entity

/-- Copies each instance; those already there are skipped. -/
def copyList (dest : Book P) (sources : List (Instance P)) : Report × Book P :=
  (sources.foldl Batch.copy { book := dest.suspend }).finish

/-- Copies the instances of a collection and counts those that were there before. -/
def copyCollection (dest : Book P) (sources : List (Instance P)) : Report × Book P :=
  let duplicates := dest.countDuplicates sources
  (sources.foldl Batch.copy { book := dest.suspend, report := { duplicates } }).finish

/-! ### Following references -/

/-- The entities that an entity of a book refers to, by parameter and then in the
    order of the parameter. -/
def referencesOf (b : Book P) (e : Entity) : List Entity :=
  match b.get? e, b.registry.find? e.typeTag with
  | some i, some c =>
    c.references.flatMap fun p => match i.references p with
      | .ok targets => targets
      | .error _ => []
  | _, _ => []

/-- The entities of a list that are not among those seen, each once, in order. -/
def unseen (seen : List Entity) : List Entity → List Entity
  | [] => []
  | e :: rest => if seen.contains e then unseen seen rest else e :: unseen (e :: seen) rest

/-- Copies an entity that a reference led to. One that neither book holds is not
    reported. -/
def Batch.follow (source : Book P) (s : Batch P) (e : Entity) : Batch P :=
  if s.book.contains e then { s with report := s.report.skip e }
  else
    match source.get? e with
    | some i => s.copy i
    | none => s

/-- Follows the references of a frontier, hop by hop. -/
def Batch.walk (source : Book P) : (hops : Nat) → (seen frontier : List Entity) →
    Batch P → Batch P
  | 0, _, _, s => s
  | hops + 1, seen, frontier, s =>
    let next := unseen seen (frontier.flatMap source.referencesOf)
    walk source hops (next.reverse ++ seen) next (next.foldl (follow source) s)

/-- How many hops a recursive copy goes. -/
def maxHops : Nat := 2

/-- Copies an entity of a source book and what lies within two hops of it. -/
def copyRecursive (dest source : Book P) (e : Entity) : Report × Book P :=
  let start : Batch P := { book := dest.suspend }
  let s := match source.get? e with
    | some i => start.copy i
    | none => { start with report := start.report.record e (.error (.missing e)) }
  (s.walk source maxHops [e] [e]).finish

/-- Copies a collection of a source book and what lies within two hops of its
    members. Without such a collection nothing happens. -/
def copyCollectionRecursive (dest source : Book P) (tag : TypeTag) : Report × Book P :=
  match source.collection? tag with
  | none => ({}, dest)
  | some sources =>
    let roots := sources.map Instance.entity
    let duplicates := dest.countDuplicates sources
    let s := sources.foldl Batch.copy { book := dest.suspend, report := { duplicates } }
    (s.walk source maxHops roots roots).finish

end EntityBook.Book
