import EntityBook.Book.Basic
import EntityBook.Instance.Access

/-! # Parameters of live entities

  Reading and writing by name. The parameter is looked up first, so that an
  unknown name is reported even of an entity that is not there.
-/

namespace EntityBook.Book

variable {P : PayloadFamily}

/-- The parameter that an entity's class has under a name. -/
def param? (b : Book P) (e : Entity) (name : String) : Except StoreError (Param P) :=
  b.registry.param? e.typeTag name

/-- The value of a parameter. -/
def read (b : Book P) (e : Entity) (name : String) : Except StoreError ParamValue := do
  let p ← b.param? e name
  let i ← b.instance? e
  i.read p

/-- The text of a parameter's value. -/
def readText (b : Book P) (e : Entity) (name : String) : Except StoreError String := do
  let p ← b.param? e name
  let i ← b.instance? e
  i.readText p

/-- Writes a value inside one edit. -/
def write (b : Book P) (e : Entity) (name : String) (v : ParamValue) :
    Except StoreError Unit × Book P :=
  match b.param? e name with
  | .error err => (.error err, b)
  | .ok p => b.tryEdit e fun i => i.write p v

/-- Reads a text as a value and writes it inside one edit. -/
def writeText (b : Book P) (e : Entity) (name : String) (s : String) :
    Except StoreError Unit × Book P :=
  match b.param? e name with
  | .error err => (.error err, b)
  | .ok p => b.tryEdit e fun i => i.writeText p s

/-- Copies a parameter of an instance of another book inside one edit. -/
def copyParam (b : Book P) (e : Entity) (source : Instance P) (p : Param P) :
    Except StoreError Instance.Transfer × Book P :=
  let (outcome, b) := b.edit e (attempt fun dest => source.copyParam dest p)
  (outcome.join, b)

/-! ### Waiting references -/

/-- Points the parameter of a record at its target inside one edit. -/
def link (b : Book P) (r : ReferenceRecord P) : Except StoreError Unit × Book P :=
  b.tryEdit r.source fun i => i.link r.param r.target

/-- Whether two records stand for the same link. -/
def sameLink (r s : ReferenceRecord P) : Bool :=
  r.source == s.source && r.target == s.target && r.param.name == s.param.name

/-- Appends a record unless its link is among those before it. -/
def addRecord (rs : List (ReferenceRecord P)) (r : ReferenceRecord P) :
    List (ReferenceRecord P) :=
  if rs.any fun s => sameLink s r then rs else rs ++ [r]

/-- Lets references wait for their targets; those that wait already are not
    repeated. -/
def pushPending (b : Book P) (rs : List (ReferenceRecord P)) : Book P :=
  { b with pending := rs.foldl addRecord b.pending }

/-- Forgets all waiting references; answers them. -/
def takePending (b : Book P) : List (ReferenceRecord P) × Book P :=
  (b.pending, { b with pending := [] })

end EntityBook.Book
