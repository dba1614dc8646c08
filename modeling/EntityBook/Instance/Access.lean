import EntityBook.Class.Accessor
import EntityBook.Error
import EntityBook.Instance.Basic

/-! # Access to parameters

  Reading and writing the parameters of an instance. A write succeeds when the
  value has the shape of the parameter, the parameter can be written and the
  payload is of the type the accessor is made for; in every other case the
  instance stays as it was. Every successful write marks the instance dirty.

  Texts, copies between books and links are all expressed by `read` and `write`.
-/

namespace EntityBook

namespace Instance

variable {P : PayloadFamily}

/-! ### Reading -/

/-- The error for a payload of another type. -/
def mismatch (i : Instance P) (p : Param P) : StoreError := .payloadMismatch i.entity p.name

/-- The value of a parameter, `none` if the payload is of another type. -/
def value? (i : Instance P) : Accessor P → Option ParamValue
  | .scalar k f => (f.read? i.payload).map (.scalar k)
  | .slots => some (.slots i.slots)
  | .reference _ f => (f.read? i.payload).map .reference
  | .choice f => (f.read? i.payload).map .choice
  | .collection _ f => (f.read? i.payload).map .collection
  | .book => some (.book i.owner)

/-- The value of a parameter. -/
def read (i : Instance P) (p : Param P) : Except StoreError ParamValue :=
  match i.value? p.accessor with
  | some v => .ok v
  | none => .error (i.mismatch p)

/-- The text of a parameter's value. -/
def readText (i : Instance P) (p : Param P) : Except StoreError String :=
  (i.read p).map ParamValue.text

/-! ### Writing -/

/-- Writes a value through a field. -/
def writeField {V : Type} (i : Instance P) (p : Param P) (f : Field P V) (v : V) :
    Except StoreError (Instance P) :=
  match f.set with
  | none => .error (.readOnly p.name)
  | some set =>
    match i.payload.as? f.type with
    | some d => .ok (i.withPayload ⟨f.type, set d v⟩)
    | none => .error (i.mismatch p)

/-- The error for a value of another shape. -/
def unsupported (p : Param P) : StoreError := .unsupported p.name p.kind.name

/-- Writes a value, which must have the shape of the parameter. -/
def write (i : Instance P) (p : Param P) (v : ParamValue) : Except StoreError (Instance P) :=
  match p.accessor, v with
  | .scalar k f, .scalar l v =>
    if h : l = k then i.writeField p f (h ▸ v) else .error (unsupported p)
  | .slots, .slots frame => .ok (i.withSlots frame)
  | .reference _ f, .reference v => i.writeField p f v
  | .choice f, .choice v => i.writeField p f v
  | .collection _ f, .collection v => i.writeField p f v
  | .book, _ => .error (.readOnly p.name)
  | _, _ => .error (unsupported p)

/-- Reads a text as a value of the parameter's kind and writes it. -/
def writeText (i : Instance P) (p : Param P) (s : String) : Except StoreError (Instance P) :=
  if p.isReadOnly then .error (.readOnly p.name)
  else
    match ParamValue.parse p.kind s with
    | .ok v => i.write p v
    | .error e => .error (.invalidValue p.name e)

/-! ### References -/

/-- The entities that a parameter points at: none for other kinds, and none for
    null identifiers. -/
def references (i : Instance P) (p : Param P) : Except StoreError (List Entity) :=
  let live := fun (es : List Entity) => es.filter fun e => !e.guid.isNull
  match p.accessor with
  | .reference target f =>
    match f.read? i.payload with
    | some g => .ok (live (g.toList.map fun g => ⟨target, g⟩))
    | none => .error (i.mismatch p)
  | .choice f =>
    match f.read? i.payload with
    | some e => .ok (live e.toList)
    | none => .error (i.mismatch p)
  | .collection element f =>
    match f.read? i.payload with
    | some gs => .ok (live (gs.map fun g => ⟨element, g⟩))
    | none => .error (i.mismatch p)
  | _ => .ok []

/-- Points a parameter at an entity: a single reference is replaced, a collection
    gains the entity unless it is a member already. -/
def link (i : Instance P) (p : Param P) (target : Entity) : Except StoreError (Instance P) :=
  match p.accessor with
  | .reference _ _ => i.write p (.reference (some target.guid))
  | .choice _ => i.write p (.choice (some target))
  | .collection _ f =>
    match f.read? i.payload with
    | none => .error (i.mismatch p)
    | some members =>
      if members.contains target.guid then .ok i
      else i.write p (.collection (members ++ [target.guid]))
  | _ => .error (unsupported p)

/-! ### Copies -/

/-- What became of a parameter in a copy. -/
inductive Transfer where
  /-- The value is in the destination now. -/
  | copied
  /-- The parameter points at these entities; they are linked once they are in
      the destination's book. -/
  | deferred (targets : List Entity)
  /-- Nothing to copy: the parameter cannot be written. -/
  | skipped
  deriving DecidableEq, Repr

/-- Copies a parameter from one instance to another. References are not written
    but answered. -/
def copyParam (source dest : Instance P) (p : Param P) :
    Except StoreError (Transfer × Instance P) :=
  match p.accessor with
  | .book => .ok (.skipped, dest)
  | .slots => .ok (.copied, dest.withSlots source.slots)
  | .scalar _ _ =>
    if p.isReadOnly then .ok (.skipped, dest)
    else
      match source.read p with
      | .error e => .error e
      | .ok v => (dest.write p v).map fun dest => (.copied, dest)
  | _ => (source.references p).map fun targets => (.deferred targets, dest)

end Instance

end EntityBook
