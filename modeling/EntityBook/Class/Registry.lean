import EntityBook.Class.Basic
import EntityBook.Error

/-! # Registries

  A registry knows the classes of entity types. Classes are added and never
  removed or changed. They are kept in the order of their types.
-/

namespace EntityBook

/-- The known classes. -/
structure Registry (P : PayloadFamily) where
  /-- The classes, in increasing order of their types. -/
  classes : List (ObjectClass P)

namespace Registry

variable {P : PayloadFamily}

/-- The registry that knows no class. -/
def empty : Registry P := ⟨[]⟩

instance : Inhabited (Registry P) := ⟨empty⟩

/-- The class of a type, if it is known. -/
def find? (r : Registry P) (tag : TypeTag) : Option (ObjectClass P) :=
  r.classes.find? fun c => c.typeTag == tag

/-- Whether the class of a type is known. -/
def contains (r : Registry P) (tag : TypeTag) : Bool := (r.find? tag).isSome

/-- Puts a class before the first one with a greater type. -/
def insertClass (c : ObjectClass P) : List (ObjectClass P) → List (ObjectClass P)
  | [] => [c]
  | d :: rest => if c.typeTag < d.typeTag then c :: d :: rest else d :: insertClass c rest

/-- Adds a class of a type that is not known yet. -/
def register (r : Registry P) (c : ObjectClass P) : Except StoreError (Registry P) :=
  if r.contains c.typeTag then .error (.duplicateType c.typeTag)
  else .ok ⟨insertClass c r.classes⟩

/-- The class of a type that has to be known. -/
def class? (r : Registry P) (tag : TypeTag) : Except StoreError (ObjectClass P) :=
  match r.find? tag with
  | some c => .ok c
  | none => .error (.unknownType tag)

/-- The parameter of a type that has to be known. -/
def param? (r : Registry P) (tag : TypeTag) (name : String) : Except StoreError (Param P) :=
  match r.class? tag with
  | .error e => .error e
  | .ok c =>
    match c.param? name with
    | some p => .ok p
    | none => .error (.unknownParam tag name)

/-- The known types in increasing order. -/
def types (r : Registry P) : List TypeTag := r.classes.map ObjectClass.typeTag

/-- The kind that a name means: one of the named kinds, or a reference to the
    entities of a known type. -/
def kindOf (r : Registry P) (name : String) : Except StoreError ParamKind :=
  match ParamKind.ofName name with
  | .ok k => .ok k
  | .error e => if r.contains name then .ok (.reference name) else .error (.value e)

end Registry

end EntityBook
