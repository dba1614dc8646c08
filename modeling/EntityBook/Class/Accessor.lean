import EntityBook.Payload.Basic
import EntityBook.Text.Diagnostic
import EntityBook.Value.Param

/-! # Accessors

  An accessor reads and writes one parameter of an instance. Most are fields of
  the payload and are made for one type of payload, so that an accessor in the
  wrong hands is noticed and changes nothing.
-/

namespace EntityBook

/-- The means to reach a parameter, one alternative for each shape of value. -/
inductive Accessor (P : PayloadFamily) where
  /-- A scalar of the payload. -/
  | scalar (kind : ScalarKind) (field : Field P kind.Value)
  /-- The side-table of the instance. -/
  | slots
  /-- A reference to an entity of a given type. -/
  | reference (target : TypeTag) (field : Field P (Option Guid))
  /-- A reference to an entity of any type. -/
  | choice (field : Field P (Option Entity))
  /-- References to entities of a given type. -/
  | collection (element : TypeTag) (field : Field P (List Guid))
  /-- The book that owns the instance. -/
  | book

namespace Accessor

variable {P : PayloadFamily}

/-- The kind of the parameter. -/
def kind : Accessor P → ParamKind
  | scalar k _ => .scalar k
  | slots => .slots
  | reference target _ => .reference target
  | choice _ => .choice
  | collection _ _ => .collection
  | book => .book

/-- The type of payload that the accessor is made for; the side-table and the
    owning book are reached in any instance. -/
def payloadType? : Accessor P → Option P.Name
  | scalar _ f => some f.type
  | slots => none
  | reference _ f => some f.type
  | choice f => some f.type
  | collection _ f => some f.type
  | book => none

/-- Whether the parameter cannot be written. -/
def isReadOnly : Accessor P → Bool
  | scalar _ f => f.isReadOnly
  | slots => false
  | reference _ f => f.isReadOnly
  | choice f => f.isReadOnly
  | collection _ f => f.isReadOnly
  | book => true

/-- Whether this is the side-table. -/
def isSlots : Accessor P → Bool
  | slots => true
  | _ => false

/-- The type of the entities that the parameter points at, if it is fixed. -/
def targetType : Accessor P → Option TypeTag
  | reference target _ => some target
  | collection element _ => some element
  | _ => none

end Accessor

/-- How diagnostics show a kind. -/
def ParamKind.debug : ParamKind → String
  | .reference target => "Reference(" ++ Entity.tagDebug target ++ ")"
  | k => k.jsonName

/-- How diagnostics show an accessor. -/
def Accessor.debug {P : PayloadFamily} (a : Accessor P) : String :=
  Text.showRecord "Accessor" [("kind", a.kind.debug), ("read_only", Text.showBool a.isReadOnly)]

/-- A named parameter. -/
structure Param (P : PayloadFamily) where
  /-- The name, unique within a class. -/
  name : String
  /-- The means to reach it. -/
  accessor : Accessor P

namespace Param

variable {P : PayloadFamily}

/-- The kind of a parameter. -/
def kind (p : Param P) : ParamKind := p.accessor.kind

/-- Whether a parameter cannot be written. -/
def isReadOnly (p : Param P) : Bool := p.accessor.isReadOnly

/-- Whether a parameter takes part in copies and undo. -/
def isCopyable (p : Param P) : Bool := !p.isReadOnly

/-- Whether a parameter points at other entities. -/
def isReference (p : Param P) : Bool := p.kind.isReference

/-- Whether a parameter is the side-table. -/
def isSlots (p : Param P) : Bool := p.accessor.isSlots

/-- Whether a parameter can be reached in payloads of a type. -/
def isFor (t : P.Name) (p : Param P) : Bool :=
  match p.accessor.payloadType? with
  | some u => u == t
  | none => true

/-- How diagnostics show a parameter. -/
def debug (p : Param P) : String :=
  Text.showRecord "Param" [("name", Text.quote p.name), ("kind", p.kind.debug),
    ("read_only", Text.showBool p.isReadOnly)]

end Param

/-- A parameter for payloads of a given type. -/
abbrev Declaration (P : PayloadFamily) (t : P.Name) := { p : Param P // p.isFor t = true }

end EntityBook
