import EntityBook.Class.Accessor

/-! # Classes

  A class says how entities of a type are made and which parameters they have.
  It is built from a list of declarations, all for the type of payload that its
  instances have; declaring a name again replaces the parameter in its place.
-/

namespace EntityBook

/-- The class of an entity type. -/
structure ObjectClass (P : PayloadFamily) where
  /-- The type. -/
  typeTag : TypeTag
  /-- The type of the payloads of its instances. -/
  payloadType : P.Name
  /-- The payload of a new instance; without it no instance can be made. A class is given a
      constructor of fresh, empty payloads, which is taken to give the same payload at every
      call, whatever was created before. -/
  construct : Option (P.Data payloadType)
  /-- The parameters, in the order of their first declaration. -/
  declared : List (Declaration P payloadType)

namespace ObjectClass

variable {P : PayloadFamily}

/-- Adds a parameter, in place of one of the same name. -/
def declare {t : P.Name} (d : Declaration P t) : List (Declaration P t) → List (Declaration P t)
  | [] => [d]
  | q :: rest => if q.val.name = d.val.name then d :: rest else q :: declare d rest

/-- The class with the given declarations. -/
def build (typeTag : TypeTag) (payloadType : P.Name) (construct : Option (P.Data payloadType))
    (declarations : List (Declaration P payloadType)) : ObjectClass P :=
  ⟨typeTag, payloadType, construct, declarations.foldl (fun ds d => declare d ds) []⟩

/-- The parameters, in the order of their first declaration. -/
def params (c : ObjectClass P) : List (Param P) := c.declared.map Subtype.val

/-- The payload of a new instance. -/
def initialPayload? (c : ObjectClass P) : Option (Payload P) :=
  c.construct.map fun d => ⟨c.payloadType, d⟩

/-- The parameter with a given name. -/
def param? (c : ObjectClass P) (name : String) : Option (Param P) :=
  c.params.find? fun p => p.name == name

/-- The parameters that take part in copies and undo. -/
def copyable (c : ObjectClass P) : List (Param P) := c.params.filter Param.isCopyable

/-- The parameters that point at other entities. -/
def references (c : ObjectClass P) : List (Param P) := c.params.filter Param.isReference

/-- Whether instances can be made. -/
def hasConstructor (c : ObjectClass P) : Bool := c.construct.isSome

/-- Whether entities of the type can be copied between books. -/
def isCompliant (c : ObjectClass P) : Bool := c.hasConstructor && !c.copyable.isEmpty

/-- How diagnostics show a class. -/
def debug (c : ObjectClass P) : String :=
  Text.showRecord "ObjectClass" [("type_tag", Entity.tagDebug c.typeTag),
    ("constructible", Text.showBool c.hasConstructor),
    ("params", Text.showList (c.params.map Param.debug))]

end ObjectClass

end EntityBook
