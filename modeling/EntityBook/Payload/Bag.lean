import EntityBook.Class.Accessor
import EntityBook.OrderedMap

/-! # Bags

  A payload that needs no type of its own: a bag of named compartments, each of
  which holds a value of any shape. A field over a compartment sees the value if
  it has the field's shape, and the initial value of that shape otherwise.

  Bags come in two layouts with the same behaviour. A field is made for one
  layout and does not match a bag of the other.
-/

namespace EntityBook

/-- The two kinds of bag, which fields tell apart. -/
inductive BagLayout where
  /-- The usual one. -/
  | alpha
  /-- The other one. -/
  | beta
  deriving DecidableEq, Repr

/-- What a bag holds: the compartments that were ever filled. -/
abbrev Bag := OrderedMap String ParamValue

/-- Bags of both layouts. -/
@[reducible] def bags : PayloadFamily where
  Name := BagLayout
  Data _ := Bag
  decEqName := inferInstance

namespace Bag

/-! ### Shapes -/

/-- A shape of value that a compartment can be read as. -/
structure Shape (V : Type) where
  /-- The value in this shape. -/
  wrap : V → ParamValue
  /-- Recognises values of this shape. -/
  unwrap? : ParamValue → Option V
  /-- What is seen where there is no value of this shape. -/
  initial : V
  /-- What was wrapped is recognised. -/
  unwrap?_wrap : ∀ v, unwrap? (wrap v) = some v

/-- Scalars of a kind. -/
def Shape.scalar (k : ScalarKind) : Shape k.Value where
  wrap := .scalar k
  unwrap? v := match v with
    | .scalar l v => if h : l = k then some (h ▸ v) else none
    | _ => none
  initial := k.initial
  unwrap?_wrap v := by simp

/-- References to one entity of a fixed type. -/
def Shape.reference : Shape (Option Guid) where
  wrap := .reference
  unwrap? v := match v with
    | .reference g => some g
    | _ => none
  initial := none
  unwrap?_wrap _ := rfl

/-- References to one entity of any type. -/
def Shape.choice : Shape (Option Entity) where
  wrap := .choice
  unwrap? v := match v with
    | .choice e => some e
    | _ => none
  initial := none
  unwrap?_wrap _ := rfl

/-- References to many entities of a fixed type. -/
def Shape.collection : Shape (List Guid) where
  wrap := .collection
  unwrap? v := match v with
    | .collection gs => some gs
    | _ => none
  initial := []
  unwrap?_wrap _ := rfl

/-! ### Fields -/

variable {V : Type}

/-- What a compartment holds, seen in a shape. -/
def look (shape : Shape V) (name : String) (b : Bag) : V :=
  ((b.find? name).bind shape.unwrap?).getD shape.initial

/-- Fills a compartment, in place of what it held. -/
def fill (shape : Shape V) (name : String) (v : V) (b : Bag) : Bag :=
  b.insert name (shape.wrap v)

/-- The field over a compartment of the bags of a layout. -/
def field (layout : BagLayout) (shape : Shape V) (name : String) (readOnly : Bool) :
    Field bags V where
  type := layout
  get b := look shape name b
  set := if readOnly then none else some fun b v => fill shape name v b

/-- The parameter that tells the number of members of the collection in a
    compartment. -/
def memberCount (layout : BagLayout) (name compartment : String) : Declaration bags layout where
  val.name := name
  val.accessor := .scalar .int64
    { type := layout
      get := fun b => Int64.ofNat (look .collection compartment b).length
      set := none }
  property := by simp [Param.isFor, Accessor.payloadType?]

/-- The accessor of a kind over a compartment. A collection's members are of type
    `element`. -/
def accessor (layout : BagLayout) (kind : ParamKind) (element : TypeTag) (readOnly : Bool)
    (compartment : String) : Accessor bags :=
  match kind with
  | .scalar k => .scalar k (field layout (.scalar k) compartment readOnly)
  | .slots => .slots
  | .collection => .collection element (field layout .collection compartment readOnly)
  | .choice => .choice (field layout .choice compartment readOnly)
  | .book => .book
  | .reference target => .reference target (field layout .reference compartment readOnly)

/-- The parameter of a kind over a compartment. -/
def param (layout : BagLayout) (kind : ParamKind) (element : TypeTag) (readOnly : Bool)
    (name compartment : String) : Declaration bags layout where
  val.name := name
  val.accessor := accessor layout kind element readOnly compartment
  property := by cases kind <;> simp [Param.isFor, accessor, Accessor.payloadType?, field]

/-! ### What is filled is seen -/

@[simp] theorem look_fill_self (shape : Shape V) (name : String) (v : V) (b : Bag) :
    look shape name (fill shape name v b) = v := by
  simp [look, fill, shape.unwrap?_wrap]

theorem look_fill_of_ne {W : Type} (shape : Shape V) (other : Shape W) {name place : String}
    (h : place ≠ name) (v : V) (b : Bag) :
    look other place (fill shape name v b) = look other place b := by
  simp [look, fill, OrderedMap.find?_insert_of_ne _ h]

theorem isLawful_field (layout : BagLayout) (shape : Shape V) (name : String) (readOnly : Bool) :
    (field layout shape name readOnly).IsLawful := by
  intro set h d v
  cases readOnly with
  | true => simp [field] at h
  | false =>
    simp only [field, Bool.false_eq_true, if_false, Option.some.injEq] at h
    subst h
    exact look_fill_self shape name v d

end Bag

end EntityBook
