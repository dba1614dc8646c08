import EntityBook.Payload.Bag
import EntityBook.Proofs.Book.Revision
import EntityBook.Proofs.Instance.Storage

/-! # Classes over bags

  A class whose parameters are compartments of a bag is lawful as soon as no two
  writable parameters have the same place.
-/

namespace EntityBook.Bag

/-- A parameter over a compartment. -/
structure Column where
  /-- The kind of the parameter. -/
  kind : ParamKind
  /-- The type of the members, if it is a collection. -/
  element : TypeTag := ""
  /-- Whether it cannot be written. -/
  readOnly : Bool := false
  /-- The name of the parameter. -/
  name : String
  /-- The compartment that holds it. -/
  compartment : String

/-- The parameter of a column. -/
def Column.param (layout : BagLayout) (x : Column) : Declaration bags layout :=
  Bag.param layout x.kind x.element x.readOnly x.name x.compartment

/-- Two columns have different places: different compartments, and not both the
    side-table. -/
def Column.Apart (x y : Column) : Prop :=
  x.compartment ≠ y.compartment ∧ ¬ (x.kind = .slots ∧ y.kind = .slots)

instance (x y : Column) : Decidable (x.Apart y) :=
  inferInstanceAs (Decidable (_ ∧ _))

variable {layout : BagLayout}

theorem isLawful_accessor (kind : ParamKind) (element : TypeTag) (readOnly : Bool)
    (compartment : String) : (accessor layout kind element readOnly compartment).IsLawful := by
  cases kind with
  | slots | book => trivial
  | scalar | collection | choice | reference => exact isLawful_field _ _ _ _

theorem apart_field {V W : Type} (shape : Shape V) (other : Shape W) {name place : String}
    (h : name ≠ place) (readOnly readOnly' : Bool) (layout' : BagLayout) :
    (field layout shape name readOnly).Apart (field layout' other place readOnly') := by
  intro set hset hl d v
  cases readOnly with
  | true => cases hset
  | false =>
    cases hset
    cases hl
    exact look_fill_of_ne shape other h.symm v d

/-- A column has the field over its compartment, if it has one. -/
theorem exists_shape {x : Column} {f : Σ V : Type, Field bags V}
    (h : (x.param layout).val.accessor.field? = some f) :
    ∃ shape : Shape f.1, f = ⟨f.1, field layout shape x.compartment x.readOnly⟩ := by
  obtain ⟨kind, element, readOnly, name, compartment⟩ := x
  cases kind with
  | slots | book => cases h
  | scalar | collection | choice | reference =>
    cases h
    exact ⟨_, rfl⟩

/-- Columns with different places share no storage. -/
theorem Column.Apart.param {x y : Column} (h : x.Apart y) :
    (x.param layout).val.Apart (y.param layout).val where
  slots := by
    have hslots {x : Column} (hx : (x.param layout).val.isSlots = true) : x.kind = .slots := by
      obtain ⟨kind, element, readOnly, name, compartment⟩ := x
      cases kind with
      | slots => rfl
      | _ => cases hx
    rintro ⟨hx, hy⟩
    exact h.2 ⟨hslots hx, hslots hy⟩
  fields := by
    intro f g hf hg
    obtain ⟨shape, hf⟩ := exists_shape hf
    obtain ⟨other, hg⟩ := exists_shape hg
    rw [hf, hg]
    exact apart_field shape other h.1 x.readOnly y.readOnly layout

/-- A class of columns with places of their own is lawful. -/
theorem isLawful_build (tag : TypeTag) (d : Option Bag) (columns : List Column)
    (hapart : ∀ x ∈ columns, ∀ y ∈ columns, x.name ≠ y.name → x.Apart y) :
    (ObjectClass.build (P := bags) tag layout d (columns.map (Column.param layout))).IsLawful := by
  have hcolumn : ∀ p ∈ (ObjectClass.build (P := bags) tag layout d
      (columns.map (Column.param layout))).copyable,
      ∃ x ∈ columns, p = (x.param layout).val := by
    intro p hp
    obtain ⟨y, hy, rfl⟩ :=
      ObjectClass.exists_of_mem_params_build (ObjectClass.mem_params_of_mem_copyable hp)
    obtain ⟨x, hx, rfl⟩ := List.mem_map.mp hy
    exact ⟨x, hx, rfl⟩
  constructor
  · intro p hp
    obtain ⟨x, _, rfl⟩ := hcolumn p hp
    exact isLawful_accessor ..
  · intro p hp q hq hn
    obtain ⟨x, hx, rfl⟩ := hcolumn p hp
    obtain ⟨y, hy, rfl⟩ := hcolumn q hq
    exact fun _ _ _ => Instance.value?_write_of_apart (hapart x hx y hy hn).param

/-! ### A class of nodes -/

/-- The columns of a node: a label, a reference, members and the side-table. -/
def nodeColumns : List Column :=
  [{ kind := .scalar .string, name := "label", compartment := "label" },
   { kind := .reference "node", name := "next", compartment := "next" },
   { kind := .collection, element := "node", name := "parts", compartment := "parts" },
   { kind := .slots, name := "slots", compartment := "slots" }]

/-- Nodes that can refer to nodes. -/
def nodeClass : ObjectClass bags :=
  .build "node" .alpha (some .empty) (nodeColumns.map (Column.param .alpha))

/-- The label of a node. -/
def nodeLabel : Param bags :=
  (Column.param .alpha ⟨.scalar .string, "", false, "label", "label"⟩).val

/-- The registry that knows nodes. -/
def nodes : Registry bags := ⟨[nodeClass]⟩

theorem wellFormed_nodes : nodes.WellFormed := by
  intro c hc
  cases List.mem_singleton.mp hc
  exact ObjectClass.wellFormed_build ..

theorem isLawful_nodes : ∀ c ∈ nodes.classes, c.IsLawful := by
  intro c hc
  cases List.mem_singleton.mp hc
  exact isLawful_build "node" (some .empty) nodeColumns (by decide)

/-- A book of nodes without any. -/
def emptyBook (id : Nat) : Book bags := { id := ⟨BitVec.ofNat 128 id⟩, registry := nodes }

theorem wellFormed_emptyBook (id : Nat) : (emptyBook id).WellFormed where
  sorted := OrderedMap.sorted_empty
  registry := wellFormed_nodes
  fits e i h := by cases h

/-- The node with a given number. -/
def node (n : Nat) : Entity := ⟨"node", ⟨BitVec.ofNat 128 n⟩⟩

/-- Makes a node that refers to another one, which need not be there. -/
def addNode (b : Book bags) (n next : Nat) : Book bags :=
  ((b.create "node" (node n).guid).2.write (node n) "next" (.reference (some (node next).guid))).2

theorem wellFormed_addNode {b : Book bags} (h : b.WellFormed) (n next : Nat) :
    (addNode b n next).WellFormed :=
  (Book.Revises.write (h.create ..) _ _ _).wellFormed (h.create ..)

/-- Four nodes, each of which refers to the next one. -/
def ring : Book bags := addNode (addNode (addNode (addNode (emptyBook 1) 1 2) 2 3) 3 4) 4 1

theorem wellFormed_ring : ring.WellFormed :=
  wellFormed_addNode (wellFormed_addNode (wellFormed_addNode (wellFormed_addNode
    (wellFormed_emptyBook 1) 1 2) 2 3) 3 4) 4 1

/-- The first three nodes of the ring. -/
def ringNodes : List (Instance bags) := ((ring.collection? "node").getD []).take 3

theorem get?_ringNodes : ∀ i ∈ ringNodes, ring.get? i.entity = some i := by
  intro i hi
  cases hl : ring.collection? "node" with
  | none => simp [ringNodes, hl] at hi
  | some l =>
    have hm : i ∈ l := List.mem_of_mem_take (by simpa [ringNodes, hl] using hi)
    exact ((Book.mem_collection? wellFormed_ring hl).mp hm).1

end EntityBook.Bag
