/-! # Payloads

  What an instance holds besides its side-table is its payload. The payloads of
  a program are of several types, which a family names. A field reads and writes
  one value in the payloads of one type; the payloads of the others it does not
  match.
-/

namespace EntityBook

/-- The types of payload that a program uses. -/
structure PayloadFamily where
  /-- The names of the types. -/
  Name : Type
  /-- The type behind a name. -/
  Data : Name → Type
  /-- Names can be told apart. -/
  decEqName : DecidableEq Name

instance (P : PayloadFamily) : DecidableEq P.Name := P.decEqName

/-- A payload of one of the types. -/
structure Payload (P : PayloadFamily) where
  /-- The name of its type. -/
  type : P.Name
  /-- What it holds. -/
  data : P.Data type

/-- What a payload holds, if it is of a given type. -/
def Payload.as? {P : PayloadFamily} (t : P.Name) (p : Payload P) : Option (P.Data t) :=
  if h : p.type = t then some (h ▸ p.data) else none

@[simp] theorem Payload.as?_mk {P : PayloadFamily} (t : P.Name) (d : P.Data t) :
    (Payload.mk t d).as? t = some d := by
  simp [as?]

theorem Payload.as?_eq_none_iff {P : PayloadFamily} {t : P.Name} {p : Payload P} :
    p.as? t = none ↔ p.type ≠ t := by
  by_cases h : p.type = t <;> simp [as?, h]

theorem Payload.eq_mk_of_as? {P : PayloadFamily} {t : P.Name} {p : Payload P} {d : P.Data t}
    (h : p.as? t = some d) : p = ⟨t, d⟩ := by
  obtain ⟨u, e⟩ := p
  unfold as? at h
  split at h
  · next hu =>
    cases hu
    cases h
    rfl
  · cases h

/-! ### Fields -/

/-- Functions that reach a value of type `V` in the payloads of one type. -/
structure Field (P : PayloadFamily) (V : Type) where
  /-- The type of payload that the field is made for. -/
  type : P.Name
  /-- Reads the value. -/
  get : P.Data type → V
  /-- Writes the value. A field without it cannot be written. -/
  set : Option (P.Data type → V → P.Data type)

namespace Field

variable {P : PayloadFamily} {V : Type}

/-- Whether the field cannot be written. -/
def isReadOnly (f : Field P V) : Bool := f.set.isNone

/-- Reads the value, unless the payload is of another type. -/
def read? (f : Field P V) (p : Payload P) : Option V := (p.as? f.type).map f.get

/-- Reading gives what was written last. -/
def IsLawful (f : Field P V) : Prop :=
  ∀ set, f.set = some set → ∀ d v, f.get (set d v) = v

end Field

end EntityBook
