/-! # Ordered maps

  A map from keys to values that lists its entries in increasing order of the
  keys. `find?` is the view: what `insert` and `erase` do is said through it.
-/

namespace EntityBook

/-- Entries with increasing keys. -/
structure OrderedMap (κ α : Type) where
  /-- The entries in order. -/
  entries : List (κ × α)

namespace OrderedMap

variable {κ α : Type}

/-- The map without entries. -/
def empty : OrderedMap κ α := ⟨[]⟩

instance : Inhabited (OrderedMap κ α) := ⟨empty⟩

/-- The values in the order of their keys. -/
def values (m : OrderedMap κ α) : List α := m.entries.map (·.2)

/-- The keys in order. -/
def keys (m : OrderedMap κ α) : List κ := m.entries.map (·.1)

/-- The number of entries. -/
def size (m : OrderedMap κ α) : Nat := m.entries.length

variable [DecidableEq κ]

/-- The value of a key in a list of entries. -/
def findIn (k : κ) : List (κ × α) → Option α
  | [] => none
  | e :: rest => if e.1 = k then some e.2 else findIn k rest

/-- The value of a key. -/
def find? (m : OrderedMap κ α) (k : κ) : Option α := findIn k m.entries

/-- Removes a key. -/
def erase (m : OrderedMap κ α) (k : κ) : OrderedMap κ α :=
  ⟨m.entries.filter fun e => e.1 ≠ k⟩

variable [LT κ] [DecidableLT κ]

/-- Gives a key a value in a list of entries. -/
def insertIn (k : κ) (a : α) : List (κ × α) → List (κ × α)
  | [] => [(k, a)]
  | e :: rest =>
    if e.1 = k then (k, a) :: rest
    else if k < e.1 then (k, a) :: e :: rest
    else e :: insertIn k a rest

/-- Gives a key a value, in place of the one it had. -/
def insert (m : OrderedMap κ α) (k : κ) (a : α) : OrderedMap κ α := ⟨insertIn k a m.entries⟩

/-! ### The view -/

omit [LT κ] [DecidableLT κ] in
@[simp] theorem find?_empty (k : κ) : (empty : OrderedMap κ α).find? k = none := rfl

@[simp] theorem find?_insert_self (m : OrderedMap κ α) (k : κ) (a : α) :
    (m.insert k a).find? k = some a := by
  show findIn k (insertIn k a m.entries) = some a
  induction m.entries with
  | nil => simp [insertIn, findIn]
  | cons e rest ih =>
    unfold insertIn
    split
    · simp [findIn]
    · split
      · simp [findIn]
      · next h _ => simp [findIn, h, ih]

theorem find?_insert_of_ne (m : OrderedMap κ α) {k l : κ} (h : l ≠ k) (a : α) :
    (m.insert k a).find? l = m.find? l := by
  show findIn l (insertIn k a m.entries) = findIn l m.entries
  induction m.entries with
  | nil => simp [insertIn, findIn, Ne.symm h]
  | cons e rest ih =>
    unfold insertIn
    split
    · next he => simp [findIn, he, Ne.symm h]
    · split
      · simp [findIn, Ne.symm h]
      · simp [findIn, ih]

omit [LT κ] [DecidableLT κ] in
@[simp] theorem find?_erase_self (m : OrderedMap κ α) (k : κ) : (m.erase k).find? k = none := by
  show findIn k (m.entries.filter fun e => e.1 ≠ k) = none
  induction m.entries with
  | nil => rfl
  | cons e rest ih =>
    by_cases he : e.1 = k
    · simpa [List.filter_cons, he] using ih
    · simpa [List.filter_cons, he, findIn] using ih

omit [LT κ] [DecidableLT κ] in
theorem find?_erase_of_ne (m : OrderedMap κ α) {k l : κ} (h : l ≠ k) :
    (m.erase k).find? l = m.find? l := by
  show findIn l (m.entries.filter fun e => e.1 ≠ k) = findIn l m.entries
  induction m.entries with
  | nil => rfl
  | cons e rest ih =>
    by_cases he : e.1 = k
    · simpa [List.filter_cons, he, findIn, Ne.symm h] using ih
    · simp only [List.filter_cons, he, ne_eq, not_false_eq_true, decide_true, if_true, findIn]
      split
      · rfl
      · exact ih

end OrderedMap

end EntityBook
