import EntityBook.Payload.Bag
import EntityBook.Proofs.Class.Registry
import EntityBook.Proofs.Instance.Storage
import Mathlib.Data.List.Induction

/-! # Parameter tables

  A class keeps its parameters in a row and, beside it, an index from names to places in
  the row. Both grow as the declarations are entered one after another: a new name goes to
  the end, and a name that is there already is replaced where it stands. What ties them
  together is that the index knows the place of every name in the row and no other place.
  So no place is ever outside of the row, neither when a name is declared again nor when
  it is looked up.

  What comes out is known without the history: every declared name has one parameter, the
  one of its last declaration, and they stand in the order of the first declarations.
-/

namespace EntityBook

variable {P : PayloadFamily}

/-! ### Parameters by what they can do -/

namespace Param

/-- A parameter with a function that writes it. -/
def HasSetter (p : Param P) : Prop := ∃ f, p.accessor.field? = some f ∧ f.2.set.isSome = true

theorem isCopyable_iff (p : Param P) :
    p.isCopyable = true ↔ p.HasSetter ∨ p.accessor = .slots := by
  unfold HasSetter
  cases hf : p.accessor.field? with
  | some f =>
    have hslots : p.accessor ≠ .slots := by
      intro h
      rw [h] at hf
      cases hf
    simp [isCopyable, isReadOnly_of_field hf, Field.isReadOnly, hslots]
  | none =>
    -- Only the side-table and the owning book have no field of the payload.
    cases ha : p.accessor with
    | slots | book => simp [isCopyable, isReadOnly, ha, Accessor.isReadOnly]
    | scalar | reference | choice | collection =>
      rw [ha] at hf
      cases hf

theorem isReference_iff (p : Param P) :
    p.isReference = true ↔
      p.kind = .choice ∨ p.kind = .collection ∨ ∃ target, p.kind = .reference target := by
  unfold isReference
  cases p.kind <;> simp [ParamKind.isReference]

end Param

namespace ObjectClass

variable {t : P.Name}

/-! ### One declaration -/

theorem declare_of_new {d : Declaration P t} {row : List (Declaration P t)}
    (h : d.val.name ∉ row.map (·.val.name)) : declare d row = row ++ [d] := by
  induction row with
  | nil => rfl
  | cons q rest ih =>
    obtain ⟨hq, hrest⟩ := not_or.mp (mt List.mem_cons.mpr h)
    rw [declare, if_neg (Ne.symm hq), ih hrest, List.cons_append]

/-- The first parameter of the name is replaced. -/
theorem declare_of_place {d : Declaration P t} {row : List (Declaration P t)} {i : Nat}
    (h : (row.map (·.val.name))[i]? = some d.val.name)
    (hfirst : ∀ j < i, (row.map (·.val.name))[j]? ≠ some d.val.name) :
    declare d row = row.set i d := by
  induction row generalizing i with
  | nil => simp at h
  | cons q rest ih =>
    cases i with
    | zero =>
      have hq : q.val.name = d.val.name := by simpa using h
      rw [declare, if_pos hq, List.set_cons_zero]
    | succ k =>
      have hq : q.val.name ≠ d.val.name := by simpa using hfirst 0 k.succ_pos
      have hset : declare d rest = rest.set k d :=
        ih (by simpa using h) fun j hj => by simpa using hfirst (j + 1) (Nat.succ_lt_succ hj)
      rw [declare, if_neg hq, hset, List.set_cons_succ]

/-- What is found under a name after a declaration. -/
theorem find?_declare (d : Declaration P t) (row : List (Declaration P t)) (name : String) :
    (declare d row).find? (·.val.name == name) =
      if d.val.name = name then some d else row.find? (·.val.name == name) := by
  induction row with
  | nil => by_cases h : d.val.name = name <;> simp [declare, h]
  | cons q rest ih =>
    unfold declare
    by_cases hq : q.val.name = d.val.name
    · by_cases h : d.val.name = name <;> simp [hq, h]
    · rw [if_neg hq]
      by_cases h : q.val.name = name
      · have hd : d.val.name ≠ name := fun hd => hq (h.trans hd.symm)
        rw [List.find?_cons_of_pos (by simpa using h), if_neg hd,
          List.find?_cons_of_pos (by simpa using h)]
      · rw [List.find?_cons_of_neg (by simpa using h), ih,
          List.find?_cons_of_neg (by simpa using h)]

/-! ### All declarations -/

/-- The row that declarations make, one after another. -/
def declareAll (ds : List (Declaration P t)) : List (Declaration P t) :=
  ds.foldl (fun row d => declare d row) []

/-- The parameter of the last declaration of a name. -/
def latest? (ds : List (Declaration P t)) (name : String) : Option (Param P) :=
  (ds.reverse.find? (·.val.name == name)).map Subtype.val

theorem eraseDups_concat (names : List String) (name : String) :
    (names ++ [name]).eraseDups =
      if name ∈ names then names.eraseDups else names.eraseDups ++ [name] := by
  rw [List.eraseDups_append, List.removeAll]
  by_cases h : name ∈ names
  · rw [if_pos h, List.filter_cons_of_neg (by simpa using h)]
    simp
  · rw [if_neg h, List.filter_cons_of_pos (by simpa using h)]
    rfl

theorem getElem?_concat_eq_some_iff {names : List String} {name x : String} {i : Nat} :
    (names ++ [x])[i]? = some name ↔ names[i]? = some name ∨ i = names.length ∧ x = name := by
  rcases Nat.lt_trichotomy i names.length with h | rfl | h
  · rw [List.getElem?_append_left h]
    simp [Nat.ne_of_lt h]
  · simp
  · rw [List.getElem?_eq_none (by simp; omega), List.getElem?_eq_none (by omega)]
    simp [Nat.ne_of_gt h]

section Declarations

variable (ds : List (Declaration P t))

theorem declareAll_concat (d : Declaration P t) :
    declareAll (ds ++ [d]) = declare d (declareAll ds) := by
  simp [declareAll]

/-- Each declared name stands once, in the order of the first declarations. -/
theorem map_name_declareAll :
    (declareAll ds).map (·.val.name) = (ds.map (·.val.name)).eraseDups := by
  induction ds using List.reverseRecOn with
  | nil => rfl
  | append_singleton ds d ih =>
    rw [declareAll_concat, map_name_declare, ih, List.map_append, List.map_singleton,
      eraseDups_concat]
    simp only [List.mem_eraseDups]

/-- Under each name stands its last declaration. -/
theorem find?_declareAll (name : String) :
    (declareAll ds).find? (·.val.name == name) = ds.reverse.find? (·.val.name == name) := by
  induction ds using List.reverseRecOn with
  | nil => rfl
  | append_singleton ds d ih =>
    rw [declareAll_concat, find?_declare, ih, List.reverse_concat]
    by_cases h : d.val.name = name
    · rw [if_pos h, List.find?_cons_of_pos (by simpa using h)]
    · rw [if_neg h, List.find?_cons_of_neg (by simpa using h)]

end Declarations

/-! ### The row and its index -/

/-- Parameters in a row, with an index from names to places. -/
structure Table (P : PayloadFamily) (t : P.Name) where
  /-- The parameters. -/
  row : List (Declaration P t)
  /-- The places of their names. -/
  index : Std.HashMap String Nat

namespace Table

/-- The table without parameters. -/
def empty : Table P t := ⟨[], ∅⟩

/-- Enters a declaration, at the place of its name or at the end. There is no table if the
    place is outside of the row. -/
def enter? (T : Table P t) (d : Declaration P t) : Option (Table P t) :=
  match T.index[d.val.name]? with
  | some i => if i < T.row.length then some { T with row := T.row.set i d } else none
  | none => some ⟨T.row ++ [d], T.index.insert d.val.name T.row.length⟩

/-- The table of declarations, if none of their places is outside. -/
def ofDeclarations? (ds : List (Declaration P t)) : Option (Table P t) := ds.foldlM enter? empty

/-- The parameter of a name, if there is one. There is no answer if the place of the name
    is outside of the row. -/
def param? (T : Table P t) (name : String) : Option (Option (Param P)) :=
  match T.index[name]? with
  | some i => T.row[i]?.map fun d => some d.val
  | none => some none

/-- The index knows the place of every name, and no other place. -/
def Indexed (T : Table P t) : Prop :=
  ∀ (name : String) (i : Nat), T.index[name]? = some i ↔ (T.row.map (·.val.name))[i]? = some name

theorem indexed_empty : (empty : Table P t).Indexed := by
  intro name i
  simp [empty]

section Indexed

variable {T : Table P t} (h : T.Indexed)

include h

/-- A name stands at one place only. -/
theorem Indexed.place_unique {name : String} {i j : Nat}
    (hi : (T.row.map (·.val.name))[i]? = some name)
    (hj : (T.row.map (·.val.name))[j]? = some name) : i = j := by
  have hsome := (h name i).mpr hi
  rw [(h name j).mpr hj] at hsome
  exact (Option.some.inj hsome).symm

theorem Indexed.index_eq_none_iff (name : String) :
    T.index[name]? = none ↔ name ∉ T.row.map (·.val.name) := by
  rw [List.mem_iff_getElem?, Option.eq_none_iff_forall_ne_some, not_exists]
  exact forall_congr' fun i => not_congr (h name i)

/-- Entering a declaration never fails and declares it in the row; the index stays right. -/
theorem Indexed.enter (d : Declaration P t) :
    ∃ T', T.enter? d = some T' ∧ T'.Indexed ∧ T'.row = declare d T.row := by
  unfold enter?
  cases hplace : T.index[d.val.name]? with
  | some i =>
    have hi := (h _ i).mp hplace
    have hlt : i < T.row.length := by simpa using (List.getElem?_eq_some_iff.mp hi).1
    have hset : declare d T.row = T.row.set i d := by
      apply declare_of_place hi
      intro j hj hname
      exact Nat.ne_of_lt hj (h.place_unique hname hi)
    refine ⟨_, if_pos hlt, ?_, hset.symm⟩
    -- The names stay where they were.
    have hnames : (T.row.set i d).map (·.val.name) = T.row.map (·.val.name) := by
      rw [← hset, map_name_declare, if_pos (List.mem_of_getElem? hi)]
    intro name j
    rw [hnames]
    exact h name j
  | none =>
    have hnew := (h.index_eq_none_iff _).mp hplace
    refine ⟨_, rfl, ?_, (declare_of_new hnew).symm⟩
    intro name j
    rw [Std.HashMap.getElem?_insert, List.map_append, List.map_singleton,
      getElem?_concat_eq_some_iff, List.length_map]
    by_cases hname : d.val.name = name
    · rw [if_pos (by simpa using hname)]
      constructor
      · intro hj
        exact .inr ⟨(Option.some.inj hj).symm, hname⟩
      · rintro (hj | ⟨rfl, -⟩)
        · exact absurd (hname ▸ List.mem_of_getElem? hj) hnew
        · rfl
    · rw [if_neg (by simpa using hname), h name j]
      simp [hname]

/-- Declarations are entered one after another. -/
theorem Indexed.enterAll (ds : List (Declaration P t)) :
    ∃ T', ds.foldlM enter? T = some T' ∧ T'.Indexed ∧
      T'.row = ds.foldl (fun row d => declare d row) T.row := by
  induction ds generalizing T with
  | nil => exact ⟨T, rfl, h, rfl⟩
  | cons d rest ih =>
    obtain ⟨U, hU, hindexed, hrow⟩ := h.enter d
    obtain ⟨T', hT', hindexed', hrow'⟩ := ih hindexed
    refine ⟨T', ?_, hindexed', ?_⟩
    · rw [List.foldlM_cons, hU]
      exact hT'
    · rw [hrow', hrow, List.foldl_cons]

/-- A look-up never fails and finds what a search of the row finds. -/
theorem Indexed.param?_eq (name : String) :
    T.param? name = some ((T.row.find? (·.val.name == name)).map Subtype.val) := by
  unfold param?
  cases hplace : T.index[name]? with
  | none =>
    have hnone : T.row.find? (·.val.name == name) = none := by
      rw [List.find?_eq_none]
      intro d hd hname
      apply (h.index_eq_none_iff name).mp hplace
      rw [← eq_of_beq hname]
      exact List.mem_map_of_mem hd
    rw [hnone]
    rfl
  | some i =>
    have hi := (h name i).mp hplace
    obtain ⟨d, hd, hname⟩ := Option.map_eq_some_iff.mp (List.getElem?_map ▸ hi)
    cases hfind : T.row.find? (·.val.name == name) with
    | none =>
      have hne := List.find?_eq_none.mp hfind d (List.mem_of_getElem? hd)
      simp [hname] at hne
    | some e =>
      -- What the search finds stands at the same place.
      obtain ⟨j, hj⟩ := List.mem_iff_getElem?.mp (List.mem_of_find?_eq_some hfind)
      have hname' : e.val.name = name := by simpa using List.find?_some hfind
      have hplace' : (T.row.map (·.val.name))[j]? = some name := by
        rw [List.getElem?_map, hj, Option.map_some, hname']
      have he : T.row[i]? = some e := by rw [h.place_unique hi hplace', hj]
      simp only [he, Option.map_some]

end Indexed

theorem exists_ofDeclarations? (ds : List (Declaration P t)) :
    ∃ T, ofDeclarations? ds = some T ∧ T.Indexed ∧ T.row = declareAll ds :=
  indexed_empty.enterAll ds

end Table

/-! ### Parameters by name -/

theorem param?_eq_some_iff {c : ObjectClass P} (hc : c.WellFormed) {name : String} {p : Param P} :
    c.param? name = some p ↔ p ∈ c.params ∧ p.name = name := by
  constructor
  · intro h
    exact ⟨mem_of_param? h, name_of_param? h⟩
  · rintro ⟨hp, rfl⟩
    exact param?_of_mem hc hp

theorem param?_eq_none_iff {c : ObjectClass P} {name : String} :
    c.param? name = none ↔ name ∉ c.params.map Param.name := by
  simp [param?, List.find?_eq_none]

section Build

variable (tag : TypeTag) (construct : Option (P.Data t)) (ds : List (Declaration P t))

theorem map_name_params_build :
    (build tag t construct ds).params.map Param.name = (ds.map (·.val.name)).eraseDups := by
  rw [← map_name_declareAll]
  exact List.map_map

theorem param?_build (name : String) :
    (build tag t construct ds).param? name = latest? ds name := by
  unfold latest?
  rw [← find?_declareAll]
  exact List.find?_map

/-- A table that keeps the parameters of a class: the row is theirs, the index has just the
    places of their names, and a look-up answers as the class does without leaving the row. -/
structure Table.Keeps (T : Table P t) (c : ObjectClass P) : Prop where
  row : T.row.map Subtype.val = c.params
  index : ∀ (name : String) (i : Nat),
    T.index[name]? = some i ↔ ∃ h : i < c.params.length, c.params[i].name = name
  param? : ∀ name, T.param? name = some (c.param? name)

theorem exists_keeps_build :
    ∃ T : Table P t, Table.ofDeclarations? ds = some T ∧ T.Keeps (build tag t construct ds) := by
  obtain ⟨T, hT, hindexed, hrow⟩ := Table.exists_ofDeclarations? ds
  have hparams : T.row.map Subtype.val = (build tag t construct ds).params := by
    rw [hrow]
    rfl
  have hnames : T.row.map (·.val.name) = (build tag t construct ds).params.map Param.name := by
    rw [← hparams, List.map_map]
    rfl
  refine ⟨T, hT, hparams, ?index, ?param?⟩
  case index =>
    intro name i
    rw [hindexed name i, hnames, List.getElem?_eq_some_iff]
    simp
  case param? =>
    intro name
    rw [hindexed.param?_eq, hrow, find?_declareAll, param?_build]
    rfl

end Build

/-! ### Consistent classes -/

/-- A class that has one parameter for each declared name. -/
structure Tabulates (c : ObjectClass P) (ds : List (Declaration P t)) : Prop where
  /-- The names are in the order of the first declarations. -/
  names : c.params.map Param.name = (ds.map (·.val.name)).eraseDups
  /-- Each parameter is what the last declaration of its name says. -/
  latest : ∀ p, p ∈ c.params ↔ latest? ds p.name = some p
  /-- The row and its index are made without leaving the row, and they keep the class. -/
  table : ∃ T : Table P t, Table.ofDeclarations? ds = some T ∧ T.Keeps c
  /-- A name is answered by the parameter of that name. -/
  declared : ∀ name p, c.param? name = some p ↔ p ∈ c.params ∧ p.name = name
  /-- No other name is answered. -/
  undeclared : ∀ name, c.param? name = none ↔ name ∉ ds.map (·.val.name)
  /-- The parameters that can be set, and the side-table, in order. -/
  copyable : c.copyable.Sublist c.params ∧
    ∀ p, p ∈ c.copyable ↔ p ∈ c.params ∧ (p.HasSetter ∨ p.accessor = .slots)
  /-- The parameters of a kind that points at entities, in order. -/
  references : c.references.Sublist c.params ∧
    ∀ p, p ∈ c.references ↔ p ∈ c.params ∧
      (p.kind = .choice ∨ p.kind = .collection ∨ ∃ target, p.kind = .reference target)

/-- Whatever names are declared, in whatever order and however often, the class that is
    built has one parameter for each of them. -/
theorem table_is_consistent (tag : TypeTag) (construct : Option (P.Data t))
    (ds : List (Declaration P t)) : (build tag t construct ds).Tabulates ds where
  names := map_name_params_build tag construct ds
  latest p := by
    rw [← param?_build tag construct, param?_eq_some_iff (wellFormed_build tag t construct ds)]
    exact (and_iff_left rfl).symm
  table := exists_keeps_build tag construct ds
  declared _ _ := param?_eq_some_iff (wellFormed_build tag t construct ds)
  undeclared name := by
    rw [param?_eq_none_iff, map_name_params_build, List.mem_eraseDups]
  copyable := by
    refine ⟨List.filter_sublist, ?_⟩
    intro p
    rw [copyable, List.mem_filter, p.isCopyable_iff]
  references := by
    refine ⟨List.filter_sublist, ?_⟩
    intro p
    rw [references, List.mem_filter, p.isReference_iff]

/-- A label that is declared again, now only to be read, stays in front of the count. -/
example :
    let label (readOnly : Bool) := Bag.param .alpha (.scalar .string) "" readOnly "label" "label"
    let count := Bag.param .alpha (.scalar .int64) "" false "count" "count"
    (build (P := bags) "node" .alpha none [label false, count, label true]).params.map
      (fun p => (p.name, p.isReadOnly)) = [("label", true), ("count", false)] := by decide

end ObjectClass

end EntityBook
