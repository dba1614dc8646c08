import EntityBook.Copy.Basic
import EntityBook.Proofs.Book.WellFormed

/-! # Who refers to whom

  The relation between entities that a recursive copy follows, said by the values
  of parameters, and the distance it gives. `referencesOf` lists one entity's
  references in some order and with repetitions; `unseen` makes of such a list
  what the walk has still to visit.
-/

namespace EntityBook

variable {P : PayloadFamily}

/-! ### The relation -/

/-- Whether a value points at an entity. The type of the entities that a
    reference or a collection points at comes with the parameter. -/
def ParamValue.PointsAt (v : ParamValue) (fixed : Option TypeTag) (t : Entity) : Prop :=
  match v with
  | .reference target => target = some t.guid ∧ fixed = some t.typeTag
  | .choice target => target = some t
  | .collection members => t.guid ∈ members ∧ fixed = some t.typeTag
  | _ => False

/-- A parameter of an instance points at an entity; null identifiers are none. -/
def Instance.PointsAt (i : Instance P) (p : Param P) (t : Entity) : Prop :=
  t.guid.isNull = false ∧
    ∃ v, i.value? p.accessor = some v ∧ v.PointsAt p.accessor.targetType t

/-- A live entity of a book refers to another entity by one of the parameters of
    its class. -/
def Book.Refers (b : Book P) (e t : Entity) : Prop :=
  ∃ i c p, b.get? e = some i ∧ b.registry.find? e.typeTag = some c ∧ p ∈ c.params ∧
    i.PointsAt p t

/-- A path of so many references. -/
inductive Book.Path (b : Book P) : Nat → Entity → Entity → Prop where
  | here (e : Entity) : Path b 0 e e
  | step {n : Nat} {r d e : Entity} : Path b n r d → b.Refers d e → Path b (n + 1) r e

/-- The entities at a distance of at most `n` from a root. -/
def Book.Within (b : Book P) (roots : Entity → Prop) (n : Nat) (e : Entity) : Prop :=
  ∃ r, roots r ∧ ∃ k, k ≤ n ∧ b.Path k r e

namespace Book

variable {b : Book P} {roots : Entity → Prop}

theorem within_zero {e : Entity} : b.Within roots 0 e ↔ roots e := by
  constructor
  · rintro ⟨r, hr, k, hk, hp⟩
    have hk : k = 0 := by omega
    subst hk
    cases hp
    exact hr
  · intro h
    exact ⟨e, h, 0, Nat.le_refl 0, .here e⟩

theorem within_succ {n : Nat} {e : Entity} :
    b.Within roots (n + 1) e ↔
      b.Within roots n e ∨ ∃ d, b.Within roots n d ∧ b.Refers d e := by
  constructor
  · rintro ⟨r, hr, k, hk, hp⟩
    cases hp with
    | here => exact Or.inl ⟨_, hr, 0, Nat.zero_le n, .here _⟩
    | @step m _ d _ hp hd => exact Or.inr ⟨d, ⟨r, hr, m, by omega, hp⟩, hd⟩
  · rintro (⟨r, hr, k, hk, hp⟩ | ⟨d, ⟨r, hr, k, hk, hp⟩, hd⟩)
    · exact ⟨r, hr, k, by omega, hp⟩
    · exact ⟨r, hr, k + 1, by omega, .step hp hd⟩

end Book

/-! ### The lists of references -/

theorem Instance.mem_references {i : Instance P} {p : Param P} {ts : List Entity}
    (h : i.references p = .ok ts) (t : Entity) : t ∈ ts ↔ i.PointsAt p t := by
  unfold references at h
  unfold PointsAt
  obtain ⟨tag, g⟩ := t
  -- One case for each accessor: values and slots refer to nothing.
  cases ha : p.accessor with
  | scalar k f =>
    simp only [ha, Except.ok.injEq] at h
    cases h
    cases f.read? i.payload <;> simp [value?, ParamValue.PointsAt]
  | slots | book =>
    simp only [ha, Except.ok.injEq] at h
    cases h
    simp [value?, ParamValue.PointsAt]
  | reference target f =>
    simp only [ha] at h
    cases hf : f.read? i.payload with
    | none => simp [hf] at h
    | some v =>
      simp only [hf, Except.ok.injEq] at h
      subst h
      cases v with
      | none => simp [value?, hf, ParamValue.PointsAt]
      | some w =>
        simp only [value?, hf, ParamValue.PointsAt, Accessor.targetType, Option.toList_some,
          List.map_cons, List.map_nil, List.mem_filter, List.mem_singleton, Entity.mk.injEq,
          Option.map_some, Option.some.injEq, exists_eq_left', Bool.not_eq_true']
        constructor
        · rintro ⟨⟨rfl, rfl⟩, hn⟩
          exact ⟨hn, rfl, rfl⟩
        · rintro ⟨hn, rfl, rfl⟩
          exact ⟨⟨rfl, rfl⟩, hn⟩
  -- A choice names its type itself; the other two take it from the accessor.
  | choice f =>
    simp only [ha] at h
    cases hf : f.read? i.payload with
    | none => simp [hf] at h
    | some v =>
      simp only [hf, Except.ok.injEq] at h
      subst h
      simp only [value?, hf, ParamValue.PointsAt, List.mem_filter, Option.mem_toList,
        Option.map_some, Option.some.injEq, exists_eq_left', Bool.not_eq_true']
      exact and_comm
  | collection target f =>
    simp only [ha] at h
    cases hf : f.read? i.payload with
    | none => simp [hf] at h
    | some gs =>
      simp only [hf, Except.ok.injEq] at h
      subst h
      simp only [value?, hf, ParamValue.PointsAt, Accessor.targetType, List.mem_filter,
        List.mem_map, Entity.mk.injEq, Option.map_some, Option.some.injEq, exists_eq_left',
        Bool.not_eq_true']
      constructor
      · rintro ⟨⟨w, hw, rfl, rfl⟩, hn⟩
        exact ⟨hn, hw, rfl⟩
      · rintro ⟨hn, hw, rfl⟩
        exact ⟨⟨g, hw, rfl, rfl⟩, hn⟩

/-- Where the references of a parameter cannot be listed, it points at nothing. -/
theorem Instance.not_pointsAt_of_error {i : Instance P} {p : Param P} {err : StoreError}
    (h : i.references p = .error err) (t : Entity) : ¬ i.PointsAt p t := by
  rintro ⟨_, v, hv, _⟩
  unfold references at h
  unfold value? at hv
  cases ha : p.accessor with
  | scalar | slots | book => simp [ha] at h
  | reference _ f | choice f | collection _ f =>
    cases hf : f.read? i.payload with
    | none => simp [ha, hf] at hv
    | some w => simp [ha, hf] at h

/-- Only a parameter that is a reference points at anything. -/
theorem Instance.isReference_of_pointsAt {i : Instance P} {p : Param P} {t : Entity}
    (h : i.PointsAt p t) : p.isReference = true := by
  obtain ⟨_, v, hv, hp⟩ := h
  have hk := hasKind_value hv
  unfold Param.isReference Param.kind
  cases ha : p.accessor with
  | reference | choice | collection => rfl
  | scalar | slots | book =>
    rw [ha] at hk
    cases v with
    | reference | choice | collection => cases hk
    | scalar | slots | book => cases hp

/-- The references that are listed of an entity are those it has. -/
theorem Book.mem_referencesOf {b : Book P} {e t : Entity} :
    t ∈ b.referencesOf e ↔ b.Refers e t := by
  unfold referencesOf Refers
  cases hi : b.get? e with
  | none => simp
  | some i =>
    cases hc : b.registry.find? e.typeTag with
    | none => simp
    | some c =>
      simp only [List.mem_flatMap, Option.some.injEq, exists_eq_left', exists_and_left]
      constructor
      · rintro ⟨p, hp, ht⟩
        have hp := (List.mem_filter.mp hp).1
        cases hr : i.references p with
        | error err => simp [hr] at ht
        | ok ts =>
          simp only [hr] at ht
          exact ⟨p, hp, (Instance.mem_references hr t).mp ht⟩
      · rintro ⟨p, hp, ht⟩
        refine ⟨p, List.mem_filter.mpr ⟨hp, Instance.isReference_of_pointsAt ht⟩, ?_⟩
        cases hr : i.references p with
        | error err => exact absurd ht (Instance.not_pointsAt_of_error hr t)
        | ok ts => exact (Instance.mem_references hr t).mpr ht

/-! ### What is still to visit -/

namespace Book

theorem mem_unseen {seen l : List Entity} {e : Entity} :
    e ∈ unseen seen l ↔ e ∈ l ∧ e ∉ seen := by
  induction l generalizing seen with
  | nil => simp [unseen]
  | cons d rest ih =>
    unfold unseen
    -- A head that was seen is dropped; any other is kept and counts as seen from then on.
    by_cases hd : d ∈ seen
    · rw [if_pos (by simpa using hd), ih]
      constructor
      · rintro ⟨h, hn⟩
        exact ⟨List.mem_cons_of_mem d h, hn⟩
      · rintro ⟨h, hn⟩
        rcases List.mem_cons.mp h with rfl | h
        · exact absurd hd hn
        · exact ⟨h, hn⟩
    · rw [if_neg (by simpa using hd), List.mem_cons, ih]
      by_cases he : e = d
      · subst he
        simp [hd]
      · simp [he]

theorem nodup_unseen (seen l : List Entity) : (unseen seen l).Nodup := by
  induction l generalizing seen with
  | nil => exact List.nodup_nil
  | cons d rest ih =>
    unfold unseen
    split
    · exact ih seen
    · refine List.nodup_cons.mpr ⟨fun h => ?_, ih _⟩
      exact (mem_unseen.mp h).2 List.mem_cons_self

end Book

end EntityBook
