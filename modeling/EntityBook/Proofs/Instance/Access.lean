import EntityBook.Class.Basic
import EntityBook.Instance.Access

/-! # Laws of reading and writing

  What a write leaves alone, when it succeeds, and what a later read sees. The
  functions of a field are the user's; a class is lawful when reading gives what
  was written last and no two writable parameters share their storage.
-/

namespace EntityBook

variable {P : PayloadFamily}

/-! ### Shapes of values -/

/-- Whether a value has the shape of a kind. -/
def ParamValue.HasKind : ParamValue → ParamKind → Prop
  | .scalar k _, .scalar l => k = l
  | .slots _, .slots => True
  | .reference _, .reference _ => True
  | .choice _, .choice => True
  | .collection _, .collection => True
  | .book _, .book => True
  | _, _ => False

theorem ParamValue.hasKind_of_parse {k : ParamKind} {s : String} {v : ParamValue}
    (h : ParamValue.parse k s = .ok v) : v.HasKind k := by
  unfold ParamValue.parse at h
  cases k with
  | slots => cases h
  | scalar k =>
    simp only [ParamValue.read, Except.map] at h
    split at h <;> cases h
    rfl
  | collection =>
    simp only [ParamValue.read, Except.map] at h
    split at h <;> cases h
    trivial
  | choice =>
    simp only [ParamValue.read, Except.map] at h
    split at h <;> cases h
    trivial
  | book =>
    simp only [ParamValue.read, Except.map] at h
    split at h <;> cases h
    trivial
  | reference target =>
    simp only [ParamValue.read, Except.map] at h
    split at h <;> cases h
    trivial

namespace Instance

/-! ### What a change of values leaves alone -/

/-- One instance is another with, at most, other values: the entity, the owner,
    the open edits and the type of the payload are the same. -/
structure Rewrites (i j : Instance P) : Prop where
  entity : j.entity = i.entity
  owner : j.owner = i.owner
  level : j.level = i.level
  deleting : j.deleting = i.deleting
  payload : j.payload.type = i.payload.type

namespace Rewrites

theorem refl (i : Instance P) : i.Rewrites i := ⟨rfl, rfl, rfl, rfl, rfl⟩

theorem trans {i j k : Instance P} (h : i.Rewrites j) (h' : j.Rewrites k) : i.Rewrites k :=
  ⟨h'.entity.trans h.entity, h'.owner.trans h.owner, h'.level.trans h.level,
    h'.deleting.trans h.deleting, h'.payload.trans h.payload⟩

theorem withSlots (i : Instance P) (f : Frame) : i.Rewrites (i.withSlots f) :=
  ⟨rfl, rfl, rfl, rfl, rfl⟩

theorem withPayload {i : Instance P} {q : Payload P} (h : q.type = i.payload.type) :
    i.Rewrites (i.withPayload q) := ⟨rfl, rfl, rfl, rfl, h⟩

end Rewrites

/-- A successful write through a field replaces the payload. -/
theorem writeField_cases {V : Type} {i j : Instance P} {p : Param P} {f : Field P V} {v : V}
    (h : i.writeField p f v = .ok j) :
    ∃ set d, f.set = some set ∧ i.payload.as? f.type = some d ∧
      j = i.withPayload ⟨f.type, set d v⟩ := by
  unfold writeField at h
  split at h
  · cases h
  · next set hset =>
    split at h
    · next d hd => exact ⟨set, d, hset, hd, by cases h; rfl⟩
    · cases h

/-- A successful write replaces the side-table or the payload. -/
theorem write_cases {i j : Instance P} {p : Param P} {v : ParamValue} (h : i.write p v = .ok j) :
    (∃ f, p.accessor = .slots ∧ v = .slots f ∧ j = i.withSlots f) ∨
    (∃ q : Payload P, q.type = i.payload.type ∧ p.accessor ≠ .slots ∧ j = i.withPayload q) := by
  -- All fields are written alike: the payload is replaced by one of its type.
  have field {V : Type} {f : Field P V} {w : V} (hp : p.accessor ≠ .slots)
      (h : i.writeField p f w = .ok j) :
      ∃ q : Payload P, q.type = i.payload.type ∧ p.accessor ≠ .slots ∧ j = i.withPayload q := by
    obtain ⟨set, d, _, hd, rfl⟩ := writeField_cases h
    exact ⟨_, by rw [Payload.eq_mk_of_as? hd], hp, rfl⟩
  unfold write at h
  split at h
  · next hk =>
    split at h
    · exact Or.inr (field (by simp [hk]) h)
    · cases h
  · next hk =>
    cases h
    exact Or.inl ⟨_, hk, rfl, rfl⟩
  · next hk => exact Or.inr (field (by simp [hk]) h)
  · next hk => exact Or.inr (field (by simp [hk]) h)
  · next hk => exact Or.inr (field (by simp [hk]) h)
  · cases h
  · cases h

theorem rewrites_write {i j : Instance P} {p : Param P} {v : ParamValue}
    (h : i.write p v = .ok j) : i.Rewrites j := by
  rcases write_cases h with ⟨f, _, _, rfl⟩ | ⟨q, hq, _, rfl⟩
  · exact .withSlots i f
  · exact .withPayload hq

/-- A text is written as the value it reads as. -/
theorem writeText_cases {i j : Instance P} {p : Param P} {s : String}
    (h : i.writeText p s = .ok j) :
    p.isReadOnly = false ∧ ∃ v, ParamValue.parse p.kind s = .ok v ∧ i.write p v = .ok j := by
  unfold writeText at h
  split at h
  · cases h
  · next hro =>
    split at h
    · next v hv => exact ⟨by simpa using hro, v, hv, h⟩
    · cases h

theorem rewrites_writeText {i j : Instance P} {p : Param P} {s : String}
    (h : i.writeText p s = .ok j) : i.Rewrites j := by
  obtain ⟨_, v, _, hw⟩ := writeText_cases h
  exact rewrites_write hw

theorem rewrites_link {i j : Instance P} {p : Param P} {t : Entity} (h : i.link p t = .ok j) :
    i.Rewrites j := by
  unfold link at h
  split at h
  · exact rewrites_write h
  · exact rewrites_write h
  · split at h
    · cases h
    · split at h
      · cases h
        exact .refl _
      · exact rewrites_write h
  · cases h

theorem rewrites_copyParam {source dest j : Instance P} {p : Param P} {t : Transfer}
    (h : source.copyParam dest p = .ok (t, j)) : dest.Rewrites j := by
  unfold copyParam at h
  split at h
  · cases h
    exact .refl _
  · cases h
    exact .withSlots _ _
  · split at h
    · cases h
      exact .refl _
    · split at h
      · cases h
      · next v _ =>
        cases hw : dest.write p v with
        | error e => simp [hw, Except.map] at h
        | ok k =>
          simp only [hw, Except.map, Except.ok.injEq, Prod.mk.injEq] at h
          exact h.2 ▸ rewrites_write hw
  · cases hr : source.references p with
    | error e => simp [hr, Except.map] at h
    | ok ts =>
      simp only [hr, Except.map, Except.ok.injEq, Prod.mk.injEq] at h
      exact h.2 ▸ .refl _

/-! ### When access succeeds -/

theorem exists_read? {V : Type} {f : Field P V} {q : Payload P} (h : f.type = q.type) :
    ∃ v, f.read? q = some v := by
  cases hd : q.as? f.type with
  | none => exact absurd h.symm (Payload.as?_eq_none_iff.mp hd)
  | some d => exact ⟨f.get d, by simp [Field.read?, hd]⟩

/-- A parameter made for the payload of an instance can be read. -/
theorem exists_value {i : Instance P} {p : Param P} (h : p.isFor i.payload.type = true) :
    ∃ v, i.value? p.accessor = some v := by
  unfold Param.isFor at h
  -- Slots and book are always there; the others read a field of the payload.
  cases ha : p.accessor with
  | scalar k f =>
    obtain ⟨v, hv⟩ := exists_read? (f := f) (by simpa [ha, Accessor.payloadType?] using h)
    exact ⟨.scalar k v, by simp [value?, hv]⟩
  | slots => exact ⟨_, rfl⟩
  | reference t f =>
    obtain ⟨v, hv⟩ := exists_read? (f := f) (by simpa [ha, Accessor.payloadType?] using h)
    exact ⟨.reference v, by simp [value?, hv]⟩
  | choice f =>
    obtain ⟨v, hv⟩ := exists_read? (f := f) (by simpa [ha, Accessor.payloadType?] using h)
    exact ⟨.choice v, by simp [value?, hv]⟩
  | collection t f =>
    obtain ⟨v, hv⟩ := exists_read? (f := f) (by simpa [ha, Accessor.payloadType?] using h)
    exact ⟨.collection v, by simp [value?, hv]⟩
  | book => exact ⟨_, rfl⟩

/-- What is read has the shape of the parameter. -/
theorem hasKind_value {i : Instance P} {a : Accessor P} {v : ParamValue}
    (h : i.value? a = some v) : v.HasKind a.kind := by
  cases a with
  | slots | book =>
    cases h
    trivial
  | scalar k f =>
    obtain ⟨w, _, rfl⟩ := Option.map_eq_some_iff.mp h
    rfl
  | reference t f =>
    obtain ⟨w, _, rfl⟩ := Option.map_eq_some_iff.mp h
    trivial
  | choice f =>
    obtain ⟨w, _, rfl⟩ := Option.map_eq_some_iff.mp h
    trivial
  | collection t f =>
    obtain ⟨w, _, rfl⟩ := Option.map_eq_some_iff.mp h
    trivial

theorem exists_writeField {V : Type} {i : Instance P} {p : Param P} {f : Field P V} {v : V}
    (hro : f.isReadOnly = false) (h : f.type = i.payload.type) :
    ∃ j, i.writeField p f v = .ok j := by
  unfold Field.isReadOnly at hro
  cases hs : f.set with
  | none => simp [hs] at hro
  | some set =>
    cases hd : i.payload.as? f.type with
    | none => exact absurd h.symm (Payload.as?_eq_none_iff.mp hd)
    | some d => exact ⟨i.withPayload ⟨f.type, set d v⟩, by simp only [writeField, hs, hd]⟩

/-- A value of the right shape can be written to a writable parameter. -/
theorem exists_write {i : Instance P} {p : Param P} {v : ParamValue} (hro : p.isReadOnly = false)
    (h : p.isFor i.payload.type = true) (hv : v.HasKind p.kind) : ∃ j, i.write p v = .ok j := by
  unfold Param.isFor at h
  unfold Param.isReadOnly at hro
  unfold Param.kind at hv
  unfold write
  -- In each case the shape of the value is the one that the write expects.
  cases ha : p.accessor with
  | scalar k f =>
    simp only [ha, Accessor.kind, Accessor.isReadOnly, Accessor.payloadType?, beq_iff_eq]
      at h hro hv
    cases v with
    | scalar l w =>
      cases hv
      simpa using exists_writeField hro h
    | _ => cases hv
  | slots =>
    rw [ha] at hv
    cases v with
    | slots f => exact ⟨_, rfl⟩
    | _ => cases hv
  | reference t f =>
    simp only [ha, Accessor.kind, Accessor.isReadOnly, Accessor.payloadType?, beq_iff_eq]
      at h hro hv
    cases v with
    | reference w => exact exists_writeField hro h
    | _ => cases hv
  | choice f =>
    simp only [ha, Accessor.kind, Accessor.isReadOnly, Accessor.payloadType?, beq_iff_eq]
      at h hro hv
    cases v with
    | choice w => exact exists_writeField hro h
    | _ => cases hv
  | collection t f =>
    simp only [ha, Accessor.kind, Accessor.isReadOnly, Accessor.payloadType?, beq_iff_eq]
      at h hro hv
    cases v with
    | collection w => exact exists_writeField hro h
    | _ => cases hv
  | book =>
    simp [ha, Accessor.isReadOnly] at hro

end Instance

/-! ### Lawful classes -/

/-- Reading gives what was written last. -/
def Accessor.IsLawful : Accessor P → Prop
  | .scalar _ f => f.IsLawful
  | .slots => True
  | .reference _ f => f.IsLawful
  | .choice f => f.IsLawful
  | .collection _ f => f.IsLawful
  | .book => True

/-- No write to one parameter shows through the other. -/
def Param.Independent (p q : Param P) : Prop :=
  ∀ (i j : Instance P) (v : ParamValue), i.write p v = .ok j →
    j.value? q.accessor = i.value? q.accessor

/-- The writable parameters read back what was written, each for itself. -/
structure ObjectClass.IsLawful (c : ObjectClass P) : Prop where
  accessor : ∀ p ∈ c.copyable, p.accessor.IsLawful
  independent : ∀ p ∈ c.copyable, ∀ q ∈ c.copyable, p.name ≠ q.name → p.Independent q

namespace Instance

theorem read?_writeField {V : Type} {i j : Instance P} {p : Param P} {f : Field P V} {v : V}
    (hf : f.IsLawful) (h : i.writeField p f v = .ok j) : f.read? j.payload = some v := by
  obtain ⟨set, d, hset, _, rfl⟩ := writeField_cases h
  simp [withPayload, Field.read?, hf set hset d v]

/-- A lawful parameter reads as what was written. -/
theorem value?_write_self {i j : Instance P} {p : Param P} {v : ParamValue}
    (hp : p.accessor.IsLawful) (h : i.write p v = .ok j) : j.value? p.accessor = some v := by
  unfold write at h
  unfold Accessor.IsLawful at hp
  split at h
  · next k f l w hk =>
    split at h
    · next hl =>
      subst hl
      rw [hk] at hp ⊢
      simp [value?, read?_writeField hp h]
    · cases h
  · next hk =>
    cases h
    rw [hk]
    rfl
  · next hk =>
    rw [hk] at hp ⊢
    simp [value?, read?_writeField hp h]
  · next hk =>
    rw [hk] at hp ⊢
    simp [value?, read?_writeField hp h]
  · next hk =>
    rw [hk] at hp ⊢
    simp [value?, read?_writeField hp h]
  · cases h
  · cases h

end Instance

end EntityBook
