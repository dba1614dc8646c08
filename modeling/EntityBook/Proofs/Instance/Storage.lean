import EntityBook.Proofs.Instance.Access

/-! # Where parameters are stored

  A write replaces the side-table, or the payload through one field. `write_storage` says
  which, and everything else about a successful write follows: what it needed, what it
  leaves alone, and that two parameters are independent if what is set through the field
  of one is not seen through the field of the other.
-/

namespace EntityBook

variable {P : PayloadFamily}

/-! ### Fields -/

namespace Field

variable {V W : Type}

/-- What is set through one field is not seen through the other. -/
def Apart (f : Field P V) (g : Field P W) : Prop :=
  ∀ set, f.set = some set → ∀ (h : f.type = g.type) d v, g.get (h ▸ set d v) = g.get (h ▸ d)

/-- Setting a value twice is setting it once. -/
def IsStable (f : Field P V) : Prop :=
  ∀ set, f.set = some set → ∀ d v, set (set d v) v = set d v

theorem Apart.read?_eq {f : Field P V} {g : Field P W} (h : f.Apart g)
    {set : P.Data f.type → V → P.Data f.type} (hset : f.set = some set) (d : P.Data f.type)
    (v : V) : g.read? ⟨f.type, set d v⟩ = g.read? ⟨f.type, d⟩ := by
  unfold read? Payload.as?
  by_cases ht : f.type = g.type
  · rw [dif_pos ht, dif_pos ht]
    exact congrArg some (h set hset ht d v)
  · rw [dif_neg ht, dif_neg ht]

end Field

/-- The field behind an accessor, with the type of its values. -/
def Accessor.field? : Accessor P → Option (Σ V : Type, Field P V)
  | .scalar _ f => some ⟨_, f⟩
  | .slots => none
  | .reference _ f => some ⟨_, f⟩
  | .choice f => some ⟨_, f⟩
  | .collection _ f => some ⟨_, f⟩
  | .book => none

namespace Param

/-- Two parameters share no storage: they are not both the side-table, and nothing set
    through the field of the first is seen through the field of the second. -/
structure Apart (p q : Param P) : Prop where
  slots : ¬ (p.isSlots = true ∧ q.isSlots = true)
  fields : ∀ f g, p.accessor.field? = some f → q.accessor.field? = some g → f.2.Apart g.2

/-- A parameter whose field, if it has one, can be set twice. -/
def IsStable (p : Param P) : Prop := ∀ f, p.accessor.field? = some f → f.2.IsStable

theorem isReadOnly_of_field {p : Param P} {f : Σ V : Type, Field P V}
    (h : p.accessor.field? = some f) : p.isReadOnly = f.2.isReadOnly := by
  unfold isReadOnly
  cases ha : p.accessor with
  | slots | book =>
    rw [ha] at h
    cases h
  | scalar | reference | choice | collection =>
    rw [ha] at h
    cases h
    rfl

theorem isFor_of_field {p : Param P} {f : Σ V : Type, Field P V}
    (h : p.accessor.field? = some f) (t : P.Name) : p.isFor t = (f.2.type == t) := by
  unfold isFor
  cases ha : p.accessor with
  | slots | book =>
    rw [ha] at h
    cases h
  | scalar | reference | choice | collection =>
    rw [ha] at h
    cases h
    rfl

end Param

namespace Instance

variable {i j : Instance P} {p q : Param P} {v : ParamValue}

/-! ### Reading -/

theorem read_of_value (h : i.value? p.accessor = some v) : i.read p = .ok v := by
  unfold read
  rw [h]

theorem value?_of_read (h : i.read p = .ok v) : i.value? p.accessor = some v := by
  unfold read at h
  split at h
  · next w hw =>
    cases h
    exact hw
  · cases h

/-- What is read depends on the value and, for an error, on the entity. -/
theorem read_congr (he : j.entity = i.entity) (hv : j.value? p.accessor = i.value? p.accessor) :
    j.read p = i.read p := by
  unfold read mismatch
  rw [hv, he]

/-! ### What a write replaces -/

/-- A successful write replaces the side-table, or the payload through the field of the
    parameter. -/
theorem write_storage (h : i.write p v = .ok j) :
    (∃ frame, p.accessor = .slots ∧ v = .slots frame ∧ j = i.withSlots frame) ∨
    ∃ f set d w, p.accessor.field? = some f ∧ f.2.set = some set ∧
      i.payload.as? f.2.type = some d ∧ j = i.withPayload ⟨f.2.type, set d w⟩ := by
  have field {V : Type} {f : Field P V} {w : V} (hf : p.accessor.field? = some ⟨V, f⟩)
      (h : i.writeField p f w = .ok j) :
      ∃ f set d w, p.accessor.field? = some f ∧ f.2.set = some set ∧
        i.payload.as? f.2.type = some d ∧ j = i.withPayload ⟨f.2.type, set d w⟩ := by
    obtain ⟨set, d, hset, hd, hj⟩ := writeField_cases h
    exact ⟨⟨V, f⟩, set, d, w, hf, hset, hd, hj⟩
  unfold write at h
  split at h
  · next ha =>
    split at h
    · exact .inr (field (by rw [ha]; rfl) h)
    · cases h
  · next ha =>
    cases h
    exact .inl ⟨_, ha, rfl, rfl⟩
  · next ha => exact .inr (field (by rw [ha]; rfl) h)
  · next ha => exact .inr (field (by rw [ha]; rfl) h)
  · next ha => exact .inr (field (by rw [ha]; rfl) h)
  · cases h
  · cases h

theorem hasKind_of_write (h : i.write p v = .ok j) : v.HasKind p.kind := by
  unfold Param.kind
  unfold write at h
  generalize p.accessor = a at h ⊢
  cases a with
  | scalar k f =>
    cases v with
    | scalar l w =>
      dsimp only at h
      split at h
      · next hk => exact hk
      · cases h
    | _ => cases h
  | slots | reference | choice | collection =>
    cases v <;> trivial
  | book => cases h

/-- A write succeeds just if the value has the shape of the parameter, the parameter can be
    written and the payload is of its type. -/
theorem exists_write_iff : (∃ j, i.write p v = .ok j) ↔
    v.HasKind p.kind ∧ p.isReadOnly = false ∧ p.isFor i.payload.type = true := by
  constructor
  · rintro ⟨j, h⟩
    refine ⟨hasKind_of_write h, ?_⟩
    rcases write_storage h with ⟨_, ha, _, _⟩ | ⟨f, set, d, _, hf, hset, hd, _⟩
    · simp [Param.isReadOnly, Param.isFor, ha, Accessor.isReadOnly, Accessor.payloadType?]
    · rw [Param.isReadOnly_of_field hf, Param.isFor_of_field hf, Payload.eq_mk_of_as? hd]
      simp [Field.isReadOnly, hset]
  · rintro ⟨hv, hro, hfor⟩
    exact exists_write hro hfor hv

theorem dirty_of_write (h : i.write p v = .ok j) : j.dirty = true := by
  rcases write_storage h with ⟨_, _, _, rfl⟩ | ⟨_, _, _, _, _, _, _, rfl⟩ <;> rfl

/-! ### What a write leaves alone -/

/-- Instances whose side-table, field and owner are the same have the same value. -/
theorem value?_congr {a : Accessor P} (howner : j.owner = i.owner)
    (hslots : a.isSlots = true → j.slots = i.slots)
    (hfield : ∀ f, a.field? = some f → f.2.read? j.payload = f.2.read? i.payload) :
    j.value? a = i.value? a := by
  cases a with
  | slots => exact congrArg (fun f => some (ParamValue.slots f)) (hslots rfl)
  | book => exact congrArg (fun g => some (ParamValue.book g)) howner
  | scalar | reference | choice | collection =>
    have hread := hfield _ rfl
    dsimp only at hread
    simp only [value?, hread]

/-- Parameters without common storage are independent. -/
theorem value?_write_of_apart (hpq : p.Apart q) (h : i.write p v = .ok j) :
    j.value? q.accessor = i.value? q.accessor := by
  rcases write_storage h with ⟨frame, ha, _, rfl⟩ | ⟨f, set, d, w, hf, hset, hd, rfl⟩
  · refine value?_congr rfl ?_ fun _ _ => rfl
    intro hq
    exact absurd ⟨by rw [Param.isSlots, ha]; rfl, hq⟩ hpq.slots
  · refine value?_congr rfl (fun _ => rfl) ?_
    intro g hg
    have hread := (hpq.fields f g hf hg).read?_eq hset d w
    rw [Payload.eq_mk_of_as? hd]
    exact hread

/-! ### Writing twice -/

theorem writeField_twice {V : Type} {f : Field P V} {w : V} (hs : f.IsStable)
    (h : i.writeField p f w = .ok j) : j.writeField p f w = .ok j := by
  obtain ⟨set, d, hset, hd, rfl⟩ := writeField_cases h
  unfold writeField
  simp only [hset, withPayload, Payload.as?_mk, hs set hset d w]

/-- A value that was written is written again without effect. -/
theorem write_twice (hs : p.IsStable) (h : i.write p v = .ok j) : j.write p v = .ok j := by
  unfold Param.IsStable at hs
  unfold write at h ⊢
  generalize p.accessor = a at h hs ⊢
  cases a with
  | scalar k f =>
    cases v with
    | scalar l w =>
      dsimp only at h ⊢
      split at h
      · next hk =>
        rw [dif_pos hk]
        exact writeField_twice (hs _ rfl) h
      · cases h
    | _ => cases h
  | slots =>
    cases v with
    | slots frame =>
      cases h
      rfl
    | _ => cases h
  | reference t f =>
    cases v with
    | reference w => exact writeField_twice (hs _ rfl) h
    | _ => cases h
  | choice f =>
    cases v with
    | choice w => exact writeField_twice (hs _ rfl) h
    | _ => cases h
  | collection t f =>
    cases v with
    | collection w => exact writeField_twice (hs _ rfl) h
    | _ => cases h
  | book => cases h

end Instance

end EntityBook
