import EntityBook.Proofs.Book.Edit

/-! # Instances with the same contents

  Edits open and close around a change and leave marks on an instance that no
  parameter shows. `Same` compares instances without them: what is read of one is
  read of the other, and what can be written to one can be written to the other.
-/

namespace EntityBook

variable {P : PayloadFamily}

namespace Instance

/-- Two instances hold the same, whoever edits them. -/
structure Same (i j : Instance P) : Prop where
  owner : i.owner = j.owner
  slots : i.slots = j.slots
  payload : i.payload = j.payload

namespace Same

variable {i j k : Instance P}

theorem refl (i : Instance P) : i.Same i := ⟨rfl, rfl, rfl⟩

theorem symm (h : i.Same j) : j.Same i := ⟨h.owner.symm, h.slots.symm, h.payload.symm⟩

theorem trans (h : i.Same j) (h' : j.Same k) : i.Same k :=
  ⟨h.owner.trans h'.owner, h.slots.trans h'.slots, h.payload.trans h'.payload⟩

theorem value? (h : i.Same j) (a : Accessor P) : i.value? a = j.value? a := by
  cases a with
  | slots => exact congrArg (fun f => some (ParamValue.slots f)) h.slots
  | book => exact congrArg (fun g => some (ParamValue.book g)) h.owner
  | scalar | reference | choice | collection =>
    unfold Instance.value?
    rw [h.payload]

theorem enter (i : Instance P) : i.Same i.enter := ⟨rfl, rfl, rfl⟩

theorem leave (i : Instance P) : i.Same i.leave := ⟨rfl, rfl, rfl⟩

theorem of_markClean (h : i.markClean = j.markClean) : i.Same j where
  owner := (congrArg Instance.owner h : i.markClean.owner = j.markClean.owner)
  slots := slots_of_markClean h
  payload := by
    have hp : i.markClean.payload = j.markClean.payload := by rw [h]
    exact hp

theorem withSlots (h : i.Same j) (f : Frame) : (i.withSlots f).Same (j.withSlots f) :=
  ⟨h.owner, rfl, h.payload⟩

theorem withPayload (h : i.Same j) (q : Payload P) : (i.withPayload q).Same (j.withPayload q) :=
  ⟨h.owner, h.slots, rfl⟩

end Same

/-- A write does the same to instances with the same contents. -/
theorem Same.writeField {i j k : Instance P} (h : i.Same j) {V : Type} {p : Param P}
    {f : Field P V} {v : V} (hw : i.writeField p f v = .ok k) :
    ∃ l, j.writeField p f v = .ok l ∧ k.Same l := by
  obtain ⟨set, d, hset, hd, rfl⟩ := writeField_cases hw
  refine ⟨j.withPayload ⟨f.type, set d v⟩, ?_, h.withPayload _⟩
  unfold Instance.writeField
  rw [hset, ← h.payload, hd]

theorem Same.write {i j k : Instance P} (h : i.Same j) {p : Param P} {v : ParamValue}
    (hw : i.write p v = .ok k) : ∃ l, j.write p v = .ok l ∧ k.Same l := by
  unfold Instance.write at hw ⊢
  split at hw
  · split at hw
    · next hl =>
      subst hl
      simpa using h.writeField hw
    · cases hw
  · cases hw
    exact ⟨_, rfl, h.withSlots _⟩
  · exact h.writeField hw
  · exact h.writeField hw
  · exact h.writeField hw
  · cases hw
  · cases hw

theorem Same.writeText {i j k : Instance P} (h : i.Same j) {p : Param P} {s : String}
    (hw : i.writeText p s = .ok k) : ∃ l, j.writeText p s = .ok l ∧ k.Same l := by
  obtain ⟨hro, v, hv, hw⟩ := writeText_cases hw
  obtain ⟨l, hl, hs⟩ := h.write hw
  refine ⟨l, ?_, hs⟩
  unfold Instance.writeText
  rw [if_neg (by simp [hro]), hv]
  exact hl

theorem Same.link {i j k : Instance P} (h : i.Same j) {p : Param P} {t : Entity}
    (hl : i.link p t = .ok k) : ∃ l, j.link p t = .ok l ∧ k.Same l := by
  unfold Instance.link at hl ⊢
  split at hl
  · exact h.write hl
  · exact h.write hl
  · rw [← h.payload]
    split at hl
    · cases hl
    · split at hl
      · next hin =>
        cases hl
        exact ⟨j, by rw [if_pos hin], h⟩
      · next hin =>
        rw [if_neg hin]
        exact h.write hl
  · cases hl

end Instance

end EntityBook
