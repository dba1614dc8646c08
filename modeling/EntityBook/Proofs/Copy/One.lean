import EntityBook.Copy.Basic
import EntityBook.Proofs.Book.Revision

/-! # Copying one entity

  An entity is copied when the destination does not hold it and its class there
  is compliant; then it is live in the destination whatever the backend answers.
  In every other case the destination is unchanged.
-/

namespace EntityBook.Book

variable {P : PayloadFamily}

/-- Entities of a type can be copied into a book. -/
def Accepts (b : Book P) (tag : TypeTag) : Prop :=
  ∃ c, b.registry.find? tag = some c ∧ c.isCompliant = true

/-- Entities of a type cannot be copied into a book, for a reason. -/
inductive Refuses (b : Book P) (tag : TypeTag) : String → Prop where
  /-- The type is not registered. -/
  | unregistered (unknown : b.registry.find? tag = none) : b.Refuses tag "type not registered"
  /-- The class makes no instances. -/
  | abstract {c : ObjectClass P} (known : b.registry.find? tag = some c)
      (barren : c.hasConstructor = false) : b.Refuses tag "no constructor"
  /-- The class makes instances, but nothing of them is copied. -/
  | bare {c : ObjectClass P} (known : b.registry.find? tag = some c)
      (fertile : c.hasConstructor = true) (none : c.copyable = []) :
      b.Refuses tag "no copyable parameters"

/-- Only the registry counts. -/
theorem Refuses.of_registry {b b' : Book P} {tag : TypeTag} {reason : String}
    (h : b.Refuses tag reason) (hr : b'.registry = b.registry) : b'.Refuses tag reason := by
  cases h with
  | unregistered h => exact .unregistered (hr ▸ h)
  | abstract h hc => exact .abstract (hr ▸ h) hc
  | bare h hc hn => exact .bare (hr ▸ h) hc hn

theorem compliantClass_eq_ok {b : Book P} {tag : TypeTag} {c : ObjectClass P} :
    b.compliantClass tag = .ok c ↔ b.registry.find? tag = some c ∧ c.isCompliant = true := by
  unfold compliantClass ObjectClass.isCompliant
  cases hf : b.registry.find? tag with
  | none => simp
  | some d =>
    -- A class fails for want of a constructor or of a copyable parameter.
    cases hh : d.hasConstructor <;> cases he : d.copyable.isEmpty <;>
      simp only [hh, he, Bool.not_true, Bool.not_false, Bool.false_eq_true, if_true, if_false,
        reduceCtorEq, Except.ok.injEq, Option.some.injEq, false_iff, not_and]
    · rintro rfl
      simp [hh]
    · rintro rfl
      simp [hh]
    · constructor
      · rintro rfl
        simp [hh, he]
      · exact fun h => h.1
    · rintro rfl
      simp [he]

/-- A refusal of the class names the type and why it is refused. -/
theorem compliantClass_of_not_accepts {b : Book P} {tag : TypeTag} (h : ¬ b.Accepts tag) :
    ∃ reason, b.Refuses tag reason ∧
      b.compliantClass tag = .error (.notCompliant tag reason) := by
  cases hc : b.compliantClass tag with
  | ok c => exact absurd ⟨c, compliantClass_eq_ok.mp hc⟩ h
  | error err =>
    unfold compliantClass at hc
    split at hc
    · next hf =>
      cases hc
      exact ⟨_, .unregistered hf, rfl⟩
    · next c hf =>
      split at hc
      · next hn =>
        cases hc
        exact ⟨_, .abstract hf (by simpa using hn), rfl⟩
      · next hn =>
        split at hc
        · next he =>
          cases hc
          exact ⟨_, .bare hf (by simpa using hn) (by simpa using he), rfl⟩
        · cases hc

/-! ### The copy of the parameters -/

theorem Progress.book_step (source : Instance P) (s : Progress P) (p : Param P) :
    (s.step source p).book =
      (s.book.edit source.entity (attempt fun dest => source.copyParam dest p)).2 := rfl

/-- Copying parameters revises the destination. -/
theorem Progress.revises_steps {b : Book P} (hb : b.WellFormed) (source : Instance P)
    (ps : List (Param P)) {s : Progress P} (hs : b.Revises s.book) :
    b.Revises (ps.foldl (Progress.step source) s).book := by
  induction ps generalizing s with
  | nil => exact hs
  | cons p rest ih =>
    refine ih ?_
    rw [book_step]
    exact hs.trans (.edit (hs.wellFormed hb)
      fun _ => rewrites_attempt fun _ _ h => Instance.rewrites_copyParam h)

/-- A new instance takes over the parameters of another one. -/
def transfer (dest : Book P) (source : Instance P) (c : ObjectClass P) (payload : Payload P) :
    Progress P :=
  c.copyable.foldl (Progress.step source)
    { book := dest.adopt (dest.newborn source.entity payload) }

theorem revises_transfer {dest : Book P} {source : Instance P} {c : ObjectClass P}
    {payload : Payload P} (h : (dest.adopt (dest.newborn source.entity payload)).WellFormed) :
    (dest.adopt (dest.newborn source.entity payload)).Revises
      (dest.transfer source c payload).book :=
  Progress.revises_steps h source c.copyable (.refl _)

/-! ### Outcomes -/

section Outcome

variable {dest : Book P} {source : Instance P}

theorem copyOne_of_contains (h : dest.contains source.entity = true) :
    dest.copyOne source = (.error (.alreadyPresent source.entity), dest) := by
  unfold copyOne
  rw [if_pos h]

theorem copyOne_of_not_accepts (h : dest.contains source.entity = false)
    (ha : ¬ dest.Accepts source.entity.typeTag) :
    ∃ reason, dest.Refuses source.entity.typeTag reason ∧
      dest.copyOne source = (.error (.notCompliant source.entity.typeTag reason), dest) := by
  obtain ⟨reason, hwhy, hr⟩ := compliantClass_of_not_accepts ha
  refine ⟨reason, hwhy, ?_⟩
  unfold copyOne
  rw [if_neg (by simp [h]), hr]

theorem copyOne_of_accepts (h : dest.contains source.entity = false)
    (hg : source.entity.guid.isNull = false) {c : ObjectClass P} {payload : Payload P}
    (hc : dest.registry.find? source.entity.typeTag = some c) (hcomp : c.isCompliant = true)
    (hp : c.initialPayload? = some payload) :
    dest.copyOne source =
      (match (dest.transfer source c payload).refusal with
        | some err => .error (.rejected source.entity err)
        | none => .ok source.entity,
        (dest.transfer source c payload).book.pushPending
          (dest.transfer source c payload).deferred) := by
  -- The class is compliant and the guid is free, so the creation cannot fail.
  have hcreate : dest.create source.entity.typeTag source.entity.guid =
      (.ok source.entity, dest.adopt (dest.newborn source.entity payload)) :=
    create_eq_ok.mpr ⟨rfl, hg, h, c, payload, hc, hp, rfl⟩
  unfold copyOne
  rw [if_neg (by simp [h]), compliantClass_eq_ok.mpr ⟨hc, hcomp⟩]
  dsimp only
  rw [hcreate]
  dsimp only
  rw [← transfer]
  cases (dest.transfer source c payload).refusal with
  | none => rfl
  | some err => rfl

/-- A compliant class has a payload for new instances. -/
theorem exists_initialPayload {c : ObjectClass P} (h : c.isCompliant = true) :
    ∃ payload, c.initialPayload? = some payload := by
  have hc : c.hasConstructor = true := by
    simp only [ObjectClass.isCompliant, Bool.and_eq_true] at h
    exact h.1
  obtain ⟨d, hd⟩ := Option.isSome_iff_exists.mp hc
  exact ⟨⟨c.payloadType, d⟩, by simp [ObjectClass.initialPayload?, hd]⟩

/-- An entity with a null identifier is not made. -/
theorem copyOne_of_null (h : dest.contains source.entity = false)
    (hg : source.entity.guid.isNull = true) (ha : dest.Accepts source.entity.typeTag) :
    dest.copyOne source = (.error (.construct source.entity .nullGuid), dest) := by
  obtain ⟨c, hc⟩ := ha
  unfold copyOne
  rw [if_neg (by simp [h]), compliantClass_eq_ok.mpr hc]
  simp [create, hg]

/-- Either the entity cannot be made and nothing changes, or it is made and takes over
    the parameters of its source. -/
theorem copyOne_cases (dest : Book P) (source : Instance P) :
    ((dest.copyOne source).2 = dest ∧
      (dest.contains source.entity = true ∨ source.entity.guid.isNull = true ∨
        ¬ dest.Accepts source.entity.typeTag) ∧
      (∀ e, (dest.copyOne source).1 ≠ .ok e) ∧
      ∀ e err, (dest.copyOne source).1 ≠ .error (.rejected e err)) ∨
    (dest.contains source.entity = false ∧ source.entity.guid.isNull = false ∧
      ∃ c payload, dest.registry.find? source.entity.typeTag = some c ∧ c.isCompliant = true ∧
        c.initialPayload? = some payload ∧
        (dest.copyOne source).2 = (dest.transfer source c payload).book.pushPending
          (dest.transfer source c payload).deferred) := by
  cases h : dest.contains source.entity with
  | true =>
    rw [copyOne_of_contains h]
    exact Or.inl ⟨rfl, Or.inl rfl, by simp, by simp⟩
  | false =>
    by_cases ha : dest.Accepts source.entity.typeTag
    · cases hg : source.entity.guid.isNull with
      | true =>
        rw [copyOne_of_null h hg ha]
        exact Or.inl ⟨rfl, Or.inr (Or.inl rfl), by simp, by simp⟩
      | false =>
        obtain ⟨c, hc, hcomp⟩ := ha
        obtain ⟨payload, hp⟩ := exists_initialPayload hcomp
        exact Or.inr ⟨rfl, rfl, c, payload, hc, hcomp, hp,
          congrArg Prod.snd (copyOne_of_accepts h hg hc hcomp hp)⟩
    · obtain ⟨reason, _, hr⟩ := copyOne_of_not_accepts h ha
      rw [hr]
      exact Or.inl ⟨rfl, Or.inr (Or.inr ha), by simp, by simp⟩

/-- What copying one entity does to a well-formed book: it stays well-formed and
    its live set grows by the entity at most, if the entity is accepted. -/
theorem copyOne_spec (hd : dest.WellFormed) (hg : source.entity.guid.isNull = false) :
    (dest.copyOne source).2.WellFormed ∧
    (dest.copyOne source).2.registry = dest.registry ∧
    ∀ e, (dest.copyOne source).2.contains e = true ↔
      dest.contains e = true ∨ (e = source.entity ∧ dest.Accepts e.typeTag) := by
  rcases copyOne_cases dest source with ⟨hsame, hwhy, _⟩ | ⟨h, _, c, payload, hc, hcomp, hp, hmade⟩
  · rw [hsame]
    refine ⟨hd, rfl, fun e => ⟨Or.inl, ?_⟩⟩
    rintro (he | ⟨rfl, hacc⟩)
    · exact he
    · rcases hwhy with h | h | h
      · exact h
      · rw [hg] at h
        cases h
      · exact absurd hacc h
  · rw [hmade]
    -- The newborn is adopted, and all that follows revises the book it is adopted by.
    have hadopt := hd.adopt hg hc hp
    have hrev := (revises_transfer (c := c) hadopt).trans
      (.pushPending (dest.transfer source c payload).book
        (dest.transfer source c payload).deferred)
    refine ⟨hrev.wellFormed hadopt, hrev.registry, fun e => ?_⟩
    rw [hrev.contains_eq e, contains_adopt, entity_newborn]
    constructor
    · rintro (rfl | he)
      · exact Or.inr ⟨rfl, c, hc, hcomp⟩
      · exact Or.inl he
    · rintro (he | ⟨he, _⟩)
      · exact Or.inr he
      · exact Or.inl he

end Outcome

end EntityBook.Book
