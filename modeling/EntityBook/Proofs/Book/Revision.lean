import EntityBook.Copy.Resolve
import EntityBook.Proofs.Book.WellFormed

/-! # Revisions

  A revision of a book has the same live entities with, at most, other values.
  Edits that write, links and the resolution of waiting references only revise,
  and that is all that reasoning about live sets needs to know of them.
-/

namespace EntityBook.Book

variable {P : PayloadFamily}

/-- One book is another with, at most, other values: the live entities are the
    same, and so is what instances depend on. -/
structure Revises (b b' : Book P) : Prop where
  id : b'.id = b.id
  registry : b'.registry = b.registry
  config : b'.config = b.config
  opened : b'.opened = b.opened
  backend : b'.backend = b.backend
  undo : b'.undo = b.undo
  sorted : b.instances.Sorted → b'.instances.Sorted
  live : ∀ {e i}, b.get? e = some i → ∃ j, b'.get? e = some j ∧ i.Rewrites j
  gone : ∀ {e}, b.get? e = none → b'.get? e = none

namespace Revises

variable {b b' b'' : Book P}

theorem refl (b : Book P) : b.Revises b :=
  ⟨rfl, rfl, rfl, rfl, rfl, rfl, fun h => h, fun h => ⟨_, h, .refl _⟩, fun h => h⟩

theorem trans (h : b.Revises b') (h' : b'.Revises b'') : b.Revises b'' where
  id := h'.id.trans h.id
  registry := h'.registry.trans h.registry
  config := h'.config.trans h.config
  opened := h'.opened.trans h.opened
  backend := h'.backend.trans h.backend
  undo := h'.undo.trans h.undo
  sorted hs := h'.sorted (h.sorted hs)
  live hi := by
    obtain ⟨j, hj, hij⟩ := h.live hi
    obtain ⟨k, hk, hjk⟩ := h'.live hj
    exact ⟨k, hk, hij.trans hjk⟩
  gone hn := h'.gone (h.gone hn)

/-- A revision has the same live entities. -/
theorem contains_eq (h : b.Revises b') (e : Entity) : b'.contains e = b.contains e := by
  unfold contains
  cases hi : b.get? e with
  | none => rw [h.gone hi]
  | some i =>
    obtain ⟨j, hj, _⟩ := h.live hi
    rw [hj]
    rfl

/-- A revision of a well-formed book is well-formed. -/
theorem wellFormed (h : b.Revises b') (hb : b.WellFormed) : b'.WellFormed where
  sorted := h.sorted hb.sorted
  registry := by rw [h.registry]; exact hb.registry
  fits e j hj := by
    cases hi : b.get? e with
    | none => exact absurd ((h.gone hi).symm.trans hj) (by simp)
    | some i =>
      obtain ⟨k, hk, hik⟩ := h.live hi
      cases hk.symm.trans hj
      have hf := (hb.fits e i hi).of_rewrites hik
      exact ⟨hf.entity, by rw [hf.owner, h.id], hf.guid, by rw [h.registry]; exact hf.known,
        hf.deleting, by rw [h.opened]; exact hf.opened⟩

/-- Books with the same instances and surroundings revise each other. -/
theorem of_instances (hi : b'.instances = b.instances) (hid : b'.id = b.id)
    (hr : b'.registry = b.registry) (hc : b'.config = b.config) (ho : b'.opened = b.opened)
    (hb : b'.backend = b.backend) (hu : b'.undo = b.undo) : b.Revises b' := by
  have hget (e : Entity) : b'.get? e = b.get? e := by
    unfold get?
    rw [hi]
  exact ⟨hid, hr, hc, ho, hb, hu, fun h => hi ▸ h,
    fun {e i} h => ⟨i, (hget e).trans h, .refl _⟩, fun {e} h => (hget e).trans h⟩

/-! ### Operations that revise -/

theorem suspend (b : Book P) : b.Revises b.suspend := of_instances rfl rfl rfl rfl rfl rfl rfl

theorem resume (b : Book P) : b.Revises b.resume := of_instances rfl rfl rfl rfl rfl rfl rfl

theorem takePending (b : Book P) : b.Revises b.takePending.2 :=
  of_instances rfl rfl rfl rfl rfl rfl rfl

theorem pushPending (b : Book P) (rs : List (ReferenceRecord P)) : b.Revises (b.pushPending rs) :=
  of_instances rfl rfl rfl rfl rfl rfl rfl

theorem edit {α : Type} (hb : b.WellFormed) {e : Entity} {change : Instance P → α × Instance P}
    (hc : ∀ i : Instance P, i.Rewrites (change i).2) : b.Revises (b.edit e change).2 := by
  have hk := Keeps.edit b e change
  refine ⟨hk.id, hk.registry, hk.config, hk.opened, hk.backend, hk.undo,
    fun hs => sorted_edit hs e change, fun {e' i} hi => ?_, fun {e'} hn => ?_⟩
  · by_cases he : e' = e
    · subst he
      obtain ⟨j, hj, heq⟩ := get?_edit_self hi (hc i.enter) (hb.fits e' i hi).deleting
      exact ⟨j, hj, (hc i.enter).leave.of_markClean heq⟩
    · exact ⟨i, (get?_edit_of_ne he).trans hi, .refl i⟩
  · by_cases he : e' = e
    · subst he
      rw [edit_of_none hn]
      exact hn
    · exact (get?_edit_of_ne he).trans hn

theorem tryEdit (hb : b.WellFormed) {e : Entity}
    {change : Instance P → Except StoreError (Instance P)}
    (hc : ∀ i j, change i = .ok j → i.Rewrites j) : b.Revises (b.tryEdit e change).2 := by
  rw [tryEdit_snd]
  exact edit hb fun i => rewrites_tryChange (hc i)

theorem link (hb : b.WellFormed) (r : ReferenceRecord P) : b.Revises (b.link r).2 :=
  tryEdit hb fun _ _ h => Instance.rewrites_link h

theorem write (hb : b.WellFormed) (e : Entity) (name : String) (v : ParamValue) :
    b.Revises (b.write e name v).2 := by
  unfold Book.write
  split
  · exact refl b
  · exact tryEdit hb fun _ _ h => Instance.rewrites_write h

theorem writeText (hb : b.WellFormed) (e : Entity) (name s : String) :
    b.Revises (b.writeText e name s).2 := by
  unfold Book.writeText
  split
  · exact refl b
  · exact tryEdit hb fun _ _ h => Instance.rewrites_writeText h

end Revises

/-! ### Resolution -/

/-- One step of a pass revises the book. -/
theorem Revises.pass {b : Book P} (hb : b.WellFormed) {s : Pass P} (hs : b.Revises s.book)
    (r : ReferenceRecord P) : b.Revises (s.step r).book := by
  unfold Pass.step
  dsimp only
  split
  · exact hs
  · split
    · exact hs
    · have hl := Revises.link (hs.wellFormed hb) r
      cases h : s.book.link r with
      | mk result b' =>
        rw [h] at hl
        cases result with
        | ok _ => exact hs.trans hl
        | error _ => exact hs.trans hl

theorem Revises.foldl_pass {b : Book P} (hb : b.WellFormed) (rs : List (ReferenceRecord P))
    {s : Pass P} (hs : b.Revises s.book) : b.Revises (rs.foldl Pass.step s).book := by
  induction rs generalizing s with
  | nil => exact hs
  | cons r rest ih => exact ih (.pass hb hs r)

/-- Resolving waiting references revises the book. -/
theorem Revises.resolvePending {b : Book P} (hb : b.WellFormed) :
    b.Revises b.resolvePending.2 :=
  (foldl_pass hb b.pending (s := { book := b.takePending.2 }) (.takePending b)).trans
    (.pushPending _ _)

end EntityBook.Book
