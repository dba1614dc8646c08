import EntityBook.Proofs.Book.Edit
import EntityBook.Proofs.Class.Registry

/-! # Well-formed books

  What holds of a book whatever was done to it: every instance stands under its
  own entity, belongs to the book and holds a payload of its class, and an
  instance that is to be deleted is still being edited. `WellFormed` is proved
  to survive creation, edits and deletion; the operations that are made of these
  follow in their own modules.
-/

namespace EntityBook

variable {P : PayloadFamily}

/-- An instance as it stands under an entity of a book. -/
structure Instance.Fits (b : Book P) (e : Entity) (i : Instance P) : Prop where
  entity : i.entity = e
  owner : i.owner = b.id
  guid : e.guid.isNull = false
  /-- The class is known, can be constructed and has payloads of this type. -/
  known : ∃ c, b.registry.find? e.typeTag = some c ∧ c.hasConstructor = true ∧
    i.payload.type = c.payloadType
  deleting : i.deleting = true → 0 < i.level
  opened : e.typeTag ∈ b.opened

namespace Book

/-- What every operation on a book preserves. -/
structure WellFormed (b : Book P) : Prop where
  sorted : b.instances.Sorted
  registry : b.registry.WellFormed
  fits : ∀ e i, b.get? e = some i → i.Fits b e

end Book

namespace Instance.Fits

variable {b b' : Book P} {e : Entity} {i j : Instance P}

theorem of_keeps (h : i.Fits b e) (hb : b.Keeps b') : i.Fits b' e where
  entity := h.entity
  owner := by rw [h.owner, hb.id]
  guid := h.guid
  known := by rw [hb.registry]; exact h.known
  deleting := h.deleting
  opened := by rw [hb.opened]; exact h.opened

/-- Values may change at will. -/
theorem of_rewrites (h : i.Fits b e) (hij : i.Rewrites j) : j.Fits b e where
  entity := hij.entity.trans h.entity
  owner := hij.owner.trans h.owner
  guid := h.guid
  known := by rw [hij.payload]; exact h.known
  deleting hd := by
    rw [hij.level]
    exact h.deleting (hij.deleting.symm.trans hd)
  opened := h.opened

theorem of_markClean (h : i.Fits b e) (hij : j.markClean = i.markClean) : j.Fits b e :=
  h.of_rewrites ((Instance.Rewrites.refl i).of_markClean hij)

/-- The parameters of its class can be read. -/
theorem exists_value (h : i.Fits b e) {c : ObjectClass P} {p : Param P}
    (hc : b.registry.find? e.typeTag = some c) (hp : p ∈ c.params) :
    ∃ v, i.value? p.accessor = some v := by
  obtain ⟨c', hc', _, hpayload⟩ := h.known
  cases hc.symm.trans hc'
  refine Instance.exists_value ?_
  rw [hpayload]
  exact ObjectClass.isFor_of_mem_params hp

end Instance.Fits

namespace Book

/-! ### Collections -/

section Collection

variable {b : Book P} {tag : TypeTag} {l : List (Instance P)}

theorem mem_collection? (h : b.WellFormed) (hl : b.collection? tag = some l) {i : Instance P} :
    i ∈ l ↔ b.get? i.entity = some i ∧ i.entity.typeTag = tag := by
  unfold collection? at hl
  split at hl
  · cases hl
    simp only [List.mem_map, List.mem_filter, beq_iff_eq, Prod.exists, exists_eq_right]
    constructor
    · rintro ⟨e, hm, ht⟩
      have hget : b.get? e = some i := (OrderedMap.mem_entries_iff h.sorted).mp hm
      rw [(h.fits e i hget).entity]
      exact ⟨hget, ht⟩
    · rintro ⟨hget, ht⟩
      exact ⟨i.entity, (OrderedMap.mem_entries_iff h.sorted).mpr hget, ht⟩
  · cases hl

/-- A collection lists the live entities of its type, each once. -/
theorem mem_entities_collection? (h : b.WellFormed) (hl : b.collection? tag = some l)
    {e : Entity} : e ∈ l.map Instance.entity ↔ b.contains e = true ∧ e.typeTag = tag := by
  unfold contains
  rw [List.mem_map, Option.isSome_iff_exists]
  constructor
  · rintro ⟨i, hi, rfl⟩
    obtain ⟨hget, ht⟩ := (mem_collection? h hl).mp hi
    exact ⟨⟨i, hget⟩, ht⟩
  · rintro ⟨⟨i, hget⟩, ht⟩
    have he := (h.fits e i hget).entity
    subst he
    exact ⟨i, (mem_collection? h hl).mpr ⟨hget, ht⟩, rfl⟩

theorem nodup_entities_collection? (h : b.WellFormed) (hl : b.collection? tag = some l) :
    (l.map Instance.entity).Nodup := by
  unfold collection? at hl
  split at hl
  · cases hl
    have hsub : ((b.instances.entries.filter fun e => e.1.typeTag == tag).map (·.1)).Nodup :=
      (OrderedMap.nodup_keys h.sorted).sublist (List.Sublist.map _ List.filter_sublist)
    rw [List.map_map]
    refine (congrArg List.Nodup (List.map_congr_left fun x hx => ?_)).mpr hsub
    have hm := (List.mem_filter.mp hx).1
    exact (h.fits x.1 x.2 ((OrderedMap.mem_entries_iff h.sorted).mp hm)).entity
  · cases hl

/-- A type without a collection has no live entities. -/
theorem typeTag_ne_of_collection?_none (h : b.WellFormed) (hl : b.collection? tag = none)
    {e : Entity} (he : b.contains e = true) : e.typeTag ≠ tag := by
  obtain ⟨i, hi⟩ := Option.isSome_iff_exists.mp he
  have ho := (h.fits e i hi).opened
  unfold collection? at hl
  split at hl
  · cases hl
  · next hn =>
    rintro rfl
    exact hn (by simpa using ho)

end Collection

/-! ### Edits keep the entries sorted -/

section Sorted

variable {b : Book P}

theorem sorted_beginEdit (h : b.instances.Sorted) (e : Entity) :
    (b.beginEdit e).2.instances.Sorted := by
  unfold beginEdit
  split
  · exact h
  · dsimp only
    split
    · exact OrderedMap.sorted_insert h ..
    · exact OrderedMap.sorted_insert h ..

theorem sorted_settle (h : b.instances.Sorted) (e : Entity) (i : Instance P) :
    (b.settle e i).2.instances.Sorted := by
  unfold settle
  dsimp only
  cases b.backend.refusal b.calls i <;> cases i.dirty <;> first
    | exact h
    | exact OrderedMap.sorted_insert h ..

theorem sorted_commitEdit (h : b.instances.Sorted) (e : Entity) :
    (b.commitEdit e).2.instances.Sorted := by
  have hput (i : Instance P) : (b.put e i).instances.Sorted := OrderedMap.sorted_insert h ..
  have hcommits := b.commits e
  generalize b.commitEdit e = out at hcommits ⊢
  cases hcommits with
  | missing | idle => exact h
  | inner => exact hput _
  | removed => exact OrderedMap.sorted_erase (hput _) e
  | settled => exact sorted_settle (hput _) e _

theorem sorted_edit {α : Type} (h : b.instances.Sorted) (e : Entity)
    (change : Instance P → α × Instance P) : (b.edit e change).2.instances.Sorted := by
  unfold edit
  split
  · exact h
  · exact sorted_commitEdit (OrderedMap.sorted_insert (sorted_beginEdit h e) ..) e

end Sorted

/-! ### Preservation -/

namespace WellFormed

variable {b b' : Book P}

/-- A book that differs in nothing that matters here is well-formed as well. -/
theorem of_eq (h : b.WellFormed) (hid : b'.id = b.id) (hr : b'.registry = b.registry)
    (ho : b'.opened = b.opened) (hi : b'.instances = b.instances) : b'.WellFormed where
  sorted := hi ▸ h.sorted
  registry := hr ▸ h.registry
  fits e i hget := by
    have hf := h.fits e i (by rw [← hget]; unfold get?; rw [hi])
    exact ⟨hf.entity, by rw [hf.owner, hid], hf.guid, by rw [hr]; exact hf.known, hf.deleting,
      by rw [ho]; exact hf.opened⟩

/-- Instances that still fit make a well-formed book. -/
theorem of_keeps (h : b.WellFormed) (hk : b.Keeps b') (hs : b'.instances.Sorted)
    (hf : ∀ e i, b'.get? e = some i → i.Fits b e) : b'.WellFormed where
  sorted := hs
  registry := by rw [hk.registry]; exact h.registry
  fits e i hget := (hf e i hget).of_keeps hk

/-- An edit concerns one instance, so it is enough that this one fits if it stays. -/
theorem edit_of_fits {α : Type} (h : b.WellFormed) {e : Entity}
    {change : Instance P → α × Instance P}
    (hself : ∀ i j, b.get? e = some i → (b.edit e change).2.get? e = some j → j.Fits b e) :
    (b.edit e change).2.WellFormed := by
  refine h.of_keeps (Keeps.edit b e change) (sorted_edit h.sorted e change) fun e' j hj => ?_
  by_cases he : e' = e
  · subst he
    cases hi : b.get? e' with
    | none =>
      rw [edit_of_none hi] at hj
      exact absurd (hi.symm.trans hj) (by simp)
    | some i => exact hself i j hi hj
  · rw [get?_edit_of_ne he] at hj
    exact h.fits e' j hj

end WellFormed

/-! ### Creation -/

/-- The book with a new instance, which its subscribers hear of. -/
def adopt (b : Book P) (i : Instance P) : Book P :=
  ((({ b with opened := insertTag i.entity.typeTag b.opened }).put i.entity i).markDirty).emit
    (.created i.entity)

/-- A new instance of a class. -/
def newborn (b : Book P) (e : Entity) (payload : Payload P) : Instance P :=
  { entity := e, owner := b.id, payload }

@[simp] theorem get?_adopt_self (b : Book P) (i : Instance P) :
    (b.adopt i).get? i.entity = some i := get?_put_self ..

theorem get?_adopt_of_ne (b : Book P) {e : Entity} {i : Instance P} (h : e ≠ i.entity) :
    (b.adopt i).get? e = b.get? e :=
  get?_put_of_ne { b with opened := insertTag i.entity.typeTag b.opened } h i

@[simp] theorem entity_newborn (b : Book P) (e : Entity) (payload : Payload P) :
    (b.newborn e payload).entity = e := rfl

theorem contains_adopt (b : Book P) (i : Instance P) (e : Entity) :
    (b.adopt i).contains e = true ↔ e = i.entity ∨ b.contains e = true := by
  unfold contains
  by_cases h : e = i.entity
  · subst h
    simp
  · rw [get?_adopt_of_ne b h]
    simp [h]

theorem mem_insertTag {tag t : TypeTag} {ts : List TypeTag} :
    t ∈ insertTag tag ts ↔ t = tag ∨ t ∈ ts := by
  induction ts with
  | nil => simp [insertTag]
  | cons u rest ih =>
    unfold insertTag
    split
    · next h => simp [h]
    · split
      · simp
      · simp only [List.mem_cons, ih]
        exact or_left_comm

/-- An instance of an entity that is not live goes in, whether the collection of its
    type is there yet or made for it. -/
theorem insert?_opened {b : Book P} {i : Instance P} (h : b.contains i.entity = false)
    (tag : TypeTag) :
    insert? { b with opened := insertTag tag b.opened } i =
      some (({ b with opened := insertTag tag b.opened } : Book P).put i.entity i) :=
  if_neg (show ¬ b.contains i.entity = true by simp [h])

/-- The ways in which creation can go, with the checks in their order. An instance that
    passes all of them goes in. -/
inductive Creates (b : Book P) (tag : TypeTag) (g : Guid) :
    Except StoreError Entity × Book P → Prop where
  | unnamed (unnamed : g.isNull = true) : Creates b tag g (.error .nullGuid, b)
  | unknown (unknown : b.registry.find? tag = none) : Creates b tag g (.error (.unknownType tag), b)
  | present (live : b.contains ⟨tag, g⟩ = true) :
    Creates b tag g (.error (.alreadyPresent ⟨tag, g⟩), b)
  | unmade {c : ObjectClass P} (known : b.registry.find? tag = some c)
    (unmade : c.initialPayload? = none) : Creates b tag g (.error (.noConstructor tag), b)
  | created {c : ObjectClass P} {payload : Payload P} (named : g.isNull = false)
    (known : b.registry.find? tag = some c) (absent : b.contains ⟨tag, g⟩ = false)
    (made : c.initialPayload? = some payload) :
    Creates b tag g (.ok ⟨tag, g⟩, b.adopt (b.newborn ⟨tag, g⟩ payload))

theorem create_of_made {b : Book P} {tag : TypeTag} {g : Guid} {c : ObjectClass P}
    {payload : Payload P} (hg : g.isNull = false) (hf : b.registry.find? tag = some c)
    (hn : b.contains ⟨tag, g⟩ = false) (hp : c.initialPayload? = some payload) :
    b.create tag g = (.ok ⟨tag, g⟩, b.adopt (b.newborn ⟨tag, g⟩ payload)) := by
  have ht := Registry.typeTag_of_find? hf
  subst ht
  have hin := insert?_opened (i := b.newborn ⟨c.typeTag, g⟩ payload) hn c.typeTag
  unfold newborn at hin
  unfold create
  rw [if_neg (by simp [hg]), Registry.class?_eq_ok.mpr hf]
  dsimp only
  rw [if_neg (by simp [hn]), hp]
  dsimp only
  rw [hin]
  rfl

theorem creates (b : Book P) (tag : TypeTag) (g : Guid) : b.Creates tag g (b.create tag g) := by
  by_cases hg : g.isNull = true
  · unfold create
    rw [if_pos hg]
    exact .unnamed hg
  · cases hf : b.registry.find? tag with
    | none =>
      unfold create
      rw [if_neg hg, Registry.class?_of_none hf]
      exact .unknown hf
    | some c =>
      have ht := Registry.typeTag_of_find? hf
      subst ht
      by_cases hn : b.contains ⟨c.typeTag, g⟩ = true
      · unfold create
        rw [if_neg hg, Registry.class?_eq_ok.mpr hf]
        dsimp only
        rw [if_pos hn]
        exact .present hn
      · cases hp : c.initialPayload? with
        | none =>
          unfold create
          rw [if_neg hg, Registry.class?_eq_ok.mpr hf]
          dsimp only
          rw [if_neg hn, hp]
          exact .unmade hf hp
        | some payload =>
          have hg : g.isNull = false := by simpa using hg
          have hn : b.contains ⟨c.typeTag, g⟩ = false := by simpa using hn
          rw [create_of_made hg hf hn hp]
          exact .created hg hf hn hp

/-- When creation succeeds, and what it leaves. -/
theorem create_eq_ok {b b' : Book P} {tag : TypeTag} {g : Guid} {e : Entity} :
    b.create tag g = (.ok e, b') ↔
      e = ⟨tag, g⟩ ∧ g.isNull = false ∧ b.contains ⟨tag, g⟩ = false ∧
      ∃ c payload, b.registry.find? tag = some c ∧ c.initialPayload? = some payload ∧
        b' = b.adopt (b.newborn ⟨tag, g⟩ payload) := by
  constructor
  · intro h
    have hcreates := b.creates tag g
    rw [h] at hcreates
    cases hcreates with
    | created hg hf hn hp => exact ⟨rfl, hg, hn, _, _, hf, hp, rfl⟩
  · rintro ⟨rfl, hg, hn, c, payload, hf, hp, rfl⟩
    exact create_of_made hg hf hn hp

/-- Failed creation changes nothing. -/
theorem create_eq_error {b b' : Book P} {tag : TypeTag} {g : Guid} {err : StoreError}
    (h : b.create tag g = (.error err, b')) : b' = b := by
  have hcreates := b.creates tag g
  rw [h] at hcreates
  cases hcreates with
  | unnamed | unknown | present | unmade => rfl

theorem WellFormed.adopt {b : Book P} (h : b.WellFormed) {e : Entity} {payload : Payload P}
    {c : ObjectClass P} (hg : e.guid.isNull = false) (hc : b.registry.find? e.typeTag = some c)
    (hp : c.initialPayload? = some payload) : (b.adopt (b.newborn e payload)).WellFormed where
  sorted := OrderedMap.sorted_insert h.sorted ..
  registry := h.registry
  fits e' i hi := by
    -- The newborn fits by what was checked of its class; the others are untouched.
    by_cases he : e' = e
    · subst he
      cases (get?_adopt_self b (b.newborn e' payload)).symm.trans hi
      obtain ⟨d, hd, rfl⟩ := Option.map_eq_some_iff.mp hp
      refine ⟨rfl, rfl, hg, ⟨c, hc, by simp [ObjectClass.hasConstructor, hd], rfl⟩, ?_,
        mem_insertTag.mpr (Or.inl rfl)⟩
      intro hdel
      cases hdel
    · rw [get?_adopt_of_ne b he] at hi
      have hf := h.fits e' i hi
      exact ⟨hf.entity, hf.owner, hf.guid, hf.known, hf.deleting,
        mem_insertTag.mpr (Or.inr hf.opened)⟩

theorem WellFormed.create {b : Book P} (h : b.WellFormed) (tag : TypeTag) (g : Guid) :
    (b.create tag g).2.WellFormed := by
  cases hc : b.create tag g with
  | mk r b' =>
    cases r with
    | error err => exact create_eq_error hc ▸ h
    | ok e =>
      obtain ⟨_, hg, _, c, payload, hf, hp, rfl⟩ := create_eq_ok.mp hc
      exact h.adopt hg hf hp

/-! ### Deletion -/

/-- Deleting an entity that nobody edits removes it. -/
theorem get?_delete_self {b : Book P} {e : Entity} {i : Instance P} (hi : b.get? e = some i)
    (hl : i.level = 0) : (b.delete e).2.get? e = none :=
  get?_edit_removed (f := fun i => ((), i.markDeleting)) hi
    (by simp [Instance.enter, Instance.markDeleting, hl]) rfl

theorem get?_delete_of_ne (b : Book P) {e e' : Entity} (h : e' ≠ e) :
    (b.delete e).2.get? e' = b.get? e' := by
  rw [delete_snd]
  exact get?_edit_of_ne h

/-- Deleting an entity that is being edited leaves it there for now. -/
theorem get?_delete_editing {b : Book P} {e : Entity} {i : Instance P} (hi : b.get? e = some i)
    (hl : 0 < i.level) :
    ∃ j, (b.delete e).2.get? e = some j ∧ j.markClean = i.markDeleting.markClean := by
  rw [delete_snd]
  unfold edit
  rw [hi]
  -- The deletion is itself an edit, so the level it closes is not the outermost one.
  obtain ⟨j, hj, heq⟩ := get?_commitEdit_kept (b := (b.beginEdit e).2.put e i.enter.markDeleting)
    (get?_put_self ..) (by simp [Instance.enter, Instance.markDeleting])
    (fun h => by simp [Instance.enter, Instance.markDeleting] at h; omega)
  refine ⟨j, hj, heq.trans ?_⟩
  simp [Instance.leave, Instance.markDeleting, Instance.enter, Instance.markClean]

theorem WellFormed.delete {b : Book P} (h : b.WellFormed) (e : Entity) :
    (b.delete e).2.WellFormed := by
  rw [delete_snd]
  refine h.edit_of_fits fun i j hi hj => ?_
  rw [← delete_snd] at hj
  have hfit := h.fits e i hi
  -- Gone if nobody edits it; otherwise it is marked, which an open edit allows.
  rcases Nat.eq_zero_or_pos i.level with hl | hl
  · exact absurd ((get?_delete_self hi hl).symm.trans hj) (by simp)
  · obtain ⟨k, hk, heq⟩ := get?_delete_editing hi hl
    cases hk.symm.trans hj
    refine Instance.Fits.of_markClean ?_ heq
    exact ⟨hfit.entity, hfit.owner, hfit.guid, hfit.known, fun _ => hl, hfit.opened⟩

end Book

end EntityBook
