import EntityBook.Proofs.Copy.Transfer

/-! # Replicas

  Entities copied into an empty book make a replica, and a replica does not
  depend on the order of the copies. `Replica` describes the destination by the
  set of copied entities and the set of links that were made, without any order;
  a copy adds an entity to the one, a resolution makes all links whose targets
  have arrived.
-/

namespace EntityBook

variable {P : PayloadFamily}

/-! ### Links -/

/-- What identifies a link: the source, the name of the parameter and the target. -/
def ReferenceRecord.link (r : ReferenceRecord P) : Entity × String × Entity :=
  (r.source, r.param.name, r.target)

namespace Book

/-- The links that the copyable parameters of a book's entities make. -/
def HasLink (b : Book P) (l : Entity × String × Entity) : Prop :=
  ∃ i c p, b.get? l.1 = some i ∧ b.registry.find? l.1.typeTag = some c ∧ p ∈ c.copyable ∧
    p.name = l.2.1 ∧ i.PointsAt p l.2.2

theorem sameLink_iff {r s : ReferenceRecord P} : sameLink r s = true ↔ r.link = s.link := by
  simp only [sameLink, ReferenceRecord.link, Bool.and_eq_true, beq_iff_eq, Prod.mk.injEq]
  constructor
  · rintro ⟨⟨hs, ht⟩, hn⟩
    exact ⟨hs, hn, ht⟩
  · rintro ⟨hs, hn, ht⟩
    exact ⟨⟨hs, ht⟩, hn⟩

/-- A record is added unless its link waits already. -/
theorem mem_link_addRecord {rs : List (ReferenceRecord P)} {r : ReferenceRecord P}
    {l : Entity × String × Entity} :
    l ∈ (addRecord rs r).map ReferenceRecord.link ↔
      l ∈ rs.map ReferenceRecord.link ∨ l = r.link := by
  unfold addRecord
  split
  · next h =>
    obtain ⟨s, hs, hl⟩ := List.any_eq_true.mp h
    refine ⟨Or.inl, ?_⟩
    rintro (hm | rfl)
    · exact hm
    · exact List.mem_map.mpr ⟨s, hs, sameLink_iff.mp hl⟩
  · rw [List.map_append, List.mem_append, List.map_singleton, List.mem_singleton]

theorem mem_addRecord {rs : List (ReferenceRecord P)} {r s : ReferenceRecord P}
    (h : s ∈ addRecord rs r) : s ∈ rs ∨ s = r := by
  unfold addRecord at h
  split at h
  · exact Or.inl h
  · rcases List.mem_append.mp h with h | h
    · exact Or.inl h
    · exact Or.inr (List.mem_singleton.mp h)

theorem mem_link_foldl_addRecord {rs ws : List (ReferenceRecord P)}
    {l : Entity × String × Entity} :
    l ∈ (rs.foldl addRecord ws).map ReferenceRecord.link ↔
      l ∈ ws.map ReferenceRecord.link ∨ l ∈ rs.map ReferenceRecord.link := by
  induction rs generalizing ws with
  | nil => simp
  | cons r rest ih =>
    rw [List.foldl_cons, ih, mem_link_addRecord, List.map_cons, List.mem_cons, or_assoc]

theorem mem_foldl_addRecord {rs ws : List (ReferenceRecord P)} {s : ReferenceRecord P}
    (h : s ∈ rs.foldl addRecord ws) : s ∈ ws ∨ s ∈ rs := by
  induction rs generalizing ws with
  | nil => exact Or.inl h
  | cons r rest ih =>
    rcases ih h with h | h
    · rcases mem_addRecord h with h | rfl
      · exact Or.inl h
      · exact Or.inr List.mem_cons_self
    · exact Or.inr (List.mem_cons_of_mem r h)

/-! ### The description of a replica -/

/-- A book that started as another one without instances, then copied some of a
    source's entities and made some of their links. -/
structure Replica (source dest : Book P) (copied : Entity → Prop)
    (linked : Entity × String × Entity → Prop) (b : Book P) : Prop where
  wellFormed : b.WellFormed
  registry : b.registry = source.registry
  id : b.id = dest.id
  /-- What was copied is live where the class is compliant. -/
  live : ∀ e, b.contains e = true ↔ copied e ∧ b.Accepts e.typeTag
  held : ∀ e, copied e → source.contains e = true
  made : ∀ l, linked l → source.HasLink l ∧ b.contains l.1 = true ∧ b.contains l.2.2 = true
  values : ∀ e i copy c payload, source.get? e = some i → b.get? e = some copy →
    b.registry.find? e.typeTag = some c → c.initialPayload? = some payload →
    Instance.Merges c (dest.newborn e payload) i (fun name t => linked (e, name, t)) copy

/-- Records of links of copied entities. -/
structure Tracks (source b : Book P) (rs : List (ReferenceRecord P)) : Prop where
  param : ∀ r ∈ rs, ∃ c, b.registry.find? r.source.typeTag = some c ∧ r.param ∈ c.copyable
  link : ∀ r ∈ rs, b.contains r.source = true ∧ source.HasLink r.link

/-- A replica in which every link that was not made waits. -/
structure Waiting (source dest : Book P) (copied : Entity → Prop)
    (linked : Entity × String × Entity → Prop) (b : Book P) : Prop
    extends Replica source dest copied linked b where
  tracks : Tracks source b b.pending
  pending : ∀ l, l ∈ b.pending.map ReferenceRecord.link ↔
    b.contains l.1 = true ∧ source.HasLink l ∧ ¬ linked l

section Description

variable {source dest b b' : Book P} {copied : Entity → Prop}
  {linked : Entity × String × Entity → Prop}

theorem Tracks.of_eq {rs : List (ReferenceRecord P)} (h : Tracks source b rs)
    (hr : b'.registry = b.registry) (hl : ∀ e, b.contains e = true → b'.contains e = true) :
    Tracks source b' rs where
  param r hm := by
    rw [hr]
    exact h.param r hm
  link r hm := ⟨hl _ (h.link r hm).1, (h.link r hm).2⟩

theorem Replica.of_linked {linked' : Entity × String × Entity → Prop}
    (h : Replica source dest copied linked b) (hl : ∀ l, linked' l ↔ linked l) :
    Replica source dest copied linked' b := by
  have heq : linked' = linked := funext fun l => propext (hl l)
  rw [heq]
  exact h

/-- Only what can be looked up and the surroundings of instances matter. -/
theorem Replica.of_instances (h : Replica source dest copied linked b)
    (hi : b'.instances = b.instances) (hid : b'.id = b.id) (hr : b'.registry = b.registry)
    (ho : b'.opened = b.opened) : Replica source dest copied linked b' := by
  -- The lookups read nothing but the instances.
  have hget (e : Entity) : b'.get? e = b.get? e := by
    unfold get?
    rw [hi]
  have hlive (e : Entity) : b'.contains e = b.contains e := by
    unfold contains
    rw [hget]
  refine ⟨h.wellFormed.of_eq hid hr ho hi, hr.trans h.registry, hid.trans h.id, fun e => ?_,
    h.held, fun l hl => ?_, fun e i copy c payload hs hc hf hp => ?_⟩
  · unfold Accepts
    rw [hlive, hr]
    exact h.live e
  · rw [hlive, hlive]
    exact h.made l hl
  · rw [hget] at hc
    rw [hr] at hf
    exact h.values e i copy c payload hs hc hf hp

theorem Waiting.of_instances (h : Waiting source dest copied linked b)
    (hi : b'.instances = b.instances) (hid : b'.id = b.id) (hr : b'.registry = b.registry)
    (ho : b'.opened = b.opened) (hp : b'.pending = b.pending) :
    Waiting source dest copied linked b' := by
  have hlive (e : Entity) : b'.contains e = b.contains e := by
    unfold contains get?
    rw [hi]
  refine ⟨h.toReplica.of_instances hi hid hr ho, ?_, fun l => ?_⟩
  · rw [hp]
    exact h.tracks.of_eq hr fun e he => (hlive e).trans he
  · rw [hp, hlive]
    exact h.pending l

/-- Nothing was copied to an empty book. -/
theorem Waiting.start (hd : dest.WellFormed) (hr : dest.registry = source.registry)
    (hempty : ∀ e, dest.contains e = false) (hp : dest.pending = []) :
    Waiting source dest (fun _ => False) (fun _ => False) dest where
  wellFormed := hd
  registry := hr
  id := rfl
  live e := by simp [hempty e]
  held e he := he.elim
  made l hl := hl.elim
  values e i copy c payload _ hget := by
    have := hempty e
    unfold contains at this
    rw [hget] at this
    cases this
  tracks := by
    rw [hp]
    exact ⟨by simp, by simp⟩
  pending l := by simp [hp, hempty l.1]

/-! ### Links being made -/

/-- Both sides of a copied entity. -/
theorem Replica.exists_both (h : Replica source dest copied linked b) {e : Entity}
    (he : b.contains e = true) :
    ∃ i copy, source.get? e = some i ∧ b.get? e = some copy := by
  obtain ⟨copy, hcopy⟩ := Option.isSome_iff_exists.mp he
  obtain ⟨i, hi⟩ := Option.isSome_iff_exists.mp (h.held e ((h.live e).mp he).1)
  exact ⟨i, copy, hi, hcopy⟩

/-- A link whose ends are both there is made. -/
theorem Replica.link (h : Replica source dest copied linked b)
    (hlaw : ∀ c ∈ source.registry.classes, c.IsLawful) {r : ReferenceRecord P} {c : ObjectClass P}
    (hfind : b.registry.find? r.source.typeTag = some c) (hparam : r.param ∈ c.copyable)
    (hsource : b.contains r.source = true) (htarget : b.contains r.target = true)
    (hlink : source.HasLink r.link) :
    Replica source dest copied (fun l => linked l ∨ l = r.link) (b.link r).2 := by
  have hrev := Revises.link h.wellFormed r
  have hwf : c.WellFormed := h.wellFormed.registry.of_find? hfind
  have hlawc : c.IsLawful := hlaw c (h.registry ▸ List.mem_of_find?_eq_some hfind)
  obtain ⟨i, copy, hi, hcopy⟩ := h.exists_both hsource
  have hfit := h.wellFormed.fits _ _ hcopy
  obtain ⟨c', hc', _, htype⟩ := hfit.known
  cases hfind.symm.trans hc'
  -- The link names a parameter; in a well-formed class the name stands for `r.param` alone.
  have hpoints : i.PointsAt r.param r.target := by
    obtain ⟨i', c', p, hi', hc', hp, hname, hpt⟩ := hlink
    cases hi.symm.trans hi'
    rw [← h.registry] at hc'
    cases hfind.symm.trans hc'
    have heq : p = r.param := ObjectClass.eq_of_name_eq hwf
      (ObjectClass.mem_params_of_mem_copyable hp)
      (ObjectClass.mem_params_of_mem_copyable hparam) hname
    exact heq ▸ hpt
  have hfor := ObjectClass.isFor_of_mem_params (ObjectClass.mem_params_of_mem_copyable hparam)
  -- Hence the write succeeds, and `k` is the copy after the edit.
  obtain ⟨j, hj⟩ := Instance.exists_link (i := copy.enter)
    (ObjectClass.isReadOnly_of_mem_copyable hparam) (Instance.isReference_of_pointsAt hpoints)
    (by rw [show copy.enter.payload.type = c.payloadType from htype]; exact hfor) r.target
  obtain ⟨k, hk, hclean⟩ := get?_tryEdit_self (f := fun i => i.link r.param r.target) hcopy hj
    (Instance.rewrites_link hj) hfit.deleting
  have hk : (b.link r).2.get? r.source = some k := hk
  have hval (a : Accessor P) : k.value? a = j.value? a := by
    rw [Instance.value?_of_markClean hclean, Instance.value?_leave]
  refine ⟨hrev.wellFormed h.wellFormed, hrev.registry.trans h.registry, hrev.id.trans h.id,
    fun e => ?_, h.held, fun l hl => ?_, fun e i' copy' c' payload hs hget hf hp => ?_⟩
  · unfold Accepts
    rw [hrev.contains_eq, hrev.registry]
    exact h.live e
  · rw [hrev.contains_eq, hrev.contains_eq]
    rcases hl with hl | rfl
    · exact h.made l hl
    · exact ⟨hlink, hsource, htarget⟩
  · rw [hrev.registry] at hf
    -- Only the source of the record is edited.
    by_cases he : e = r.source
    · subst he
      cases hi.symm.trans hs
      cases hfind.symm.trans hf
      cases hk.symm.trans hget
      have hbase := h.values _ _ _ _ _ hi hcopy hfind hp
      have hm := (hbase.of_value? (Instance.value?_enter copy)).link hwf hlawc hparam hpoints hj
      refine (hm.of_value? hval).of_linked fun name t => ?_
      simp [ReferenceRecord.link]
    · have hget' : b.get? e = some copy' := (get?_tryEdit_of_ne he).symm.trans hget
      refine (h.values e i' copy' c' payload hs hget' hf hp).of_linked fun name t => ?_
      simp [ReferenceRecord.link, he]

end Description

end Book

end EntityBook
