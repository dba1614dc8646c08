import EntityBook.Proofs.Copy.Order
import EntityBook.Proofs.Copy.Targets

/-! # Faithful copies

  What a copied entity holds when the call returns, parameter by parameter, and what
  the call does to entities that were there before. The values of the source are
  written at once; its references are drafted, wait in the order of the parameters,
  and are linked by the resolution at the end of the call, as far as their targets
  are there. The same resolution links what earlier copies left waiting, and that is
  all that other entities see of the call.
-/

namespace EntityBook

variable {P : PayloadFamily}

namespace Instance

/-! ### Targets -/

/-- The entities that a parameter points at, in the parameter's order. -/
def targets (i : Instance P) (p : Param P) : List Entity :=
  match i.references p with
  | .ok ts => ts
  | .error _ => []

theorem targets_of_ok {i : Instance P} {p : Param P} {ts : List Entity}
    (h : i.references p = .ok ts) : i.targets p = ts := by
  unfold targets
  rw [h]

theorem mem_targets {i : Instance P} {p : Param P} {t : Entity} :
    t ∈ i.targets p ↔ i.PointsAt p t := by
  cases h : i.references p with
  | ok ts =>
    rw [targets_of_ok h]
    exact mem_references h t
  | error err =>
    unfold targets
    rw [h]
    exact ⟨fun ht => absurd ht List.not_mem_nil, fun ht => absurd ht (not_pointsAt_of_error h t)⟩

theorem targets_of_value {i : Instance P} {p : Param P} (h : p.isReference = false) :
    i.targets p = [] := by
  refine List.eq_nil_iff_forall_not_mem.mpr fun t ht => ?_
  have href := isReference_of_pointsAt (mem_targets.mp ht)
  rw [h] at href
  cases href

theorem targets_of_collection {i : Instance P} {p : Param P} {element : TypeTag}
    {f : Field P (List Guid)} (ha : p.accessor = .collection element f) {members : List Guid}
    (hv : i.value? p.accessor = some (.collection members)) :
    i.targets p = (members.map fun g => ⟨element, g⟩).filter fun e => !e.guid.isNull := by
  rw [ha] at hv
  obtain ⟨ms, hms, heq⟩ := Option.map_eq_some_iff.mp hv
  cases heq
  unfold targets references
  simp only [ha, hms]

/-- What is put off are the entities that the parameter points at. -/
theorem references_of_deferred {source dest j : Instance P} {p : Param P} {ts : List Entity}
    (h : source.copyParam dest p = .ok (.deferred ts, j)) : source.references p = .ok ts := by
  have listed (h : (source.references p).map (fun ts => (Transfer.deferred ts, dest)) =
      .ok (.deferred ts, j)) : source.references p = .ok ts := by
    cases hr : source.references p with
    | error err => simp [hr, Except.map] at h
    | ok us =>
      simp only [hr, Except.map, Except.ok.injEq, Prod.mk.injEq, Transfer.deferred.injEq] at h
      rw [h.1]
  unfold copyParam at h
  cases ha : p.accessor with
  | reference | choice | collection =>
    simp only [ha] at h
    exact listed h
  | book | slots => simp [ha] at h
  | scalar k f =>
    simp only [ha] at h
    split at h
    · cases h
    · split at h
      · cases h
      · next v _ => cases hw : dest.write p v <;> simp [hw, Except.map] at h

/-- Copying a parameter does not show through a reference: references are put off. -/
theorem value?_copyParam_of_reference {c : ObjectClass P} (hc : c.WellFormed) (hlaw : c.IsLawful)
    {p q : Param P} (hp : p ∈ c.copyable) (hq : q ∈ c.copyable) (hqref : q.isReference = true)
    {source dest j : Instance P} {t : Transfer} (h : source.copyParam dest p = .ok (t, j)) :
    j.value? q.accessor = dest.value? q.accessor := by
  have written (href : p.isReference = false) {v : ParamValue} (hw : dest.write p v = .ok j) :
      j.value? q.accessor = dest.value? q.accessor := by
    refine hlaw.independent p hp q hq (fun hname => ?_) _ _ _ hw
    rw [ObjectClass.eq_of_name_eq hc (ObjectClass.mem_params_of_mem_copyable hp)
      (ObjectClass.mem_params_of_mem_copyable hq) hname, hqref] at href
    cases href
  have listed (h : (source.references p).map (fun ts => (Transfer.deferred ts, dest)) =
      .ok (t, j)) : j.value? q.accessor = dest.value? q.accessor := by
    cases hr : source.references p with
    | error err => simp [hr, Except.map] at h
    | ok us =>
      simp only [hr, Except.map, Except.ok.injEq, Prod.mk.injEq] at h
      rw [h.2]
  unfold copyParam at h
  cases ha : p.accessor with
  | book =>
    simp only [ha] at h
    cases h
    rfl
  | slots =>
    simp only [ha] at h
    cases h
    exact written (v := .slots source.slots) (by rw [Param.isReference, Param.kind, ha]; rfl)
      (by simp [Instance.write, ha])
  | scalar k f =>
    simp only [ha] at h
    split at h
    · cases h
      rfl
    · split at h
      · cases h
      · next v _ =>
        cases hw : dest.write p v with
        | error err => simp [hw, Except.map] at h
        | ok k =>
          simp only [hw, Except.map, Except.ok.injEq, Prod.mk.injEq] at h
          exact written (by rw [Param.isReference, Param.kind, ha]; rfl) (h.2 ▸ hw)
  | reference | choice | collection =>
    simp only [ha] at h
    exact listed h

/-! ### Faithful values -/

/-- A copied parameter, by what is there of the entities that the source's points at:
    a reference is the source's if its target is there, and otherwise that of a new
    instance; a collection is that of a new instance followed by the source's members
    that are there, each once; anything else is the source's. -/
def Replicates (p : Param P) (blank source : Instance P) (live : Entity → Bool)
    (copy : Instance P) : Prop :=
  match p.accessor with
  | .reference _ _ | .choice _ =>
    (∀ t, source.PointsAt p t → live t = true →
      copy.value? p.accessor = source.value? p.accessor) ∧
    ((∀ t, source.PointsAt p t → live t = false) →
      copy.value? p.accessor = blank.value? p.accessor)
  | .collection element _ =>
    ∃ own members, blank.value? p.accessor = some (.collection own) ∧
      source.value? p.accessor = some (.collection members) ∧
      copy.value? p.accessor = some (.collection (own ++ (members.filter fun g =>
        !g.isNull && live ⟨element, g⟩ && !own.contains g).eraseDups))
  | _ => copy.value? p.accessor = source.value? p.accessor

theorem replicates_of_value {p : Param P} {blank source copy : Instance P}
    {live : Entity → Bool} (hp : p.isReference = false)
    (hv : copy.value? p.accessor = source.value? p.accessor) :
    Replicates p blank source live copy := by
  unfold Param.isReference Param.kind at hp
  unfold Replicates
  cases ha : p.accessor with
  | reference | choice | collection =>
    rw [ha] at hp
    cases hp
  | scalar | slots | book =>
    rw [ha] at hv
    exact hv

/-- Links of a parameter with one target leave the value with that target. -/
theorem foldl_linked_eq {v w : ParamValue} (ts : List Entity)
    (hv : ∀ t ∈ ts, v.linked t = w) (hw : ∀ t ∈ ts, w.linked t = w) :
    ts.foldl ParamValue.linked v = if ts = [] then v else w := by
  have stays (us : List Entity) (hus : ∀ t ∈ us, w.linked t = w) :
      us.foldl ParamValue.linked w = w := by
    induction us with
    | nil => rfl
    | cons t rest ih =>
      rw [List.foldl_cons, hus t List.mem_cons_self]
      exact ih fun u hu => hus u (List.mem_cons_of_mem t hu)
  cases ts with
  | nil => rfl
  | cons t rest =>
    rw [List.foldl_cons, hv t List.mem_cons_self,
      stays rest fun u hu => hw u (List.mem_cons_of_mem t hu)]
    rfl

/-- Members that are linked one by one are appended, those that are new, each once. -/
theorem foldl_linked_members (element : TypeTag) (live : Entity → Bool) (members own : List Guid) :
    (((((members.map fun g => (⟨element, g⟩ : Entity)).filter fun e => !e.guid.isNull).foldl
        appendNew []).filter live).foldl (fun ms t => appendNew ms t.guid) own) =
      own ++ (members.filter fun g =>
        !g.isNull && live ⟨element, g⟩ && !own.contains g).eraseDups := by
  -- A member that was appended before is there already.
  have again (ms : List Guid) (ts : List Entity) (t : Entity) (ht : t ∈ ts) :
      appendNew (ts.foldl (fun ms t => appendNew ms t.guid) ms) t.guid =
        ts.foldl (fun ms t => appendNew ms t.guid) ms := by
    have hmem : t.guid ∈ (ts.map Entity.guid).foldl appendNew ms :=
      mem_foldl_appendNew.mpr (Or.inr (List.mem_map_of_mem ht))
    rw [List.foldl_map] at hmem
    exact if_pos (List.contains_iff_mem.mpr hmem)
  rw [foldl_filter_appendNew again, List.filter_nil, List.foldl_nil, List.filter_filter,
    List.filter_map, List.foldl_map, foldl_appendNew, List.filter_filter]
  congr 2
  refine List.filter_congr fun g _ => ?_
  simp only [Function.comp_apply]
  rw [Bool.and_comm, Bool.and_comm (live _)]

/-- A reference that was linked to those of its targets that are there. -/
theorem replicates_of_linked {p : Param P} {blank source copy : Instance P}
    {live : Entity → Bool} (hp : p.isReference = true) {v w : ParamValue}
    (hblank : blank.value? p.accessor = some v) (hsource : source.value? p.accessor = some w)
    (hcopy : copy.value? p.accessor = some
      ((((source.targets p).foldl appendNew []).filter live).foldl ParamValue.linked v)) :
    Replicates p blank source live copy := by
  let ts := ((source.targets p).foldl appendNew []).filter live
  have hmem (t : Entity) : t ∈ ts ↔ source.PointsAt p t ∧ live t = true := by
    simp only [ts, List.mem_filter, mem_foldl_appendNew, List.not_mem_nil, false_or, mem_targets]
  -- A parameter with one target is blank or the source's, depending on whether it is there.
  have single (hv : ∀ t, source.PointsAt p t → v.linked t = w)
      (hw : ∀ t, source.PointsAt p t → w.linked t = w) :
      (∀ t, source.PointsAt p t → live t = true →
        copy.value? p.accessor = source.value? p.accessor) ∧
      ((∀ t, source.PointsAt p t → live t = false) →
        copy.value? p.accessor = blank.value? p.accessor) := by
    have heq := foldl_linked_eq ts (fun t ht => hv t ((hmem t).mp ht).1)
      fun t ht => hw t ((hmem t).mp ht).1
    rw [hcopy, hsource, hblank]
    refine ⟨fun t ht hlive => ?_, fun hgone => ?_⟩
    · have hne : ts ≠ [] := List.ne_nil_of_mem ((hmem t).mpr ⟨ht, hlive⟩)
      rw [if_neg hne] at heq
      exact congrArg some heq
    · have hnil : ts = [] := List.eq_nil_iff_forall_not_mem.mpr fun t ht => by
        obtain ⟨hpoints, hlive⟩ := (hmem t).mp ht
        rw [hgone t hpoints] at hlive
        cases hlive
      rw [if_pos hnil] at heq
      exact congrArg some heq
  have hkind := hasKind_value hblank
  have hvalue {t : Entity} (ht : source.PointsAt p t) : w.PointsAt p.accessor.targetType t := by
    obtain ⟨_, w', hw', hpoints⟩ := ht
    cases hsource.symm.trans hw'
    exact hpoints
  unfold Param.isReference Param.kind at hp
  unfold Replicates
  cases ha : p.accessor with
  | scalar | slots | book =>
    rw [ha] at hp
    cases hp
  | reference tag f =>
    rw [ha] at hkind hsource
    obtain ⟨g, _, rfl⟩ := Option.map_eq_some_iff.mp hsource
    cases v with
    | reference own =>
      have htarget (t : Entity) (ht : source.PointsAt p t) :
          ParamValue.reference (some t.guid) = .reference g :=
        congrArg _ (hvalue ht).1.symm
      simpa only [ha] using single htarget htarget
    | _ => cases hkind
  | choice f =>
    rw [ha] at hkind hsource
    obtain ⟨x, _, rfl⟩ := Option.map_eq_some_iff.mp hsource
    cases v with
    | choice own =>
      have htarget (t : Entity) (ht : source.PointsAt p t) :
          ParamValue.choice (some t) = .choice x :=
        congrArg _ (show x = some t from hvalue ht).symm
      simpa only [ha] using single htarget htarget
    | _ => cases hkind
  | collection element f =>
    have hsource' := hsource
    rw [ha] at hkind hsource
    obtain ⟨members, _, rfl⟩ := Option.map_eq_some_iff.mp hsource
    cases v with
    | collection own =>
      refine ⟨own, members, by rw [← ha]; exact hblank, hsource, ?_⟩
      rw [← ha, hcopy, ParamValue.foldl_linked_collection, targets_of_collection ha hsource',
        foldl_linked_members]
    | _ => cases hkind

end Instance

namespace Book

/-! ### A copy before its references are linked -/

/-- The references of a copy are those of a new instance until they are linked. -/
theorem references_transfer {b : Book P} {i : Instance P} {c : ObjectClass P}
    {payload : Payload P} (hb : (b.adopt (b.newborn i.entity payload)).WellFormed)
    (hc : c.WellFormed) (hlaw : c.IsLawful) :
    ∃ copy, (b.transfer i c payload).book.get? i.entity = some copy ∧
      ∀ q ∈ c.copyable, q.isReference = true →
        copy.value? q.accessor = (b.newborn i.entity payload).value? q.accessor := by
  have steps (ps : List (Param P)) (hps : ∀ p ∈ ps, p ∈ c.copyable) (s : Progress P)
      (hs : s.book.WellFormed) {copy : Instance P} (hcopy : s.book.get? i.entity = some copy) :
      ∃ copy', (ps.foldl (Progress.step i) s).book.get? i.entity = some copy' ∧
        ∀ q ∈ c.copyable, q.isReference = true →
          copy'.value? q.accessor = copy.value? q.accessor := by
    induction ps generalizing s copy with
    | nil => exact ⟨copy, hcopy, fun _ _ _ => rfl⟩
    | cons p rest ih =>
      have hrewrites (k : Instance P) :
          k.Rewrites (attempt (fun dest => i.copyParam dest p) k).2 :=
        rewrites_attempt fun _ _ h => Instance.rewrites_copyParam h
      obtain ⟨next, hnext, hclean⟩ := get?_edit_self (f := attempt fun dest => i.copyParam dest p)
        hcopy (hrewrites _) (hs.fits _ _ hcopy).deleting
      obtain ⟨last, hlast, hsame⟩ := ih (fun q hq => hps q (List.mem_cons_of_mem p hq))
        (s.step i p) ((Revises.edit hs hrewrites).wellFormed hs) hnext
      refine ⟨last, hlast, fun q hq href => ?_⟩
      rw [hsame q hq href, Instance.value?_of_markClean hclean, Instance.value?_leave,
        ← Instance.value?_enter copy]
      -- The edit writes what the copy of the parameter leaves, or nothing if it fails.
      cases hcp : i.copyParam copy.enter p with
      | error err => rw [attempt_of_error hcp]
      | ok done =>
        obtain ⟨t, j⟩ := done
        rw [attempt_of_ok hcp]
        exact Instance.value?_copyParam_of_reference hc hlaw (hps p List.mem_cons_self) hq href hcp
  exact steps c.copyable (fun p hp => hp) _ hb (get?_adopt_self b (b.newborn i.entity payload))

/-! ### Drafts -/

/-- A copy of which some parameters were dealt with: the source's references wait in the
    order of the parameters. -/
structure Progress.Drafted (c : ObjectClass P) (blank source : Instance P)
    (dealt : List (Param P)) (s : Progress P) : Prop
    extends Progress.Merged c blank source dealt s where
  waiting : s.deferred = dealt.flatMap fun p =>
    (source.targets p).map fun t => ⟨source.entity, p, t⟩

section Draft

variable {c : ObjectClass P} {blank source : Instance P} {dealt : List (Param P)}
  {s : Progress P}

theorem Progress.Drafted.step (h : s.Drafted c blank source dealt) (hc : c.WellFormed)
    (hlaw : c.IsLawful) (hsource : source.payload.type = c.payloadType)
    (hblank : blank.payload.type = c.payloadType) {p : Param P} (hp : p ∈ c.copyable)
    (hnew : p ∉ dealt) : (s.step source p).Drafted c blank source (dealt ++ [p]) := by
  obtain ⟨copy, hget, hrew, _⟩ := h.live
  have hfor := ObjectClass.isFor_of_mem_params (ObjectClass.mem_params_of_mem_copyable hp)
  have hro := ObjectClass.isReadOnly_of_mem_copyable hp
  have hcopy : p.isFor copy.payload.type = true := (hrew.payload.trans hblank) ▸ hfor
  obtain ⟨_, _, _, _, hcases⟩ :=
    Progress.step_cases h.wellFormed hget hro (hsource ▸ hfor) hcopy
  -- What is dealt with now is either a value or a list of targets.
  have hstep : (s.step source p).deferred =
      s.deferred ++ (source.targets p).map (fun t => ⟨source.entity, p, t⟩) := by
    rcases hcases with ⟨href, hdef, _⟩ | ⟨_, _, ts, hts, hdef⟩
    · rw [hdef, Instance.targets_of_value href, List.map_nil, List.append_nil]
    · rw [hdef, Instance.targets_of_ok hts]
  refine ⟨h.toMerged.step hc hlaw hsource hblank hp hnew, ?_⟩
  rw [hstep, h.waiting, List.flatMap_append]
  simp

theorem Progress.Drafted.steps (hc : c.WellFormed) (hlaw : c.IsLawful)
    (hsource : source.payload.type = c.payloadType) (hblank : blank.payload.type = c.payloadType)
    (ps : List (Param P)) (hps : ∀ p ∈ ps, p ∈ c.copyable) (hnodup : (dealt ++ ps).Nodup)
    (h : s.Drafted c blank source dealt) :
    (ps.foldl (Progress.step source) s).Drafted c blank source (dealt ++ ps) := by
  induction ps generalizing dealt s with
  | nil => simpa using h
  | cons p rest ih =>
    have hsplit : dealt ++ p :: rest = (dealt ++ [p]) ++ rest := by simp
    have hnew : p ∉ dealt := fun hm =>
      (List.nodup_append.mp hnodup).2.2 p hm p List.mem_cons_self rfl
    rw [hsplit] at hnodup ⊢
    exact ih (fun q hq => hps q (List.mem_cons_of_mem p hq)) hnodup
      (h.step hc hlaw hsource hblank (hps p List.mem_cons_self) hnew)

/-- The copy of an instance before any of its references is linked. -/
theorem drafted_transfer {dest : Book P} (hd : dest.WellFormed) (hlaw : c.IsLawful)
    {payload : Payload P} (hg : source.entity.guid.isNull = false)
    (hfind : dest.registry.find? source.entity.typeTag = some c)
    (hp : c.initialPayload? = some payload) (hsource : source.payload.type = c.payloadType) :
    (dest.transfer source c payload).Drafted c (dest.newborn source.entity payload) source
      c.copyable := by
  have hc : c.WellFormed := hd.registry.of_find? hfind
  have hblank : (dest.newborn source.entity payload).payload.type = c.payloadType :=
    ObjectClass.type_of_initialPayload hp
  have hstart : Progress.Drafted c (dest.newborn source.entity payload) source []
      { book := dest.adopt (dest.newborn source.entity payload) } :=
    ⟨Progress.merged_start hd hg hfind hp, rfl⟩
  have hend := hstart.steps hc hlaw hsource hblank c.copyable (fun p hp => hp)
    (by simpa using (ObjectClass.nodup_copyable hc).of_map)
  rwa [List.nil_append] at hend

/-- The targets of one parameter are waited for in its order. -/
theorem Progress.Drafted.targetsOf_deferred {ps : List (Param P)}
    (h : s.Drafted c blank source ps) (hnames : (ps.map Param.name).Nodup) {p : Param P}
    (hp : p ∈ ps) : targetsOf source.entity p.name s.deferred = source.targets p := by
  rw [h.waiting, targetsOf_flatMap, ObjectClass.filter_name_eq hnames hp,
    List.flatMap_singleton]

end Draft

/-! ### What a copy adds -/

theorem Progress.mem_deferred_step {source : Instance P} {s : Progress P} {p : Param P}
    {r : ReferenceRecord P} (h : r ∈ (s.step source p).deferred) :
    r ∈ s.deferred ∨ (r.source = source.entity ∧ r.param = p ∧ source.PointsAt p r.target) := by
  unfold Progress.step at h
  dsimp only at h
  rcases List.mem_append.mp h with h | h
  · exact Or.inl h
  · obtain ⟨t, ht, rfl⟩ := List.mem_map.mp h
    refine Or.inr ⟨rfl, rfl, ?_⟩
    cases hget : s.book.get? source.entity with
    | none =>
      rw [edit_of_none hget] at ht
      cases ht
    | some i =>
      rw [result?_edit hget] at ht
      cases hc : source.copyParam i.enter p with
      | error err =>
        rw [attempt_of_error hc] at ht
        cases ht
      | ok done =>
        obtain ⟨outcome, j⟩ := done
        rw [attempt_of_ok hc] at ht
        cases outcome with
        | copied | skipped => cases ht
        | deferred ts =>
          exact (Instance.mem_references (Instance.references_of_deferred hc) t).mp ht

theorem mem_deferred_transfer {b : Book P} {i : Instance P} {c : ObjectClass P}
    {payload : Payload P} {r : ReferenceRecord P} (h : r ∈ (b.transfer i c payload).deferred) :
    r.source = i.entity ∧ r.param ∈ c.copyable ∧ i.PointsAt r.param r.target := by
  have steps (ps : List (Param P)) (s : Progress P)
      (hr : r ∈ (ps.foldl (Progress.step i) s).deferred) :
      r ∈ s.deferred ∨ (r.source = i.entity ∧ r.param ∈ ps ∧ i.PointsAt r.param r.target) := by
    induction ps generalizing s with
    | nil => exact Or.inl hr
    | cons p rest ih =>
      rcases ih (s.step i p) hr with hr | ⟨hsource, hparam, hpoints⟩
      · rcases Progress.mem_deferred_step hr with hr | ⟨hsource, rfl, hpoints⟩
        · exact Or.inl hr
        · exact Or.inr ⟨hsource, List.mem_cons_self, hpoints⟩
      · exact Or.inr ⟨hsource, List.mem_cons_of_mem p hparam, hpoints⟩
  rcases steps c.copyable _ h with h | h
  · cases h
  · exact h

/-- Every waiting record names a reference that the class of its source copies: copies
    queue no other. -/
def Queued (b : Book P) : Prop :=
  ∀ r ∈ b.pending, ∃ c, b.registry.find? r.source.typeTag = some c ∧ r.param ∈ c.copyable ∧
    r.param.isReference = true

/-- A book before and after an entity was copied to it: what was there is there as it
    was, and all that is queued are references of the new entity. -/
structure Adds (i : Instance P) (b b' : Book P) : Prop where
  kept : ∀ x j, b.get? x = some j → b'.get? x = some j
  queued : ∀ r ∈ b'.pending, r ∈ b.pending ∨
    (r.source = i.entity ∧ b.contains i.entity = false ∧
      ∃ c, b.registry.find? i.entity.typeTag = some c ∧ r.param ∈ c.copyable ∧
        r.param.isReference = true)

theorem Adds.refl (i : Instance P) (b : Book P) : Adds i b b :=
  ⟨fun _ _ hx => hx, fun _ hr => Or.inl hr⟩

theorem adds_copyOne (b : Book P) (i : Instance P) : Adds i b (b.copyOne i).2 := by
  rcases copyOne_cases b i with ⟨hsame, _⟩ | ⟨h, _, c, payload, hc, _, _, hmade⟩
  · rw [hsame]
    exact .refl i b
  · rw [hmade]
    refine ⟨fun x j hx => ?_, fun r hr => ?_⟩
    · have hne : x ≠ i.entity := by
        rintro rfl
        rw [contains_of_some hx] at h
        cases h
      exact (get?_transfer_of_ne hne).trans hx
    · rcases mem_foldl_addRecord hr with hr | hr
      · exact Or.inl ((pending_transfer b i c payload) ▸ hr)
      · obtain ⟨hsource, hparam, hpoints⟩ := mem_deferred_transfer hr
        exact Or.inr ⟨hsource, h, c, hc, hparam, Instance.isReference_of_pointsAt hpoints⟩

/-! ### Whole calls -/

section CopyEntity

variable {dest : Book P} {i : Instance P}

/-- The destination of a call once its entity is there and nothing is linked yet. -/
theorem wellFormed_copyOne (hd : dest.WellFormed) (hg : i.entity.guid.isNull = false) :
    (dest.suspend.copyOne i).2.WellFormed :=
  (copyOne_spec ((Revises.suspend dest).wellFormed hd) hg).1

theorem revises_copyEntity (hd : dest.WellFormed) (hg : i.entity.guid.isNull = false) :
    (dest.suspend.copyOne i).2.Revises (dest.copyEntity i).2 :=
  (Revises.resolvePending (wellFormed_copyOne hd hg)).trans (.resume _)

theorem wellFormed_copyEntity (hd : dest.WellFormed) (hg : i.entity.guid.isNull = false) :
    (dest.copyEntity i).2.WellFormed :=
  (revises_copyEntity hd hg).wellFormed (wellFormed_copyOne hd hg)

theorem registry_copyEntity (hd : dest.WellFormed) (hg : i.entity.guid.isNull = false) :
    (dest.copyEntity i).2.registry = dest.registry :=
  (revises_copyEntity hd hg).registry.trans
    (copyOne_spec ((Revises.suspend dest).wellFormed hd) hg).2.1

/-- Copies queue nothing but references. -/
theorem Queued.copyEntity (hd : dest.WellFormed) (hg : i.entity.guid.isNull = false)
    (h : dest.Queued) : (dest.copyEntity i).2.Queued := by
  intro r hr
  rw [registry_copyEntity hd hg]
  have hr : r ∈ (dest.suspend.copyOne i).2.resolvePending.2.pending := hr
  rw [pending_resolvePending (wellFormed_copyOne hd hg)] at hr
  rcases mem_foldl_addRecord hr with hr | hr
  · cases hr
  · rcases (adds_copyOne dest.suspend i).queued r (List.mem_filter.mp hr).1 with
      hr | ⟨hsource, _, hc⟩
    · exact h r hr
    · rw [hsource]
      exact hc

/-- What a call does to the entities that were there before: no parameter changes,
    except references that waited and whose targets are there now. A parameter that
    cannot be written is meant if no write to another one shows through it. -/
def Undisturbed (dest after : Book P) : Prop :=
  ∀ x j c q, dest.get? x = some j → dest.registry.find? x.typeTag = some c → q ∈ c.params →
    (q.isCopyable = true ∨ c.Detached q) → ∃ k, after.get? x = some k ∧
      (k.value? q.accessor = j.value? q.accessor ∨
        ∃ r ∈ dest.pending, r.source = x ∧ r.param = q ∧ q.isReference = true ∧
          after.contains r.target = true)

/-- Whatever the call comes to, nothing else is disturbed. -/
theorem undisturbed_copyEntity (hd : dest.WellFormed)
    (hlaw : ∀ c ∈ dest.registry.classes, c.IsLawful) (hqueued : dest.Queued)
    (hg : i.entity.guid.isNull = false) : dest.Undisturbed (dest.copyEntity i).2 := by
  intro x j c q hx hc hq hkind
  have hadds := adds_copyOne dest.suspend i
  have hwell := wellFormed_copyOne hd hg
  have hrev := revises_copyEntity hd hg
  obtain ⟨k, hk, hsame⟩ := get?_resolvePending hwell (hadds.kept x j hx)
  refine ⟨k, hk, ?_⟩
  -- Either a record of `q` is among those that `x` sees, or none of them shows through `q`.
  by_cases hnamed : ∃ r ∈ dest.pending, r.source = x ∧ r.param = q ∧
      (dest.suspend.copyOne i).2.contains r.target = true
  · obtain ⟨r, hr, hsource, hparam, htarget⟩ := hnamed
    obtain ⟨_, _, _, href⟩ := hqueued r hr
    exact Or.inr ⟨r, hr, hsource, hparam, hparam ▸ href, (hrev.contains_eq _).trans htarget⟩
  · left
    rw [hsame.value?]
    refine Instance.value?_foldl_linkedBy_of_independent _ (fun r hr => ?_) j
    obtain ⟨hr, hends⟩ := List.mem_filter.mp hr
    obtain ⟨hsource, htarget⟩ : r.source = x ∧
        (dest.suspend.copyOne i).2.contains r.target = true := by simpa using hends
    have hold : r ∈ dest.pending := by
      rcases hadds.queued r hr with hr | ⟨hnew, hgone, _⟩
      · exact hr
      · have hthere : dest.suspend.contains x = true := contains_of_some (b := dest.suspend) hx
        rw [← hsource, hnew, hgone] at hthere
        cases hthere
    obtain ⟨c', hc', hparam, _⟩ := hqueued r hold
    rw [hsource] at hc'
    cases hc.symm.trans hc'
    rcases hkind with hcopy | hdetached
    · refine (hlaw c (List.mem_of_find?_eq_some hc)).independent _ hparam q
        (ObjectClass.mem_copyable hq hcopy) fun hname => hnamed ⟨r, hold, hsource, ?_, htarget⟩
      exact ObjectClass.eq_of_name_eq (hd.registry.of_find? hc)
        (ObjectClass.mem_params_of_mem_copyable hparam) hq hname
    · exact hdetached _ hparam

end CopyEntity

section Accepted

variable {source b : Book P} {i : Instance P} {c : ObjectClass P} {payload : Payload P}

/-- The copy sees its own records only, and these name references of its class. -/
theorem names_reference_of_seen (hnone : ∀ r ∈ b.pending, r.source ≠ i.entity)
    (live : Entity → Bool) :
    ∀ r ∈ ((b.transfer i c payload).deferred.foldl addRecord b.pending).filter fun r =>
      r.source == i.entity && live r.target,
      r.param ∈ c.copyable ∧ r.param.isReference = true := by
  intro r hr
  obtain ⟨hr, hends⟩ := List.mem_filter.mp hr
  obtain ⟨hsource, _⟩ : r.source = i.entity ∧ live r.target = true := by simpa using hends
  rcases mem_foldl_addRecord hr with hr | hr
  · exact absurd hsource (hnone r hr)
  · obtain ⟨_, hparam, hpoints⟩ := mem_deferred_transfer hr
    exact ⟨hparam, Instance.isReference_of_pointsAt hpoints⟩

/-- The values of an entity that was copied, once references are resolved. -/
theorem replicates_copyOne (hb : b.WellFormed) (hlaw : c.IsLawful)
    (hg : i.entity.guid.isNull = false) (hnew : b.contains i.entity = false)
    (hnone : ∀ r ∈ b.pending, r.source ≠ i.entity)
    (hc : b.registry.find? i.entity.typeTag = some c) (hcomp : c.isCompliant = true)
    (hp : c.initialPayload? = some payload) (htype : i.payload.type = c.payloadType) :
    ∃ copy, (b.copyOne i).2.resolvePending.2.get? i.entity = some copy ∧ ∀ p ∈ c.copyable,
      Instance.Replicates p (b.newborn i.entity payload) i
        (b.copyOne i).2.resolvePending.2.contains copy := by
  have hwf : c.WellFormed := hb.registry.of_find? hc
  have hwell := (copyOne_spec hb hg).1
  have hlive := funext (Revises.resolvePending hwell).contains_eq
  rw [hlive]
  rw [copyOne_of_accepts hnew hg hc hcomp hp] at hwell ⊢
  dsimp only at hwell ⊢
  have hdraft := drafted_transfer hb hlaw hg hc hp htype
  let t := b.transfer i c payload
  let made := t.book.pushPending t.deferred
  have hpending : made.pending = t.deferred.foldl addRecord b.pending := by
    show t.deferred.foldl addRecord t.book.pending = _
    rw [pending_transfer]
  obtain ⟨draft, hget, hrew, hdone, _⟩ := hdraft.live
  have hget : made.get? i.entity = some draft := hget
  obtain ⟨copy, hcopy, hsame⟩ := get?_resolvePending hwell hget
  have hseen : ∀ r ∈ made.pending.filter fun r =>
      r.source == i.entity && made.contains r.target,
      r.param ∈ c.copyable ∧ r.param.isReference = true := by
    rw [hpending]
    exact names_reference_of_seen hnone made.contains
  have hblank : draft.payload.type = c.payloadType :=
    hrew.payload.trans (ObjectClass.type_of_initialPayload hp)
  refine ⟨copy, hcopy, fun p hmem => ?_⟩
  have hfor := ObjectClass.isFor_of_mem_params (ObjectClass.mem_params_of_mem_copyable hmem)
  cases href : p.isReference with
  | false =>
    refine Instance.replicates_of_value href ?_
    rw [hsame.value?, Instance.value?_foldl_linkedBy_of_independent _ ?_]
    · exact (hdone p hmem hmem).value?_eq href
    · intro r hr
      obtain ⟨hparam, hrref⟩ := hseen r hr
      refine hlaw.independent _ hparam p hmem fun hname => ?_
      have heq := ObjectClass.eq_of_name_eq hwf (ObjectClass.mem_params_of_mem_copyable hparam)
        (ObjectClass.mem_params_of_mem_copyable hmem) hname
      rw [heq, href] at hrref
      cases hrref
  | true =>
    obtain ⟨v, hv⟩ := Instance.exists_value (i := draft) (p := p) (hblank ▸ hfor)
    obtain ⟨w, hw⟩ := Instance.exists_value (i := i) (p := p) (htype ▸ hfor)
    obtain ⟨_, hget', huntouched⟩ := references_transfer (hb.adopt hg hc hp) hwf hlaw
    cases hget'.symm.trans hget
    refine Instance.replicates_of_linked href (huntouched p hmem href ▸ hv) hw ?_
    rw [hsame.value?, Instance.value?_foldl_linkedBy hwf hlaw hmem _ hseen hblank hv,
      targetsOf_filter, hpending, targetsOf_foldl_addRecord,
      hdraft.targetsOf_deferred (ObjectClass.nodup_copyable hwf) hmem, targetsOf_eq_nil hnone]

/-- The links of an entity that was copied wait as long as their targets are missing. -/
theorem waiting_copyOne (hb : b.WellFormed) (hr : b.registry = source.registry)
    (hi : source.get? i.entity = some i) (hlaw : c.IsLawful)
    (hg : i.entity.guid.isNull = false) (hnew : b.contains i.entity = false)
    (hnone : ∀ r ∈ b.pending, r.source ≠ i.entity)
    (hc : b.registry.find? i.entity.typeTag = some c) (hcomp : c.isCompliant = true)
    (hp : c.initialPayload? = some payload) (htype : i.payload.type = c.payloadType)
    (name : String) (t : Entity) :
    (i.entity, name, t) ∈
        (b.copyOne i).2.resolvePending.2.pending.map ReferenceRecord.link ↔
      source.HasLink (i.entity, name, t) ∧
        (b.copyOne i).2.resolvePending.2.contains t = false := by
  have harrival := arrival_copyOne hb hg hnew hc hlaw hcomp hp htype
  obtain ⟨rs, hpending, _, hlinks⟩ := harrival.hasLink_iff hr hi hc
  have hthere : (b.copyOne i).2.contains i.entity = true := (harrival.live _).mpr (Or.inl rfl)
  have hold : (i.entity, name, t) ∉ b.pending.map ReferenceRecord.link := by
    intro hl
    obtain ⟨r, hr, heq⟩ := List.mem_map.mp hl
    exact hnone r hr (congrArg Prod.fst heq)
  rw [mem_link_resolvePending harrival.wellFormed,
    (Revises.resolvePending harrival.wellFormed).contains_eq, hpending,
    mem_link_foldl_addRecord, hlinks]
  constructor
  · rintro ⟨hl | ⟨_, hl⟩, _, ht⟩
    · exact absurd hl hold
    · exact ⟨hl, ht⟩
  · rintro ⟨hl, ht⟩
    exact ⟨Or.inr ⟨rfl, hl⟩, hthere, ht⟩

end Accepted

/-! ### Fidelity -/

/-- What is there of an entity that was copied, by what is there of its targets. -/
structure FaithfulCopy (source after : Book P) (i blank : Instance P) (c : ObjectClass P) :
    Prop where
  values : ∃ copy, after.get? i.entity = some copy ∧
    ∀ p ∈ c.copyable, Instance.Replicates p blank i after.contains copy
  /-- The links to targets that are missing wait. -/
  waiting : ∀ name t, (i.entity, name, t) ∈ after.pending.map ReferenceRecord.link ↔
    source.HasLink (i.entity, name, t) ∧ after.contains t = false

/-- A copy is faithful and disturbs nothing. The destination may be any book of the
    same registry in which copies left references waiting, though none of the entity
    itself. If the call makes the entity, accepted by the backend or not, it is there
    as the source has it; and in any case the other entities see no more of the call
    than the references that waited. -/
theorem copy_is_faithful {source dest : Book P} {i : Instance P} (hsource : source.WellFormed)
    (hdest : dest.WellFormed) (hr : dest.registry = source.registry)
    (hlaw : ∀ c ∈ source.registry.classes, c.IsLawful) (hi : source.get? i.entity = some i)
    (hqueued : dest.Queued) (hnone : ∀ r ∈ dest.pending, r.source ≠ i.entity) :
    ((∃ e, (dest.copyEntity i).1 = .ok e) ∨
      (∃ e err, (dest.copyEntity i).1 = .error (.rejected e err)) →
        ∃ c payload, dest.registry.find? i.entity.typeTag = some c ∧
          c.initialPayload? = some payload ∧
          FaithfulCopy source (dest.copyEntity i).2 i (dest.newborn i.entity payload) c) ∧
    dest.Undisturbed (dest.copyEntity i).2 := by
  have hfit := hsource.fits _ _ hi
  have hg := hfit.guid
  refine ⟨fun hmade => ?_, undisturbed_copyEntity hdest (hr ▸ hlaw) hqueued hg⟩
  have hb : dest.suspend.WellFormed := (Revises.suspend dest).wellFormed hdest
  have hresult : (dest.copyEntity i).1 = (dest.suspend.copyOne i).1 := rfl
  rw [hresult] at hmade
  rcases copyOne_cases dest.suspend i with
    ⟨_, _, hok, hrejected⟩ | ⟨hnew, _, c, payload, hc, hcomp, hp, _⟩
  · rcases hmade with ⟨e, he⟩ | ⟨e, err, he⟩
    · exact absurd he (hok e)
    · exact absurd he (hrejected e err)
  · have hlawc : c.IsLawful := (hr ▸ hlaw) c (List.mem_of_find?_eq_some hc)
    -- Both books have the same class for the entity.
    obtain ⟨c', hc', _, htype⟩ := hfit.known
    rw [← hr] at hc'
    cases Option.some.inj (hc.symm.trans hc')
    exact ⟨c, payload, hc, hp,
      replicates_copyOne hb hlawc hg hnew hnone hc hcomp hp htype,
      waiting_copyOne hb hr hi hlawc hg hnew hnone hc hcomp hp htype⟩

/-- Two neighbours of the ring, one copied after the other: the reference of the second
    one is linked when the third one is there, and the third one's waits in turn. -/
theorem neighbours_copied :
    ∃ second third dest, Bag.ring.get? (Bag.node 2) = some second ∧
      Bag.ring.get? (Bag.node 3) = some third ∧
      dest = ((Bag.emptyBook 2).copyEntity second).2 ∧
      dest.pending.map (·.link) = [(Bag.node 2, "next", Bag.node 3)] ∧
      (dest.copyEntity third).1 = .ok (Bag.node 3) ∧
      (dest.copyEntity third).2.pending.map (·.link) = [(Bag.node 3, "next", Bag.node 4)] ∧
      (∃ c payload, dest.registry.find? "node" = some c ∧ c.initialPayload? = some payload ∧
        FaithfulCopy Bag.ring (dest.copyEntity third).2 third
          (dest.newborn (Bag.node 3) payload) c) ∧
      dest.Undisturbed (dest.copyEntity third).2 := by
  let second := (Bag.ring.get? (Bag.node 2)).get (by decide +kernel)
  let third := (Bag.ring.get? (Bag.node 3)).get (by decide +kernel)
  let dest := ((Bag.emptyBook 2).copyEntity second).2
  have hsecond : Bag.ring.get? (Bag.node 2) = some second := Option.some_get _ |>.symm
  have hthird : Bag.ring.get? (Bag.node 3) = some third := Option.some_get _ |>.symm
  have hempty := Bag.wellFormed_emptyBook 2
  have hguid : second.entity.guid.isNull = false := by decide +kernel
  have hentity : third.entity = Bag.node 3 := by decide +kernel
  have hreg : dest.registry = Bag.nodes := registry_copyEntity hempty hguid
  have hqueued : dest.Queued := Queued.copyEntity hempty hguid fun r hr => nomatch hr
  obtain ⟨hmade, hundisturbed⟩ := copy_is_faithful (i := third) Bag.wellFormed_ring
    (wellFormed_copyEntity hempty hguid) hreg Bag.isLawful_nodes (hentity ▸ hthird) hqueued
    (by decide +kernel)
  have hok : (dest.copyEntity third).1 = .ok (Bag.node 3) := by decide +kernel
  have hfaithful := hmade (Or.inl ⟨_, hok⟩)
  rw [hentity] at hfaithful
  exact ⟨second, third, dest, hsecond, hthird, rfl, by decide +kernel, hok, by decide +kernel,
    hfaithful, hundisturbed⟩

end Book

end EntityBook
