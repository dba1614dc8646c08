import EntityBook.Proofs.Copy.One
import EntityBook.Proofs.Copy.References

/-! # What a copy holds

  A copied instance holds the scalars and the side-table of its source at once;
  of its references it holds those that were linked so far, and otherwise what a
  new instance of its class holds. `Merges` says this for all parameters of a
  lawful class. Copying starts with no link, and every link adds one.
-/

namespace EntityBook

variable {P : PayloadFamily}

/-- No write to another parameter of the class shows through a parameter. -/
def ObjectClass.Detached (c : ObjectClass P) (q : Param P) : Prop :=
  ∀ p ∈ c.copyable, p.Independent q

/-- Two values are the same up to the order and the repetition of the members of a
    collection. -/
def ParamValue.SameContent : ParamValue → ParamValue → Prop
  | .collection ms, .collection ns => ∀ g, g ∈ ms ↔ g ∈ ns
  | v, w => v = w

theorem ParamValue.SameContent.refl (v : ParamValue) : v.SameContent v := by
  cases v with
  | collection ms => exact fun g => Iff.rfl
  | _ => rfl

namespace Instance

/-! ### Values of a copy -/

/-- A parameter of a copy: a reference is the source's if it was linked, a
    collection has gained the members that were linked, and anything else is the
    source's. -/
def Holds (p : Param P) (blank source : Instance P) (linked : Entity → Prop)
    (copy : Instance P) : Prop :=
  match p.accessor with
  | .reference _ _ | .choice _ =>
    (∀ t, linked t → copy.value? p.accessor = source.value? p.accessor) ∧
    ((∀ t, ¬ linked t) → copy.value? p.accessor = blank.value? p.accessor)
  | .collection _ _ =>
    ∃ own members, blank.value? p.accessor = some (.collection own) ∧
      copy.value? p.accessor = some (.collection members) ∧
      ∀ g, g ∈ members ↔ g ∈ own ∨ ∃ t, linked t ∧ t.guid = g
  | _ => copy.value? p.accessor = source.value? p.accessor

/-- A copy of an instance of a class after some of its references were linked. -/
structure Merges (c : ObjectClass P) (blank source : Instance P)
    (linked : String → Entity → Prop) (copy : Instance P) : Prop where
  holds : ∀ p ∈ c.copyable, Holds p blank source (linked p.name) copy
  detached : ∀ q ∈ c.params, c.Detached q → copy.value? q.accessor = blank.value? q.accessor

@[simp] theorem value?_enter (i : Instance P) (a : Accessor P) :
    i.enter.value? a = i.value? a := by
  cases a <;> rfl

@[simp] theorem value?_leave (i : Instance P) (a : Accessor P) :
    i.leave.value? a = i.value? a := by
  cases a <;> rfl

/-- Only the value of the parameter matters. -/
theorem Holds.of_value? {p : Param P} {blank source copy copy' : Instance P}
    {linked : Entity → Prop} (h : Holds p blank source linked copy)
    (hv : copy'.value? p.accessor = copy.value? p.accessor) :
    Holds p blank source linked copy' := by
  unfold Holds at h ⊢
  rw [hv]
  exact h

theorem Holds.of_linked {p : Param P} {blank source copy : Instance P}
    {linked linked' : Entity → Prop} (h : Holds p blank source linked copy)
    (hl : ∀ t, linked' t ↔ linked t) : Holds p blank source linked' copy := by
  have heq : linked' = linked := funext fun t => propext (hl t)
  rw [heq]
  exact h

theorem Merges.of_value? {c : ObjectClass P} {blank source copy copy' : Instance P}
    {linked : String → Entity → Prop} (h : Merges c blank source linked copy)
    (hv : ∀ a, copy'.value? a = copy.value? a) : Merges c blank source linked copy' where
  holds p hp := (h.holds p hp).of_value? (hv _)
  detached q hq hd := (hv _).trans (h.detached q hq hd)

theorem Merges.of_linked {c : ObjectClass P} {blank source copy : Instance P}
    {linked linked' : String → Entity → Prop} (h : Merges c blank source linked copy)
    (hl : ∀ name t, linked' name t ↔ linked name t) : Merges c blank source linked' copy where
  holds p hp := (h.holds p hp).of_linked (hl p.name)
  detached := h.detached

/-- A parameter without references is copied as it is. -/
theorem holds_of_value {p : Param P} {blank source copy : Instance P} {linked : Entity → Prop}
    (hp : p.isReference = false) (hv : copy.value? p.accessor = source.value? p.accessor) :
    Holds p blank source linked copy := by
  unfold Param.isReference Param.kind at hp
  unfold Holds
  cases ha : p.accessor with
  | reference | choice | collection =>
    rw [ha] at hp
    cases hp
  | scalar | slots | book =>
    rw [ha] at hv
    exact hv

theorem Holds.value?_eq {p : Param P} {blank source copy : Instance P} {linked : Entity → Prop}
    (h : Holds p blank source linked copy) (hp : p.isReference = false) :
    copy.value? p.accessor = source.value? p.accessor := by
  unfold Param.isReference Param.kind at hp
  unfold Holds at h
  cases ha : p.accessor with
  | reference | choice | collection =>
    rw [ha] at hp
    cases hp
  | scalar | slots | book =>
    rw [ha] at h
    exact h

/-- A reference that is not linked holds what a new instance holds. -/
theorem holds_unlinked {p : Param P} {blank source copy : Instance P}
    (hp : p.isReference = true) (hfor : p.isFor blank.payload.type = true)
    (hv : copy.value? p.accessor = blank.value? p.accessor) :
    Holds p blank source (fun _ => False) copy := by
  unfold Param.isReference Param.kind at hp
  obtain ⟨v, hb⟩ := exists_value hfor
  have hk := hasKind_value hb
  unfold Holds
  cases ha : p.accessor with
  | scalar | slots | book =>
    rw [ha] at hp
    cases hp
  | reference | choice =>
    rw [ha] at hv
    exact ⟨fun t ht => ht.elim, fun _ => hv⟩
  | collection tag f =>
    rw [ha] at hv hb hk
    cases v with
    | collection own => exact ⟨own, own, hb, hv.trans hb, by simp⟩
    | _ => cases hk

/-- Two copies that hold the same links read the same. -/
theorem Holds.sameContent {p : Param P} {blank source copy copy' : Instance P}
    {linked : Entity → Prop} (h : Holds p blank source linked copy)
    (h' : Holds p blank source linked copy') {v w : ParamValue}
    (hv : copy.value? p.accessor = some v) (hw : copy'.value? p.accessor = some w) :
    v.SameContent w := by
  have heq (hx : copy.value? p.accessor = copy'.value? p.accessor) : v.SameContent w := by
    rw [hv, hw] at hx
    cases hx
    exact .refl v
  unfold Holds at h h'
  cases ha : p.accessor with
  | scalar | slots | book =>
    simp only [ha] at h h' heq
    exact heq (h.trans h'.symm)
  -- Either both copies hold the one target, or both hold what the blank instance holds.
  | reference | choice =>
    simp only [ha] at h h' heq
    by_cases hl : ∃ t, linked t
    · obtain ⟨t, ht⟩ := hl
      exact heq ((h.1 t ht).trans (h'.1 t ht).symm)
    · have hn (t : Entity) : ¬ linked t := fun ht => hl ⟨t, ht⟩
      exact heq ((h.2 hn).trans (h'.2 hn).symm)
  -- The members are determined up to their order.
  | collection tag f =>
    simp only [ha] at h h' hv hw
    obtain ⟨own, ms, hown, hms, hmem⟩ := h
    obtain ⟨own', ns, hown', hns, hmem'⟩ := h'
    cases hown.symm.trans hown'
    cases hms.symm.trans hv
    cases hns.symm.trans hw
    exact fun g => (hmem g).trans (hmem' g).symm

/-! ### Links -/

/-- A writable reference can be linked to any entity. -/
theorem exists_link {i : Instance P} {p : Param P} (hro : p.isReadOnly = false)
    (href : p.isReference = true) (hfor : p.isFor i.payload.type = true) (t : Entity) :
    ∃ j, i.link p t = .ok j := by
  have hwrite {v : ParamValue} (hv : v.HasKind p.kind) : ∃ j, i.write p v = .ok j :=
    exists_write hro hfor hv
  unfold Param.isReference at href
  unfold Param.kind at href hwrite
  unfold link
  cases ha : p.accessor with
  | scalar | slots | book =>
    rw [ha] at href
    cases href
  | reference | choice =>
    rw [ha] at hwrite
    exact hwrite trivial
  -- A member is added once.
  | collection tag f =>
    rw [ha] at hwrite
    obtain ⟨v, hv⟩ := exists_value hfor
    rw [ha] at hv
    obtain ⟨ms, hms, _⟩ := Option.map_eq_some_iff.mp hv
    simp only [hms]
    split
    · exact ⟨i, rfl⟩
    · exact hwrite trivial

/-- A link makes the parameter hold one more reference of the source. -/
theorem Holds.link {p : Param P} {blank source copy copy' : Instance P} {linked : Entity → Prop}
    {t : Entity} (h : Holds p blank source linked copy) (hlaw : p.accessor.IsLawful)
    (hpoints : source.PointsAt p t) (hlink : copy.link p t = .ok copy') :
    Holds p blank source (fun s => linked s ∨ s = t) copy' := by
  obtain ⟨_, v, hv, hvt⟩ := hpoints
  unfold Holds at h ⊢
  unfold Instance.link at hlink
  cases ha : p.accessor with
  | scalar | slots | book =>
    rw [ha] at hlink
    cases hlink
  -- The source points at one target only, so any other link made is that one.
  | reference tag f =>
    simp only [ha] at h hlink hv hvt ⊢
    have hself := value?_write_self hlaw hlink
    rw [ha] at hself
    obtain ⟨w, _, rfl⟩ := Option.map_eq_some_iff.mp hv
    refine ⟨fun s _ => ?_, fun hn => absurd (Or.inr rfl) (hn t)⟩
    rw [hself, hv, hvt.1]
  | choice f =>
    simp only [ha] at h hlink hv hvt ⊢
    have hself := value?_write_self hlaw hlink
    rw [ha] at hself
    obtain ⟨w, _, rfl⟩ := Option.map_eq_some_iff.mp hv
    refine ⟨fun s _ => ?_, fun hn => absurd (Or.inr rfl) (hn t)⟩
    have hw : w = some t := hvt
    rw [hself, hv, hw]
  | collection tag f =>
    simp only [ha] at h hlink ⊢
    obtain ⟨own, members, hown, hmembers, hmem⟩ := h
    have hread : f.read? copy.payload = some members := by
      obtain ⟨ms, hms, heq⟩ := Option.map_eq_some_iff.mp hmembers
      cases heq
      exact hms
    rw [hread] at hlink
    dsimp only at hlink
    split at hlink
    -- Already a member: nothing is written.
    · next hin =>
      cases hlink
      refine ⟨own, members, hown, hmembers, fun g => ?_⟩
      rw [hmem g]
      constructor
      · rintro (hg | ⟨s, hs, hg⟩)
        · exact Or.inl hg
        · exact Or.inr ⟨s, Or.inl hs, hg⟩
      · rintro (hg | ⟨s, hs | rfl, hg⟩)
        · exact Or.inl hg
        · exact Or.inr ⟨s, hs, hg⟩
        · exact (hmem g).mp (hg ▸ by simpa using hin)
    · have hself := value?_write_self hlaw hlink
      rw [ha] at hself
      refine ⟨own, members ++ [t.guid], hown, hself, fun g => ?_⟩
      rw [List.mem_append, List.mem_singleton, hmem g]
      constructor
      · rintro ((hg | ⟨s, hs, hg⟩) | hg)
        · exact Or.inl hg
        · exact Or.inr ⟨s, Or.inl hs, hg⟩
        · exact Or.inr ⟨t, Or.inr rfl, hg.symm⟩
      · rintro (hg | ⟨s, hs | rfl, hg⟩)
        · exact Or.inl (Or.inl hg)
        · exact Or.inl (Or.inr ⟨s, hs, hg⟩)
        · exact Or.inr hg.symm

/-- A link does not show through independent parameters. -/
theorem value?_link_of_independent {p q : Param P} {i j : Instance P} {t : Entity}
    (h : p.Independent q) (hlink : i.link p t = .ok j) :
    j.value? q.accessor = i.value? q.accessor := by
  unfold Instance.link at hlink
  split at hlink
  · exact h _ _ _ hlink
  · exact h _ _ _ hlink
  · split at hlink
    · cases hlink
    · split at hlink
      · cases hlink
        rfl
      · exact h _ _ _ hlink
  · cases hlink

/-- A link of a copy merges one more reference. -/
theorem Merges.link {c : ObjectClass P} {blank source copy copy' : Instance P}
    {linked : String → Entity → Prop} (h : Merges c blank source linked copy)
    (hc : c.WellFormed) (hlaw : c.IsLawful) {p : Param P} (hp : p ∈ c.copyable) {t : Entity}
    (hpoints : source.PointsAt p t) (hlink : copy.link p t = .ok copy') :
    Merges c blank source (fun n s => linked n s ∨ (n = p.name ∧ s = t)) copy' where
  holds q hq := by
    by_cases hn : q.name = p.name
    · have heq : q = p := ObjectClass.eq_of_name_eq hc (ObjectClass.mem_params_of_mem_copyable hq)
        (ObjectClass.mem_params_of_mem_copyable hp) hn
      subst heq
      exact ((h.holds q hq).link (hlaw.accessor q hq) hpoints hlink).of_linked fun s => by simp
    · have hind := hlaw.independent p hp q hq (Ne.symm hn)
      exact ((h.holds q hq).of_value? (value?_link_of_independent hind hlink)).of_linked
        fun s => by simp [hn]
  detached q hq hd :=
    (value?_link_of_independent (hd p hp) hlink).trans (h.detached q hq hd)

/-! ### Copies of parameters -/

theorem exists_references {i : Instance P} {p : Param P} (h : p.isFor i.payload.type = true) :
    ∃ ts, i.references p = .ok ts := by
  obtain ⟨v, hv⟩ := exists_value h
  unfold references
  cases ha : p.accessor with
  | scalar | slots | book => exact ⟨[], rfl⟩
  | reference _ f | choice f | collection _ f =>
    rw [ha] at hv
    obtain ⟨w, hw, _⟩ := Option.map_eq_some_iff.mp hv
    simp only [hw]
    exact ⟨_, rfl⟩

/-- A copied value is written; a copied reference is put off. -/
theorem copyParam_cases {source dest : Instance P} {p : Param P} (hro : p.isReadOnly = false)
    (hs : p.isFor source.payload.type = true) (hd : p.isFor dest.payload.type = true) :
    (p.isReference = false ∧ ∃ v j, source.value? p.accessor = some v ∧ dest.write p v = .ok j ∧
      source.copyParam dest p = .ok (.copied, j)) ∨
    (p.isReference = true ∧ ∃ ts, source.references p = .ok ts ∧
      source.copyParam dest p = .ok (.deferred ts, dest)) := by
  obtain ⟨v, hv⟩ := exists_value hs
  obtain ⟨j, hj⟩ := exists_write hro hd (hasKind_value hv)
  obtain ⟨ts, hts⟩ := exists_references hs
  unfold Param.isReference Param.kind copyParam
  cases ha : p.accessor with
  -- The book cannot be written, hence is never copied.
  | book =>
    unfold Param.isReadOnly at hro
    rw [ha] at hro
    cases hro
  | slots =>
    refine Or.inl ⟨rfl, .slots source.slots, dest.withSlots source.slots, rfl, ?_, rfl⟩
    simp [write, ha]
  | scalar k f =>
    rw [ha] at hv
    refine Or.inl ⟨rfl, v, j, hv, hj, ?_⟩
    simp [hro, read, ha, hv, hj, Except.map]
  | reference | choice | collection =>
    exact Or.inr ⟨rfl, ts, hts, by simp [hts, Except.map]⟩

end Instance

/-! ### Copying all parameters -/

namespace Book

/-- A copy in which some of the parameters were dealt with and no reference was
    linked. -/
structure Progress.Merged (c : ObjectClass P) (blank source : Instance P)
    (dealt : List (Param P)) (s : Progress P) : Prop where
  wellFormed : s.book.WellFormed
  /-- The copy holds what was dealt with, and otherwise what a new instance does. -/
  live : ∃ copy, s.book.get? source.entity = some copy ∧ blank.Rewrites copy ∧
    (∀ p ∈ c.copyable, p ∈ dealt → Instance.Holds p blank source (fun _ => False) copy) ∧
    (∀ p ∈ c.copyable, p ∉ dealt → copy.value? p.accessor = blank.value? p.accessor) ∧
    ∀ q ∈ c.params, c.Detached q → copy.value? q.accessor = blank.value? q.accessor
  /-- The references of what was dealt with wait. -/
  deferred : ∀ r, r ∈ s.deferred ↔
    r.source = source.entity ∧ r.param ∈ dealt ∧ source.PointsAt r.param r.target

variable {c : ObjectClass P} {blank source : Instance P} {dealt : List (Param P)}
  {s : Progress P}

/-- What dealing with a parameter does to the copy: a value is written to it, a
    reference leaves it as it is and waits. -/
theorem Progress.step_cases (hw : s.book.WellFormed) {copy : Instance P}
    (hget : s.book.get? source.entity = some copy) {p : Param P} (hro : p.isReadOnly = false)
    (hsource : p.isFor source.payload.type = true) (hcopy : p.isFor copy.payload.type = true) :
    (s.step source p).book.WellFormed ∧ ∃ k, (s.step source p).book.get? source.entity = some k ∧
      copy.Rewrites k ∧
      ((p.isReference = false ∧ (s.step source p).deferred = s.deferred ∧ ∃ v j,
          source.value? p.accessor = some v ∧ copy.enter.write p v = .ok j ∧
            ∀ a, k.value? a = j.value? a) ∨
        (p.isReference = true ∧ (∀ a, k.value? a = copy.value? a) ∧ ∃ ts,
          source.references p = .ok ts ∧ (s.step source p).deferred =
            s.deferred ++ ts.map fun t => ⟨source.entity, p, t⟩)) := by
  have hfit := hw.fits _ _ hget
  have hchange (i : Instance P) :
      i.Rewrites (attempt (fun dest => source.copyParam dest p) i).2 :=
    rewrites_attempt fun _ _ h => Instance.rewrites_copyParam h
  -- The instance `k` is what the edit leaves: the result of `copyParam`, left and clean.
  obtain ⟨k, hk, hclean⟩ := get?_edit_self hget (hchange copy.enter) hfit.deleting
  have hrew : copy.Rewrites k := (hchange copy.enter).leave.of_markClean hclean
  have hresult := result?_edit (f := attempt fun dest => source.copyParam dest p) hget
  have hwell : (s.step source p).book.WellFormed := by
    rw [book_step]
    exact (Revises.edit hw hchange).wellFormed hw
  have hcopy' : p.isFor copy.enter.payload.type = true := hcopy
  refine ⟨hwell, k, hk, hrew, ?_⟩
  rcases Instance.copyParam_cases hro hsource hcopy' with
    ⟨href, v, j, hv, hj, hdone⟩ | ⟨href, ts, hts, hdone⟩
  · left
    have hattempt : attempt (fun dest => source.copyParam dest p) copy.enter = (.ok .copied, j) :=
      attempt_of_ok hdone
    rw [hattempt] at hclean hresult
    refine ⟨href, ?_, v, j, hv, hj, ?_⟩
    · unfold Progress.step
      dsimp only
      rw [hresult]
      exact List.append_nil _
    · intro a
      rw [Instance.value?_of_markClean hclean, Instance.value?_leave]
  · right
    have hattempt : attempt (fun dest => source.copyParam dest p) copy.enter =
        (.ok (.deferred ts), copy.enter) := attempt_of_ok hdone
    rw [hattempt] at hclean hresult
    refine ⟨href, ?_, ts, hts, ?_⟩
    · intro a
      rw [Instance.value?_of_markClean hclean, Instance.value?_leave, Instance.value?_enter]
    · unfold Progress.step
      dsimp only
      rw [hresult]

/-- The references that wait after a parameter was dealt with. -/
theorem Progress.Merged.mem_deferred_of_value (h : s.Merged c blank source dealt) {p : Param P}
    (href : p.isReference = false) (r : ReferenceRecord P) :
    r ∈ s.deferred ↔ r.source = source.entity ∧ r.param ∈ dealt ++ [p] ∧
      source.PointsAt r.param r.target := by
  rw [h.deferred r]
  constructor
  · intro hr
    obtain ⟨he, hm, hpoints⟩ := hr
    exact ⟨he, List.mem_append_left _ hm, hpoints⟩
  · intro hr
    obtain ⟨he, hm, hpoints⟩ := hr
    refine ⟨he, ?_, hpoints⟩
    rcases List.mem_append.mp hm with hm | hm
    · exact hm
    · have hreference := Instance.isReference_of_pointsAt hpoints
      rw [List.mem_singleton.mp hm, href] at hreference
      cases hreference

theorem Progress.Merged.mem_deferred_of_reference (h : s.Merged c blank source dealt)
    {p : Param P} {ts : List Entity} (hts : source.references p = .ok ts)
    (r : ReferenceRecord P) :
    r ∈ (s.deferred ++ ts.map fun t => ⟨source.entity, p, t⟩) ↔
      r.source = source.entity ∧ r.param ∈ dealt ++ [p] ∧ source.PointsAt r.param r.target := by
  rw [List.mem_append, h.deferred r, List.mem_map]
  constructor
  · intro hr
    rcases hr with ⟨he, hm, hpoints⟩ | ⟨t, ht, rfl⟩
    · exact ⟨he, List.mem_append_left _ hm, hpoints⟩
    · exact ⟨rfl, List.mem_append_right _ List.mem_cons_self, (Instance.mem_references hts t).mp ht⟩
  · intro hr
    obtain ⟨he, hm, hpoints⟩ := hr
    rcases List.mem_append.mp hm with hm | hm
    · exact Or.inl ⟨he, hm, hpoints⟩
    -- The references of `p` itself.
    · obtain ⟨e, q, t⟩ := r
      have hq : q = p := List.mem_singleton.mp hm
      have he : e = source.entity := he
      subst hq he
      exact Or.inr ⟨t, (Instance.mem_references hts t).mpr hpoints, rfl⟩

theorem Progress.Merged.step (h : s.Merged c blank source dealt) (hc : c.WellFormed)
    (hlaw : c.IsLawful) (hsource : source.payload.type = c.payloadType)
    (hblank : blank.payload.type = c.payloadType) {p : Param P} (hp : p ∈ c.copyable)
    (hnew : p ∉ dealt) : (s.step source p).Merged c blank source (dealt ++ [p]) := by
  obtain ⟨copy, hget, hrew, hdone, htodo, hdet⟩ := h.live
  have hfor := ObjectClass.isFor_of_mem_params (ObjectClass.mem_params_of_mem_copyable hp)
  have hro := ObjectClass.isReadOnly_of_mem_copyable hp
  have hcopy : p.isFor copy.payload.type = true := (hrew.payload.trans hblank) ▸ hfor
  obtain ⟨hwell, k, hk, hkrew, hcases⟩ :=
    Progress.step_cases h.wellFormed hget hro (hsource ▸ hfor) hcopy
  -- The parameters that were dealt with before are the others of the new list.
  have hold {q : Param P} (hqp : q ≠ p) (hm : q ∈ dealt ++ [p]) : q ∈ dealt := by
    rcases List.mem_append.mp hm with hm | hm
    · exact hm
    · exact absurd (List.mem_singleton.mp hm) hqp
  rcases hcases with ⟨href, hdef, v, j, hv, hj, hval⟩ | ⟨href, hval, ts, hts, hdef⟩
  · have hother {q : Param P} (hq : p.Independent q) :
        k.value? q.accessor = copy.value? q.accessor := by
      rw [hval, hq _ _ _ hj, Instance.value?_enter]
    have hapart {q : Param P} (hq : q ∈ c.copyable) (hqp : q ≠ p) : p.Independent q := by
      refine hlaw.independent p hp q hq ?_
      intro hn
      exact hqp (ObjectClass.eq_of_name_eq hc (ObjectClass.mem_params_of_mem_copyable hq)
        (ObjectClass.mem_params_of_mem_copyable hp) hn.symm)
    refine ⟨hwell, ⟨k, hk, hrew.trans hkrew, ?_, ?_, ?_⟩, ?_⟩
    · intro q hq hm
      by_cases hqp : q = p
      · subst hqp
        refine Instance.holds_of_value href ?_
        rw [hval, Instance.value?_write_self (hlaw.accessor q hq) hj, hv]
      · exact (hdone q hq (hold hqp hm)).of_value? (hother (hapart hq hqp))
    · intro q hq hm
      have hqp : q ≠ p := by
        rintro rfl
        exact hm (List.mem_append_right _ List.mem_cons_self)
      rw [hother (hapart hq hqp)]
      exact htodo q hq fun hmem => hm (List.mem_append_left _ hmem)
    · intro q hq hd
      rw [hother (hd p hp)]
      exact hdet q hq hd
    · intro r
      rw [hdef]
      exact h.mem_deferred_of_value href r
  · refine ⟨hwell, ⟨k, hk, hrew.trans hkrew, ?_, ?_, ?_⟩, ?_⟩
    · intro q hq hm
      by_cases hqp : q = p
      · subst hqp
        refine Instance.holds_unlinked href (hblank ▸ hfor) ?_
        rw [hval, htodo q hq hnew]
      · exact (hdone q hq (hold hqp hm)).of_value? (hval _)
    · intro q hq hm
      rw [hval]
      exact htodo q hq fun hmem => hm (List.mem_append_left _ hmem)
    · intro q hq hd
      rw [hval]
      exact hdet q hq hd
    · intro r
      rw [hdef]
      exact h.mem_deferred_of_reference hts r

/-- Dealing with parameters one by one deals with all of them. -/
theorem Progress.Merged.steps (hc : c.WellFormed) (hlaw : c.IsLawful)
    (hsource : source.payload.type = c.payloadType) (hblank : blank.payload.type = c.payloadType)
    (ps : List (Param P)) (hps : ∀ p ∈ ps, p ∈ c.copyable) (hnodup : ps.Nodup)
    (hnew : ∀ p ∈ ps, p ∉ dealt) (h : s.Merged c blank source dealt) :
    (ps.foldl (Progress.step source) s).Merged c blank source (dealt ++ ps) := by
  induction ps generalizing dealt s with
  | nil => simpa using h
  | cons p rest ih =>
    obtain ⟨hp, hrest⟩ := List.nodup_cons.mp hnodup
    have hstep := h.step hc hlaw hsource hblank (hps p List.mem_cons_self)
      (hnew p List.mem_cons_self)
    have := ih (fun q hq => hps q (List.mem_cons_of_mem p hq)) hrest (fun q hq hm => ?_) hstep
    · rwa [List.append_assoc] at this
    · rcases List.mem_append.mp hm with hm | hm
      · exact hnew q (List.mem_cons_of_mem p hq) hm
      · rw [List.mem_singleton] at hm
        exact hp (hm ▸ hq)

/-- At first nothing is dealt with, and the newborn is the blank instance itself. -/
theorem Progress.merged_start {dest : Book P} (hd : dest.WellFormed) {payload : Payload P}
    (hg : source.entity.guid.isNull = false)
    (hfind : dest.registry.find? source.entity.typeTag = some c)
    (hp : c.initialPayload? = some payload) :
    Progress.Merged c (dest.newborn source.entity payload) source []
      { book := dest.adopt (dest.newborn source.entity payload) } := by
  refine ⟨hd.adopt hg hfind hp, ⟨_, get?_adopt_self .., .refl _, fun p _ hm => ?_,
    fun p _ _ => rfl, fun q _ _ => rfl⟩, fun r => ?_⟩
  · cases hm
  · simp

/-- A copied instance holds the values of its source, and all its references
    wait. -/
theorem merges_transfer {dest : Book P} (hd : dest.WellFormed)
    (hlaw : c.IsLawful) {payload : Payload P} (hg : source.entity.guid.isNull = false)
    (hfind : dest.registry.find? source.entity.typeTag = some c)
    (hp : c.initialPayload? = some payload) (hsource : source.payload.type = c.payloadType) :
    (∃ copy, (dest.transfer source c payload).book.get? source.entity = some copy ∧
      Instance.Merges c (dest.newborn source.entity payload) source (fun _ _ => False) copy) ∧
    ∀ r, r ∈ (dest.transfer source c payload).deferred ↔
      r.source = source.entity ∧ r.param ∈ c.copyable ∧ source.PointsAt r.param r.target := by
  have hc : c.WellFormed := hd.registry.of_find? hfind
  have hblank : (dest.newborn source.entity payload).payload.type = c.payloadType :=
    ObjectClass.type_of_initialPayload hp
  have hend := (Progress.merged_start hd hg hfind hp).steps hc hlaw hsource hblank c.copyable
    (fun p hp => hp) (ObjectClass.nodup_copyable hc).of_map (by simp)
  rw [List.nil_append] at hend
  obtain ⟨copy, hget, _, hdone, _, hdet⟩ := hend.live
  exact ⟨⟨copy, hget, fun p hp => hdone p hp hp, hdet⟩, hend.deferred⟩

end Book

end EntityBook
