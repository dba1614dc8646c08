import EntityBook.Proofs.Copy.Exchange
import EntityBook.Proofs.Copy.Fidelity
import Mathlib.Tactic.TFAE

/-! # References of removed entities

  A reference waits under the name of its source. When the source is removed the
  reference is left behind, and it is dropped by the first resolution that does not find
  the source. If the source is made again before that, the reference is taken for one of
  the new entity and linked as soon as its target is there.

  `Confined` is what such a reference breaks: an entity refers to nothing but what the
  instances refer to that were copied for it.
-/

namespace EntityBook

variable {P : PayloadFamily}

/-! ### What links add -/

namespace ParamValue

variable {v : ParamValue} {fixed : Option TypeTag} {t : Entity}

theorem pointsAt_linked {s : Entity} (h : (v.linked s).PointsAt fixed t) :
    v.PointsAt fixed t ∨ t = s ∨ (t.guid = s.guid ∧ fixed = some t.typeTag) := by
  cases v with
  | scalar | slots | book => exact Or.inl h
  | reference own => exact Or.inr (Or.inr ⟨(Option.some.inj h.1).symm, h.2⟩)
  | choice own => exact Or.inr (Or.inl (Option.some.inj h).symm)
  | collection members =>
    obtain ⟨hmem, hfixed⟩ := h
    have hmem : t.guid ∈ appendNew members s.guid := hmem
    unfold appendNew at hmem
    split at hmem
    · exact Or.inl ⟨hmem, hfixed⟩
    · rcases List.mem_append.mp hmem with hmem | hmem
      · exact Or.inl ⟨hmem, hfixed⟩
      · exact Or.inr (Or.inr ⟨List.mem_singleton.mp hmem, hfixed⟩)

theorem pointsAt_foldl_linked {ts : List Entity}
    (h : (ts.foldl ParamValue.linked v).PointsAt fixed t) :
    v.PointsAt fixed t ∨ ∃ s ∈ ts, t = s ∨ (t.guid = s.guid ∧ fixed = some t.typeTag) := by
  induction ts generalizing v with
  | nil => exact Or.inl h
  | cons s rest ih =>
    rcases ih h with h | ⟨u, hu, h⟩
    · rcases pointsAt_linked h with h | h
      · exact Or.inl h
      · exact Or.inr ⟨s, List.mem_cons_self, h⟩
    · exact Or.inr ⟨u, List.mem_cons_of_mem s hu, h⟩

theorem hasKind_linked {k : ParamKind} (h : v.HasKind k) (s : Entity) :
    (v.linked s).HasKind k := by
  cases v with
  | scalar | slots | book => exact h
  | reference | choice | collection =>
    cases k with
    | reference | choice | collection => trivial
    | scalar | slots | book => cases h

/-- A reference that was linked points at something. -/
theorem exists_pointsAt_foldl_linked {a : Accessor P} (hkind : v.HasKind a.kind)
    (href : a.kind.isReference = true) {ts : List Entity} (hts : ts ≠ []) :
    ∃ s ∈ ts, ∃ t : Entity, t.guid = s.guid ∧
      (ts.foldl ParamValue.linked v).PointsAt a.targetType t := by
  induction ts generalizing v with
  | nil => exact absurd rfl hts
  | cons s rest ih =>
    by_cases hrest : rest = []
    · subst hrest
      refine ⟨s, List.mem_cons_self, ?_⟩
      cases a with
      | scalar | slots | book => cases href
      | reference tag f =>
        cases v with
        | reference own => exact ⟨⟨tag, s.guid⟩, rfl, rfl, rfl⟩
        | _ => cases hkind
      | choice f =>
        cases v with
        | choice own => exact ⟨s, rfl, rfl⟩
        | _ => cases hkind
      | collection tag f =>
        cases v with
        | collection members =>
          refine ⟨⟨tag, s.guid⟩, rfl, ?_, rfl⟩
          have hmem : s.guid ∈ [s.guid].foldl appendNew members :=
            mem_foldl_appendNew.mpr (Or.inr List.mem_cons_self)
          exact hmem
        | _ => cases hkind
    · obtain ⟨u, hu, t, ht, hpoints⟩ := ih (hasKind_linked hkind s) hrest
      exact ⟨u, List.mem_cons_of_mem s hu, t, ht, hpoints⟩

end ParamValue

namespace Instance

/-- Where the type of the targets is fixed, an entity that is pointed at has it. -/
theorem typeTag_of_pointsAt {i : Instance P} {p : Param P} {t : Entity} (h : i.PointsAt p t)
    {tag : TypeTag} (htag : p.accessor.targetType = some tag) : t.typeTag = tag := by
  obtain ⟨_, v, hv, hpoints⟩ := h
  have hkind := hasKind_value hv
  rw [htag] at hpoints
  cases v with
  | scalar | slots | book => cases hpoints
  | reference | collection => exact (Option.some.inj hpoints.2).symm
  | choice =>
    cases ha : p.accessor with
    | choice =>
      rw [ha] at htag
      cases htag
    | _ =>
      rw [ha] at hkind
      cases hkind

theorem PointsAt.of_value? {i j : Instance P} {p : Param P} {t : Entity} (h : i.PointsAt p t)
    (hv : i.value? p.accessor = j.value? p.accessor) : j.PointsAt p t := by
  obtain ⟨hg, v, hi, hpoints⟩ := h
  exact ⟨hg, v, hv ▸ hi, hpoints⟩

end Instance

namespace Book

/-! ### References that come from copies -/

/-- An entity refers to nothing, and waits for nothing, but what the instances refer to
    that were copied for it. What a new instance refers to is left out of account. -/
structure Confined (copied : Instance P → Prop) (c : ObjectClass P) (blank : Instance P)
    (b : Book P) : Prop where
  wellFormed : b.WellFormed
  id : b.id = blank.owner
  known : b.registry.find? blank.entity.typeTag = some c
  held : ∀ i, b.get? blank.entity = some i → ∀ p ∈ c.copyable, ∀ t, i.PointsAt p t →
    blank.PointsAt p t ∨ ∃ j, copied j ∧ j.entity = blank.entity ∧ j.PointsAt p t
  waiting : ∀ r ∈ b.pending, r.source = blank.entity → r.param ∈ c.copyable ∧
    ∃ j, copied j ∧ j.entity = blank.entity ∧ j.PointsAt r.param r.target

namespace Confined

variable {copied : Instance P → Prop} {c : ObjectClass P} {b b' : Book P}

section Parts

variable {blank : Instance P}

/-- Parts that queue nothing and change no values. -/
theorem of_retains (h : Confined copied c blank b) (hb' : b'.WellFormed) (hid : b'.id = b.id)
    (hr : b'.registry = b.registry) (hpending : b'.pending = b.pending)
    (hretains : Retains blank.entity b b') : Confined copied c blank b' where
  wellFormed := hb'
  id := hid.trans h.id
  known := hr ▸ h.known
  held j hj p hp t ht := by
    obtain ⟨i, hi, hsame⟩ := hretains j hj
    exact h.held i hi p hp t (ht.of_value? (hsame.value? _).symm)
  waiting := by
    rw [hpending]
    exact h.waiting

theorem of_keeps (h : Confined copied c blank b) (hb' : b'.WellFormed) (hk : b.Keeps b')
    (hretains : Retains blank.entity b b') : Confined copied c blank b' :=
  h.of_retains hb' hk.id hk.registry hk.pending hretains

/-- What is linked for the entity has waited for it. -/
theorem resolvePending (h : Confined copied c blank b) (hlaw : c.IsLawful) :
    Confined copied c blank b.resolvePending.2 := by
  have hrev := Revises.resolvePending h.wellFormed
  have hc : c.WellFormed := h.wellFormed.registry.of_find? h.known
  refine ⟨hrev.wellFormed h.wellFormed, hrev.id.trans h.id, hrev.registry ▸ h.known, ?_, ?_⟩
  · intro j hj p hp t ht
    cases hi : b.get? blank.entity with
    | none => exact absurd ((hrev.gone hi).symm.trans hj) (by simp)
    | some i =>
      obtain ⟨c', hc', _, htype⟩ := (h.wellFormed.fits _ _ hi).known
      cases h.known.symm.trans hc'
      obtain ⟨v, hv⟩ := Instance.exists_value (i := i) (p := p) (htype ▸
        ObjectClass.isFor_of_mem_params (ObjectClass.mem_params_of_mem_copyable hp))
      obtain ⟨k, hk, hvalues⟩ := exists_resolved h.wellFormed h.known hlaw
        (fun r hr hsource => by
          obtain ⟨hparam, l, _, _, hpoints⟩ := h.waiting r hr hsource
          exact ⟨hparam, Instance.isReference_of_pointsAt hpoints⟩) hi
      cases hk.symm.trans hj
      obtain ⟨hg, w, hw, hpoints⟩ := ht
      cases (hvalues p hp v hv).symm.trans hw
      -- It was pointed at before, or a record of the parameter names it.
      rcases ParamValue.pointsAt_foldl_linked hpoints with hold | ⟨u, hu, hnew⟩
      · exact h.held i hi p hp t ⟨hg, v, hv, hold⟩
      · obtain ⟨r, hr, hsource, hname, rfl⟩ := mem_targetsOf.mp (List.mem_filter.mp hu).1
        obtain ⟨hparam, l, hl, hentity, hasked⟩ := h.waiting r hr hsource
        have hrp : r.param = p := ObjectClass.eq_of_name_eq hc
          (ObjectClass.mem_params_of_mem_copyable hparam)
          (ObjectClass.mem_params_of_mem_copyable hp) hname
        rw [hrp] at hasked
        have heq : t = r.target := by
          rcases hnew with heq | ⟨hguid, hfixed⟩
          · exact heq
          · have htag : r.target.typeTag = t.typeTag :=
              Instance.typeTag_of_pointsAt hasked hfixed
            have ht : t = ⟨t.typeTag, t.guid⟩ := rfl
            rw [ht, ← htag, hguid]
        exact Or.inr ⟨l, hl, hentity, heq ▸ hasked⟩
  · intro r hr
    rw [pending_resolvePending h.wellFormed] at hr
    rcases mem_foldl_addRecord hr with hr | hr
    · cases hr
    · exact h.waiting r (List.mem_filter.mp hr).1

end Parts

section Making

variable {start : Book P} {x : Entity} {payload : Payload P}

theorem newborn_eq (h : Confined copied c (start.newborn x payload) b) :
    b.newborn x payload = start.newborn x payload := by
  unfold newborn
  rw [show b.id = start.id from h.id]

theorem create (h : Confined copied c (start.newborn x payload) b)
    (hp : c.initialPayload? = some payload) (tag : TypeTag) (guid : Guid) :
    Confined copied c (start.newborn x payload) (b.create tag guid).2 := by
  have hb := h.wellFormed.create tag guid
  cases hcreate : b.create tag guid with
  | mk result b' =>
    rw [hcreate] at hb
    cases result with
    | error err => exact create_eq_error hcreate ▸ h
    | ok e =>
      obtain ⟨rfl, _, _, d, payload', hd, hp', rfl⟩ := create_eq_ok.mp hcreate
      refine ⟨hb, h.id, h.known, fun j hj p hpc t ht => ?_, h.waiting⟩
      by_cases hx : x = ⟨tag, guid⟩
      · subst hx
        cases h.known.symm.trans hd
        cases hp.symm.trans hp'
        cases (get?_adopt_self b (b.newborn ⟨tag, guid⟩ payload)).symm.trans hj
        exact Or.inl (h.newborn_eq ▸ ht)
      · exact h.held j ((get?_adopt_of_ne b hx).symm.trans hj) p hpc t ht

/-- A copy for the entity asks for what its instance refers to; other copies do not
    concern it. -/
theorem copyOne (h : Confined copied c (start.newborn x payload) b) (hlaw : c.IsLawful)
    (hp : c.initialPayload? = some payload) {i : Instance P} (hi : copied i) :
    Confined copied c (start.newborn x payload) (b.copyOne i).2 := by
  rcases copyOne_cases b i with ⟨hsame, _⟩ | ⟨_, hg, d, payload', hd, _, hp', hmade⟩
  · rw [hsame]
    exact h
  · obtain ⟨hwell, hr, _⟩ := @copyOne_spec P b i h.wellFormed hg
    have hadopt := h.wellFormed.adopt hg hd hp'
    have hrev := revises_transfer (c := d) hadopt
    rw [hmade] at hwell hr ⊢
    refine ⟨hwell, hrev.id.trans h.id, hr ▸ h.known, fun j hj p hpc t ht => ?_,
      fun r hr hsource => ?_⟩
    · by_cases hx : x = i.entity
      · subst hx
        cases h.known.symm.trans hd
        cases hp.symm.trans hp'
        obtain ⟨copy, hcopy, hvalues⟩ := references_transfer hadopt
          (h.wellFormed.registry.of_find? h.known) hlaw
        cases hcopy.symm.trans hj
        have href := Instance.isReference_of_pointsAt ht
        exact Or.inl (h.newborn_eq ▸ ht.of_value? (hvalues p hpc href))
      · exact h.held j ((get?_transfer_of_ne hx).symm.trans hj) p hpc t ht
    · rcases mem_foldl_addRecord hr with hr | hr
      · rw [pending_transfer] at hr
        exact h.waiting r hr hsource
      · obtain ⟨hentity, hparam, hpoints⟩ := mem_deferred_transfer hr
        have hx : i.entity = x := hentity.symm.trans hsource
        have hknown : b.registry.find? x.typeTag = some c := h.known
        rw [← hx] at hknown
        cases hknown.symm.trans hd
        exact ⟨hparam, i, hi, hx, hpoints⟩

theorem exchange (h : Confined copied c (start.newborn x payload) b) (hlaw : c.IsLawful)
    (hp : c.initialPayload? = some payload) (hpart : Exchange copied b b') :
    Confined copied c (start.newborn x payload) b' := by
  have hb' := hpart.steps.wellFormed h.wellFormed
  cases hpart with
  | create tag guid => exact h.create hp tag guid
  | delete e => exact h.of_keeps hb' (Keeps.delete b e) (retains_delete _ b e)
  | beginEdit e => exact h.of_keeps hb' (Keeps.beginEdit b e) (retains_beginEdit _ b e)
  | commitEdit e => exact h.of_keeps hb' (Keeps.commitEdit b e) (retains_commitEdit _ b e)
  | suspend => exact h.of_retains hb' rfl rfl rfl (.of_get?_eq rfl)
  | resume => exact h.of_retains hb' rfl rfl rfl (.of_get?_eq rfl)
  | copyOne given => exact h.copyOne hlaw hp given
  | resolvePending => exact h.resolvePending hlaw

theorem exchanges (h : Confined copied c (start.newborn x payload) b) (hlaw : c.IsLawful)
    (hp : c.initialPayload? = some payload) (hparts : Exchanges copied b b') :
    Confined copied c (start.newborn x payload) b' := by
  induction hparts with
  | refl => exact h
  | tail _ hpart ih => exact ih.exchange hlaw hp hpart

end Making

end Confined

/-! ### What is left behind -/

section Orphan

variable {b : Book P} {x : Entity}

/-- While an entity is missing nothing is queued for it, and the first resolution drops
    what was. -/
theorem noneWaits_call {c : Call P} (hb : b.WellFormed) (hc : c.isReplication = true)
    (hgone : (b.call c).contains x = false) (h : NoneWaits x b ∨ c.resolves = true) :
    NoneWaits x (b.call c) := by
  intro r hr hsource
  cases hres : c.resolves with
  | false =>
    rw [(pending_call_of_not_resolves b hc hres).2] at hr
    rcases h with h | h
    · exact h r hr hsource
    · exact absurd (hres.symm.trans h) (by simp)
  | true =>
    have hlive := contains_source_of_resolves hb hres hr
    rw [hsource, hgone] at hlive
    cases hlive

theorem noneWaits_run {calls : List (Call P)} (hb : b.WellFormed)
    (hcalls : ∀ c ∈ calls, c.isReplication = true)
    (hgone : ∀ n, (b.run (calls.take n)).contains x = false)
    (h : NoneWaits x b ∨ ∃ c ∈ calls, c.resolves = true) : NoneWaits x (b.run calls) := by
  induction calls generalizing b with
  | nil =>
    rcases h with h | ⟨c, hc, _⟩
    · exact h
    · cases hc
  | cons c rest ih =>
    have hc := hcalls c List.mem_cons_self
    have hwell := (Steps.call b c).wellFormed hb
    have hfirst : (b.call c).contains x = false := hgone 1
    refine ih hwell (fun d hd => hcalls d (List.mem_cons_of_mem c hd))
      (fun n => hgone (n + 1)) ?_
    rcases h with h | ⟨d, hd, hres⟩
    · exact Or.inl (noneWaits_call hb hc hfirst (Or.inl h))
    · rcases List.mem_cons.mp hd with rfl | hd
      · exact Or.inl (noneWaits_call hb hc hfirst (Or.inr hres))
      · exact Or.inr ⟨d, hd, hres⟩

/-- Calls that resolve nothing leave everything waiting. -/
theorem pending_run_of_not_resolves {calls : List (Call P)}
    (hcalls : ∀ c ∈ calls, c.isReplication = true)
    (hres : ∀ c ∈ calls, c.resolves = false) : (b.run calls).pending = b.pending := by
  induction calls generalizing b with
  | nil => rfl
  | cons c rest ih =>
    have hrest : ((b.call c).run rest).pending = (b.call c).pending :=
      ih (fun d hd => hcalls d (List.mem_cons_of_mem c hd))
        fun d hd => hres d (List.mem_cons_of_mem c hd)
    exact hrest.trans (pending_call_of_not_resolves b (hcalls c List.mem_cons_self)
      (hres c List.mem_cons_self)).2

/-- What waits in a run of copies are references, if that is all that waited before. -/
theorem Queued.exchanges {copied : Instance P → Prop} {b' : Book P} (h : b.Queued)
    (hb : b.WellFormed) (hparts : Exchanges copied b b') : b'.Queued := by
  induction hparts with
  | refl => exact h
  | @tail d d' before hpart ih =>
    have hd : d.WellFormed := (Exchanges.steps before).wellFormed hb
    intro r hr
    rw [(Exchanges.surroundings (.single hpart) hd).2]
    cases hpart with
    | create tag guid => exact ih r ((create_surroundings d tag guid).2.2 ▸ hr)
    | delete e => exact ih r ((Keeps.delete d e).pending ▸ hr)
    | beginEdit e => exact ih r ((Keeps.beginEdit d e).pending ▸ hr)
    | commitEdit e => exact ih r ((Keeps.commitEdit d e).pending ▸ hr)
    | suspend | resume => exact ih r hr
    | @copyOne i given =>
      rcases (adds_copyOne d i).queued r hr with hr | ⟨hsource, _, hnew⟩
      · exact ih r hr
      · rw [hsource]
        exact hnew
    | resolvePending =>
      rw [pending_resolvePending hd] at hr
      rcases mem_foldl_addRecord hr with hr | hr
      · cases hr
      · exact ih r (List.mem_filter.mp hr).1

/-- An entity can be made: its identifier is none that stands for nothing, and its class
    has a constructor. -/
def CanMake (b : Book P) (e : Entity) : Prop :=
  e.guid.isNull = false ∧
    ∃ c payload, b.registry.find? e.typeTag = some c ∧ c.initialPayload? = some payload

theorem contains_create_self {e : Entity} (h : b.CanMake e) :
    (b.create e.typeTag e.guid).2.contains e = true := by
  obtain ⟨hg, c, payload, hc, hp⟩ := h
  cases hlive : b.contains e with
  | true =>
    obtain ⟨i, hi⟩ := Option.isSome_iff_exists.mp hlive
    exact contains_of_some (get?_create_of_some hi e.typeTag e.guid)
  | false =>
    have hmade : b.create e.typeTag e.guid = (.ok e, b.adopt (b.newborn e payload)) :=
      create_eq_ok.mpr ⟨rfl, hg, hlive, c, payload, hc, hp, rfl⟩
    rw [hmade]
    exact (contains_adopt b (b.newborn e payload) e).mpr (Or.inl rfl)

/-- When an entity is made again whose reference still waits, and then the target, a
    resolution takes the reference for one of the new entity. -/
theorem orphan_linked {c : ObjectClass P} {payload : Payload P} (hb : b.WellFormed)
    (hlaw : c.IsLawful) (hqueued : b.Queued) {r : ReferenceRecord P} (hr : r ∈ b.pending)
    (hgone : b.contains r.source = false) (hg : r.source.guid.isNull = false)
    (hc : b.registry.find? r.source.typeTag = some c) (hp : c.initialPayload? = some payload)
    (ht : b.CanMake r.target) :
    ∃ i t, (b.run [.create r.source.typeTag r.source.guid, .create r.target.typeTag r.target.guid,
      .resolvePending]).get? r.source = some i ∧ i.PointsAt r.param t := by
  have hmade : b.create r.source.typeTag r.source.guid =
      (.ok r.source, b.adopt (b.newborn r.source payload)) :=
    create_eq_ok.mpr ⟨rfl, hg, hgone, c, payload, hc, hp, rfl⟩
  let adopted := b.adopt (b.newborn r.source payload)
  let made := (adopted.create r.target.typeTag r.target.guid).2
  have hrun : b.run [.create r.source.typeTag r.source.guid,
      .create r.target.typeTag r.target.guid, .resolvePending] = made.resolvePending.2 := by
    show ((b.create r.source.typeTag r.source.guid).2.create r.target.typeTag
      r.target.guid).2.resolvePending.2 = _
    rw [hmade]
  have hadopted : adopted.WellFormed := hb.adopt hg hc hp
  have hwell : made.WellFormed := hadopted.create _ _
  have hself : made.get? r.source = some (b.newborn r.source payload) :=
    get?_create_of_some (get?_adopt_self b (b.newborn r.source payload)) _ _
  have htarget : made.contains r.target = true := contains_create_self (b := adopted) ht
  obtain ⟨_, hr', hpending'⟩ := create_surroundings adopted r.target.typeTag r.target.guid
  have hpending : made.pending = b.pending := hpending'
  have hknown : made.registry.find? r.source.typeTag = some c := hr' ▸ hc
  have hasked : ∀ s ∈ b.pending, s.source = r.source →
      s.param ∈ c.copyable ∧ s.param.isReference = true := by
    intro s hs hsource
    obtain ⟨d, hd, hparam, href⟩ := hqueued s hs
    rw [hsource] at hd
    cases hc.symm.trans hd
    exact ⟨hparam, href⟩
  obtain ⟨hparam, href⟩ := hasked r hr rfl
  have htype : (b.newborn r.source payload).payload.type = c.payloadType :=
    ObjectClass.type_of_initialPayload hp
  obtain ⟨v, hv⟩ := Instance.exists_value (i := b.newborn r.source payload) (p := r.param) (htype ▸
    ObjectClass.isFor_of_mem_params (ObjectClass.mem_params_of_mem_copyable hparam))
  obtain ⟨i, hi, hvalues⟩ := exists_resolved hwell hknown hlaw (hpending ▸ hasked) hself
  -- The record is among those that are linked, so the parameter points at something.
  have hlinked : r.target ∈ (targetsOf r.source r.param.name made.pending).filter made.contains :=
    List.mem_filter.mpr ⟨mem_targetsOf.mpr ⟨r, hpending ▸ hr, rfl, rfl, rfl⟩, htarget⟩
  obtain ⟨u, hu, t, hguid, hpoints⟩ := ParamValue.exists_pointsAt_foldl_linked
    (Instance.hasKind_value hv) href (List.ne_nil_of_mem hlinked)
  have hlive : made.contains u = true := (List.mem_filter.mp hu).2
  obtain ⟨k, hk⟩ := Option.isSome_iff_exists.mp hlive
  refine ⟨i, t, hrun ▸ hi, ?_, _, hvalues _ hparam v hv, hpoints⟩
  rw [hguid]
  exact (hwell.fits _ k hk).guid

end Orphan

/-! ### When references die with their source -/

/-- After these calls an entity refers to nothing but what a new instance refers to and
    what the instances refer to that the calls copied for it. -/
def RefersAsCopied (b : Book P) (calls : List (Call P)) (c : ObjectClass P)
    (blank : Instance P) : Prop :=
  ∀ i, (b.run calls).get? blank.entity = some i → ∀ p ∈ c.copyable, ∀ t, i.PointsAt p t →
    blank.PointsAt p t ∨
      ∃ call ∈ calls, ∃ j, call.Copies j ∧ j.entity = blank.entity ∧ j.PointsAt p t

/-- Where an entity is missing and nothing waits for it, it comes back as it is copied. -/
theorem refersAsCopied_of_noneWaits {b start : Book P} (hb : b.WellFormed) {x : Entity}
    {c : ObjectClass P} (hc : b.registry.find? x.typeTag = some c) (hlaw : c.IsLawful)
    (hid : b.id = start.id) {payload : Payload P} (hp : c.initialPayload? = some payload)
    (hmissing : b.contains x = false) (hnone : NoneWaits x b) {later : List (Call P)}
    (hlater : ∀ d ∈ later, d.isReplication = true) :
    b.RefersAsCopied later c (start.newborn x payload) := by
  have hstart : Confined (fun i => ∃ call ∈ later, call.Copies i) c (start.newborn x payload)
      b := by
    refine ⟨hb, hid, hc, fun i hi => ?_, fun s hs hsource => absurd hsource (hnone s hs)⟩
    rw [entity_newborn] at hi
    rw [contains_of_some hi] at hmissing
    cases hmissing
  have hend := hstart.exchanges hlaw hp (exchanges_run b hlater)
  intro i hi p hpc t ht
  rcases hend.held i hi p hpc t ht with h | ⟨j, ⟨call, hcall, hcopies⟩, hj⟩
  · exact Or.inl h
  · exact Or.inr ⟨call, hcall, j, hcopies, hj⟩

/-- A reference that waits for an entity which is missing, and which an entity in its place
    would take over: both its ends can be made, and new instances leave its parameter
    empty. -/
structure Orphan (b : Book P) (blank : Instance P) (r : ReferenceRecord P) : Prop where
  waits : r ∈ b.pending
  source : r.source = blank.entity
  named : blank.entity.guid.isNull = false
  empty : ∀ t, ¬ blank.PointsAt r.param t
  target : b.CanMake r.target

/-- If an orphan waits on, there are calls that let an entity take it over. -/
theorem Orphan.not_refersAsCopied {b : Book P} {c : ObjectClass P} {payload : Payload P}
    (hb : b.WellFormed) (hlaw : c.IsLawful) (hqueued : b.Queued) {x : Entity}
    (hgone : b.contains x = false)
    (hc : b.registry.find? x.typeTag = some c) (hp : c.initialPayload? = some payload)
    {r : ReferenceRecord P} (h : b.Orphan (b.newborn x payload) r) :
    ∃ later, (∀ d ∈ later, d.isReplication = true) ∧
      ¬ b.RefersAsCopied later c (b.newborn x payload) := by
  obtain ⟨hwaits, hsource, hnamed, hempty, htarget⟩ := h
  have hsource : r.source = x := hsource
  subst hsource
  obtain ⟨i, t, hi, hpoints⟩ := orphan_linked hb hlaw hqueued hwaits hgone hnamed hc hp htarget
  obtain ⟨d, hd, hparam, _⟩ := hqueued r hwaits
  cases hc.symm.trans hd
  -- Both ends are made again; nothing is copied.
  refine ⟨[.create r.source.typeTag r.source.guid, .create r.target.typeTag r.target.guid,
    .resolvePending], by simp [Call.isReplication], fun hrefers => ?_⟩
  rcases hrefers i hi r.param hparam t hpoints with hblank | ⟨call, hcall, j, hcopies, _⟩
  · exact hempty t hblank
  · simp only [List.mem_cons, List.not_mem_nil, or_false] at hcall
    rcases hcall with rfl | rfl | rfl <;> exact hcopies

/-- An entity is missing during some calls, and then it may come back. If no reference has
    waited for it, or one of the calls resolves what waits, then whatever else is made,
    removed and copied it refers to nothing but what was copied for it since. If an orphan
    has waited for it, nothing but a resolution has this effect. -/
theorem references_die_with_source {b : Book P} (hb : b.WellFormed) {x : Entity}
    {c : ObjectClass P} {payload : Payload P} (hc : b.registry.find? x.typeTag = some c)
    (hlaw : c.IsLawful) (hp : c.initialPayload? = some payload) {absent : List (Call P)}
    (hcalls : ∀ d ∈ absent, d.isReplication = true)
    (hgone : ∀ n, (b.run (absent.take n)).contains x = false) :
    ((NoneWaits x b ∨ ∃ d ∈ absent, d.resolves = true) →
      ∀ later, (∀ d ∈ later, d.isReplication = true) →
        (b.run absent).RefersAsCopied later c (b.newborn x payload)) ∧
    (b.Queued → ∀ r, b.Orphan (b.newborn x payload) r →
      [∃ d ∈ absent, d.resolves = true,
        NoneWaits x (b.run absent),
        ∀ later, (∀ d ∈ later, d.isReplication = true) →
          (b.run absent).RefersAsCopied later c (b.newborn x payload)].TFAE) := by
  have hparts := exchanges_run b hcalls
  have hwell := hparts.steps.wellFormed hb
  obtain ⟨hid, hreg⟩ := hparts.surroundings hb
  have hc' : (b.run absent).registry.find? x.typeTag = some c := hreg ▸ hc
  have hmissing : (b.run absent).contains x = false := by
    simpa using hgone absent.length
  have hdrops (h : NoneWaits x b ∨ ∃ d ∈ absent, d.resolves = true) :
      NoneWaits x (b.run absent) := noneWaits_run hb hcalls hgone h
  have hclean (hnone : NoneWaits x (b.run absent)) (later : List (Call P))
      (hlater : ∀ d ∈ later, d.isReplication = true) :
      (b.run absent).RefersAsCopied later c (b.newborn x payload) :=
    refersAsCopied_of_noneWaits hwell hc' hlaw hid hp hmissing hnone hlater
  refine ⟨fun h => hclean (hdrops h), fun hqueued r hr => ?_⟩
  tfae_have 1 → 2 := fun h => hdrops (Or.inr h)
  tfae_have 2 → 3 := hclean
  tfae_have 3 → 1 := by
    intro h
    by_contra hnot
    have hres : ∀ d ∈ absent, d.resolves = false := by
      intro d hd
      cases hd' : d.resolves with
      | false => rfl
      | true => exact absurd ⟨d, hd, hd'⟩ hnot
    have hpending := pending_run_of_not_resolves (b := b) hcalls hres
    have hnewborn : (b.run absent).newborn x payload = b.newborn x payload := by
      unfold newborn
      rw [hid]
    have hqueued' : (b.run absent).Queued := by
      unfold Queued
      rw [hpending, hreg]
      exact hqueued
    have hr' : (b.run absent).Orphan ((b.run absent).newborn x payload) r := by
      rw [hnewborn]
      refine ⟨hpending ▸ hr.waits, hr.source, hr.named, hr.empty, ?_⟩
      unfold CanMake
      rw [hreg]
      exact hr.target
    obtain ⟨later, hlater, hnot⟩ := hr'.not_refersAsCopied hwell hlaw hqueued' hmissing hc' hp
    exact hnot (hnewborn ▸ h later hlater)
  tfae_finish

end Book

/-! ### A node that is removed while its reference waits -/

namespace Bag

/-- A node of the ring, which refers to the next one. -/
def first : Instance bags := (ring.get? (node 1)).get (by decide +kernel)

/-- The same node when it refers to nothing any more. -/
def detached : Instance bags :=
  ((ring.write (node 1) "next" (.reference none)).2.get? (node 1)).get (by decide +kernel)

/-- A book to which the node was copied, without the next one, and from which it was
    removed. -/
def bereft : Book bags := (emptyBook 2).run [.copyEntity first, .delete (node 1)]

theorem wellFormed_bereft : bereft.WellFormed :=
  (Book.Steps.run (emptyBook 2) _).wellFormed (wellFormed_emptyBook 2)

theorem exchanges_bereft : ∃ copied, Book.Exchanges copied (emptyBook 2) bereft :=
  ⟨_, Book.exchanges_run (emptyBook 2) (by simp [Call.isReplication])⟩

theorem registry_bereft : bereft.registry = nodes := by
  obtain ⟨_, hparts⟩ := exchanges_bereft
  exact (hparts.surroundings (wellFormed_emptyBook 2)).2

theorem queued_bereft : bereft.Queued := by
  obtain ⟨_, hparts⟩ := exchanges_bereft
  have hempty : (emptyBook 2).Queued := fun r hr => nomatch hr
  exact hempty.exchanges (wellFormed_emptyBook 2) hparts

/-- New nodes refer to nothing. -/
theorem not_pointsAt_newborn {p : Param bags} (hp : p ∈ nodeClass.copyable) (t : Entity) :
    ¬ (bereft.newborn (node 1) ⟨.alpha, .empty⟩).PointsAt p t := by
  have hnone : ∀ p ∈ nodeClass.copyable,
      (bereft.newborn (node 1) ⟨.alpha, .empty⟩).targets p = [] := by decide +kernel
  intro ht
  have hmem := Instance.mem_targets.mpr ht
  rw [hnone p hp] at hmem
  cases hmem

/-- The reference to the next node was left behind. -/
theorem orphan_bereft :
    ∃ r, bereft.Orphan (bereft.newborn (node 1) ⟨.alpha, .empty⟩) r ∧ r.target = node 2 := by
  have hlinks : bereft.pending.map (·.link) = [(node 1, "next", node 2)] := by decide +kernel
  obtain ⟨r, hr, hlink⟩ : ∃ r ∈ bereft.pending, r.link = (node 1, "next", node 2) :=
    List.mem_map.mp (hlinks ▸ List.mem_cons_self)
  have hsource : r.source = node 1 := congrArg Prod.fst hlink
  have htarget : r.target = node 2 := congrArg (fun l => l.2.2) hlink
  have hfind : bereft.registry.find? "node" = some nodeClass := by
    rw [registry_bereft]
    rfl
  have hparam : r.param ∈ nodeClass.copyable := by
    obtain ⟨c, hc, hparam, _⟩ := queued_bereft r hr
    rw [hsource] at hc
    cases hfind.symm.trans hc
    exact hparam
  have hmake : bereft.CanMake r.target :=
    htarget ▸ ⟨by decide, nodeClass, ⟨.alpha, .empty⟩, hfind, rfl⟩
  exact ⟨r, ⟨hr, hsource, by decide, not_pointsAt_newborn hparam, hmake⟩, htarget⟩

end Bag

/-- Resolved while the node is missing, its reference never comes back. -/
theorem Book.bereft_forgets_node :
    (∃ r, Bag.bereft.Orphan (Bag.bereft.newborn (Bag.node 1) ⟨.alpha, .empty⟩) r ∧
      r.target = Bag.node 2) ∧
    NoneWaits (Bag.node 1) (Bag.bereft.run [.resolvePending]) ∧
    ∀ later : List (Call bags), (∀ c ∈ later, c.isReplication = true) →
      (Bag.bereft.run [.resolvePending]).RefersAsCopied later Bag.nodeClass
        (Bag.bereft.newborn (Bag.node 1) ⟨.alpha, .empty⟩) := by
  have hfind : Bag.bereft.registry.find? "node" = some Bag.nodeClass := by
    rw [Bag.registry_bereft]
    rfl
  obtain ⟨r, horphan, htarget⟩ := Bag.orphan_bereft
  have hgone : ∀ n, (Bag.bereft.run ([Call.resolvePending].take n)).contains (Bag.node 1) =
      false := by
    intro n
    cases n with
    | zero => decide +kernel
    | succ n =>
      rw [List.take_of_length_le (by simp)]
      decide +kernel
  have hresolves : ∃ c ∈ [(Call.resolvePending : Call bags)], c.resolves = true :=
    ⟨_, List.mem_cons_self, rfl⟩
  have hpayload : Bag.nodeClass.initialPayload? = some ⟨.alpha, .empty⟩ := rfl
  have hcalls : ∀ c ∈ [(Call.resolvePending : Call bags)], c.isReplication = true := by
    simp [Call.isReplication]
  obtain ⟨hclean, htfae⟩ := references_die_with_source Bag.wellFormed_bereft hfind
    (Bag.isLawful_nodes _ List.mem_cons_self) hpayload hcalls hgone
  have hnone := ((htfae Bag.queued_bereft r horphan).out 0 1).mp hresolves
  exact ⟨⟨r, horphan, htarget⟩, hnone, hclean (Or.inr hresolves)⟩

/-- Without a resolution in between, a new copy of the node refers to what the removed one
    has waited for, although the instance that is copied refers to nothing. -/
theorem Book.bereft_remembers_node :
    Bag.detached.entity = Bag.node 1 ∧
    (∀ p ∈ Bag.nodeClass.copyable, Bag.detached.targets p = []) ∧
    Bag.bereft.contains (Bag.node 1) = false ∧
    ((Bag.bereft.run [.create "node" (Bag.node 2).guid]).copyEntity Bag.detached).1 =
      .ok (Bag.node 1) ∧
    (Bag.bereft.run [.create "node" (Bag.node 2).guid, .copyEntity Bag.detached]).read
      (Bag.node 1) "next" = .ok (.reference (some (Bag.node 2).guid)) := by
  decide +kernel

end EntityBook
