import EntityBook.Proofs.Copy.Resolution
import EntityBook.Proofs.Payload.Bag

/-! # Copies in any order

  A resolution makes the links whose targets have arrived and a copy adds one
  entity, so after any sequence of copies the destination is the replica of what
  was copied with all links made that can be. That determines it up to the order
  of collections and of the references that wait.
-/

namespace EntityBook.Book

variable {P : PayloadFamily} {source dest b : Book P} {copied : Entity → Prop}
  {linked : Entity × String × Entity → Prop}

/-! ### Resolution -/

/-- The links that can be made: both ends are there. -/
def Linkable (source b : Book P) (l : Entity × String × Entity) : Prop :=
  source.HasLink l ∧ b.contains l.1 = true ∧ b.contains l.2.2 = true

/-- A pass over records makes the links whose targets are there. -/
theorem Replica.pass (hlaw : ∀ c ∈ source.registry.classes, c.IsLawful)
    (rs : List (ReferenceRecord P)) {s : Pass P} (h : Replica source dest copied linked s.book)
    (hr : Tracks source s.book rs) :
    Replica source dest copied
      (fun l => linked l ∨ (l ∈ rs.map ReferenceRecord.link ∧ s.book.contains l.2.2 = true))
      (rs.foldl Pass.step s).book := by
  -- Induction on the records; `linked` grows by each link that is made.
  induction rs generalizing s linked with
  | nil => exact h.of_linked fun l => by simp
  | cons r rest ih =>
    obtain ⟨c, hc, hparam⟩ := hr.param r List.mem_cons_self
    obtain ⟨hsource, hlink⟩ := hr.link r List.mem_cons_self
    -- A link edits the source of the record only, so the other records stay tracked.
    have hrest : Tracks source s.book rest := by
      refine ⟨?_, ?_⟩
      · intro q hq
        exact hr.param q (List.mem_cons_of_mem r hq)
      · intro q hq
        exact hr.link q (List.mem_cons_of_mem r hq)
    rw [List.foldl_cons]
    cases ht : s.book.contains r.target with
    -- The target is there: the link is made.
    | true =>
      have hbook := (step_of_there hsource ht).1
      have hrev := Revises.link h.wellFormed r
      have hlive (e : Entity) : (s.step r).book.contains e = s.book.contains e := by
        rw [hbook, hrev.contains_eq]
      have hregistry : (s.step r).book.registry = s.book.registry := by
        rw [hbook, hrev.registry]
      have hnext := h.link hlaw hc hparam hsource ht hlink
      rw [← hbook] at hnext
      have hrep := ih hnext (hrest.of_eq hregistry fun e he => (hlive e).trans he)
      refine hrep.of_linked fun l => ?_
      rw [hlive, List.map_cons, List.mem_cons]
      constructor
      · intro hl
        rcases hl with hl | ⟨rfl | hl, hm⟩
        · exact Or.inl (Or.inl hl)
        · exact Or.inl (Or.inr rfl)
        · exact Or.inr ⟨hl, hm⟩
      · intro hl
        rcases hl with (hl | rfl) | ⟨hl, hm⟩
        · exact Or.inl hl
        · exact Or.inr ⟨Or.inl rfl, ht⟩
        · exact Or.inr ⟨Or.inr hl, hm⟩
    -- The target is missing: nothing is linked.
    | false =>
      rw [step_of_missing hsource ht]
      have hrep := ih (s := { s with waiting := s.waiting ++ [r] }) h hrest
      refine hrep.of_linked fun l => ?_
      rw [List.map_cons, List.mem_cons]
      constructor
      · intro hl
        rcases hl with hl | ⟨rfl | hl, hm⟩
        · exact Or.inl hl
        · have hm : s.book.contains r.target = true := hm
          rw [ht] at hm
          cases hm
        · exact Or.inr ⟨hl, hm⟩
      · intro hl
        rcases hl with hl | ⟨hl, hm⟩
        · exact Or.inl hl
        · exact Or.inr ⟨Or.inr hl, hm⟩

/-- In a replica whose other links wait, the links that can be made are those that
    were made and those that wait for a target that has arrived. -/
theorem Waiting.linkable_iff (h : Waiting source dest copied linked b)
    (l : Entity × String × Entity) :
    Linkable source b l ↔
      linked l ∨ (l ∈ b.pending.map ReferenceRecord.link ∧ b.contains l.2.2 = true) := by
  rw [h.pending l]
  constructor
  · intro hl
    obtain ⟨hlink, hs, ht⟩ := hl
    by_cases hm : linked l
    · exact Or.inl hm
    · exact Or.inr ⟨⟨hs, hlink, hm⟩, ht⟩
  · intro hl
    rcases hl with hl | ⟨⟨hs, hlink, _⟩, ht⟩
    · exact h.made l hl
    · exact ⟨hlink, hs, ht⟩

/-- Resolution makes every link that can be made. -/
theorem Waiting.resolvePending (hlaw : ∀ c ∈ source.registry.classes, c.IsLawful)
    (h : Waiting source dest copied linked b) :
    Waiting source dest copied (Linkable source b) b.resolvePending.2 ∧
      ∀ e, b.resolvePending.2.contains e = b.contains e := by
  have htaken : Replica source dest copied linked b.takePending.2 :=
    h.toReplica.of_instances rfl rfl rfl rfl
  have hrep := htaken.pass (s := { book := b.takePending.2 }) hlaw b.pending
    (h.tracks.of_eq rfl fun e he => he)
  have hfinal : Replica source dest copied (Linkable source b) b.resolvePending.2 :=
    (hrep.of_linked h.linkable_iff).of_instances rfl rfl rfl rfl
  have hlive := (Revises.resolvePending h.wellFormed).contains_eq
  have hmem {r : ReferenceRecord P} (hr : r ∈ b.resolvePending.2.pending) : r ∈ b.pending := by
    rw [pending_resolvePending h.wellFormed] at hr
    rcases mem_foldl_addRecord hr with hr | hr
    · cases hr
    · exact (List.mem_filter.mp hr).1
  refine ⟨⟨hfinal, ⟨?_, ?_⟩, ?_⟩, hlive⟩
  · intro r hr
    rw [hfinal.registry, ← h.registry]
    exact h.tracks.param r (hmem hr)
  · intro r hr
    rw [hlive]
    exact h.tracks.link r (hmem hr)
  · intro l
    rw [mem_link_resolvePending h.wellFormed, h.pending, hlive]
    constructor
    · rintro ⟨⟨hs, hlink, _⟩, _, ht⟩
      refine ⟨hs, hlink, fun hm => ?_⟩
      rw [hm.2.2] at ht
      cases ht
    -- The link waits although its source is there, so it is the target that is missing.
    · rintro ⟨hs, hlink, hn⟩
      refine ⟨⟨hs, hlink, fun hm => hn (h.made l hm)⟩, hs, ?_⟩
      cases ht : b.contains l.2.2 with
      | false => rfl
      | true => exact absurd ⟨hlink, hs, ht⟩ hn

/-! ### Copies -/

/-- Copying an entity leaves all others as they are. -/
theorem get?_transfer_of_ne {i : Instance P} {c : ObjectClass P} {payload : Payload P}
    {e : Entity} (h : e ≠ i.entity) : (b.transfer i c payload).book.get? e = b.get? e := by
  have steps (ps : List (Param P)) (s : Progress P) :
      (ps.foldl (Progress.step i) s).book.get? e = s.book.get? e := by
    induction ps generalizing s with
    | nil => rfl
    | cons p rest ih =>
      rw [List.foldl_cons, ih, Progress.book_step]
      exact get?_edit_of_ne h
  exact (steps _ _).trans (get?_adopt_of_ne b h)

theorem pending_transfer (b : Book P) (i : Instance P) (c : ObjectClass P) (payload : Payload P) :
    (b.transfer i c payload).book.pending = b.pending := by
  have steps (ps : List (Param P)) (s : Progress P) :
      (ps.foldl (Progress.step i) s).book.pending = s.book.pending := by
    induction ps generalizing s with
    | nil => rfl
    | cons p rest ih =>
      rw [List.foldl_cons, ih, Progress.book_step]
      exact (Keeps.edit ..).pending
  exact steps _ _

/-- What copying an instance of an accepted class does to a book: the copy is there
    besides what was, and the links of the instance wait besides those that did. -/
structure Arrival (b : Book P) (i : Instance P) (c : ObjectClass P) (payload : Payload P)
    (b' : Book P) : Prop where
  wellFormed : b'.WellFormed
  registry : b'.registry = b.registry
  id : b'.id = b.id
  live : ∀ e, b'.contains e = true ↔ e = i.entity ∨ b.contains e = true
  others : ∀ e, e ≠ i.entity → b'.get? e = b.get? e
  copy : ∃ copy, b'.get? i.entity = some copy ∧
    Instance.Merges c (b.newborn i.entity payload) i (fun _ _ => False) copy
  pending : ∃ rs : List (ReferenceRecord P), b'.pending = rs.foldl addRecord b.pending ∧
    ∀ r, r ∈ rs ↔ r.source = i.entity ∧ r.param ∈ c.copyable ∧ i.PointsAt r.param r.target

theorem arrival_copyOne (hb : b.WellFormed) {i : Instance P}
    (hg : i.entity.guid.isNull = false) (hnot : b.contains i.entity = false) {c : ObjectClass P}
    (hc : b.registry.find? i.entity.typeTag = some c) (hlaw : c.IsLawful)
    (hcomp : c.isCompliant = true) {payload : Payload P} (hp : c.initialPayload? = some payload)
    (htype : i.payload.type = c.payloadType) : Arrival b i c payload (b.copyOne i).2 := by
  rw [copyOne_of_accepts hnot hg hc hcomp hp]
  have hadopt := hb.adopt hg hc hp
  -- All that comes after the adoption revises the book.
  have hrev := (revises_transfer (c := c) hadopt).trans
    (.pushPending (b.transfer i c payload).book (b.transfer i c payload).deferred)
  obtain ⟨hcopy, hdeferred⟩ := merges_transfer hb hlaw hg hc hp htype
  refine ⟨hrev.wellFormed hadopt, hrev.registry, hrev.id, ?_, ?_, hcopy, ?_⟩
  · intro e
    dsimp only
    rw [hrev.contains_eq, contains_adopt, entity_newborn]
  · intro e he
    exact get?_transfer_of_ne he
  · refine ⟨(b.transfer i c payload).deferred, ?_, hdeferred⟩
    show (b.transfer i c payload).deferred.foldl addRecord (b.transfer i c payload).book.pending = _
    rw [pending_transfer]

section Arrivals

variable {b' : Book P} {i : Instance P} {c : ObjectClass P} {payload : Payload P}

/-- The copy joins the replica without links. -/
theorem Replica.arrive (h : Replica source dest copied linked b)
    (ha : Arrival b i c payload b') (hi : source.get? i.entity = some i)
    (hnot : b.contains i.entity = false) (hacc : b.Accepts i.entity.typeTag)
    (hc : b.registry.find? i.entity.typeTag = some c) (hp : c.initialPayload? = some payload) :
    Replica source dest (fun e => copied e ∨ e = i.entity) linked b' where
  wellFormed := ha.wellFormed
  registry := ha.registry.trans h.registry
  id := ha.id.trans h.id
  live := by
    intro e
    unfold Accepts
    rw [ha.live, ha.registry, h.live]
    constructor
    · intro he
      rcases he with rfl | ⟨hcopied, haccepts⟩
      · exact ⟨Or.inr rfl, hacc⟩
      · exact ⟨Or.inl hcopied, haccepts⟩
    · intro he
      obtain ⟨hcopied | rfl, haccepts⟩ := he
      · exact Or.inr ⟨hcopied, haccepts⟩
      · exact Or.inl rfl
  held := by
    intro e he
    rcases he with he | rfl
    · exact h.held e he
    · unfold contains
      rw [hi]
      rfl
  made := by
    intro l hl
    obtain ⟨hlink, hs, ht⟩ := h.made l hl
    exact ⟨hlink, (ha.live _).mpr (Or.inr hs), (ha.live _).mpr (Or.inr ht)⟩
  values := by
    intro e i' copy' c' payload' hs hget hfind hp'
    rw [ha.registry] at hfind
    by_cases he : e = i.entity
    · subst he
      obtain ⟨copy, hcopy, hmerges⟩ := ha.copy
      cases hi.symm.trans hs
      cases hcopy.symm.trans hget
      cases hc.symm.trans hfind
      cases hp.symm.trans hp'
      have hblank : b.newborn i.entity payload = dest.newborn i.entity payload := by
        unfold newborn
        rw [h.id]
      rw [hblank] at hmerges
      refine hmerges.of_linked ?_
      intro name t
      refine ⟨?_, False.elim⟩
      intro hl
      -- No link of the entity was made before it was there.
      have hthere := (h.made _ hl).2.1
      rw [hnot] at hthere
      cases hthere
    · exact h.values e i' copy' c' payload' hs ((ha.others e he).symm.trans hget) hfind hp'

/-- The links of the copy are those of the instance. -/
theorem Arrival.hasLink_iff (ha : Arrival b i c payload b') (hr : b.registry = source.registry)
    (hi : source.get? i.entity = some i) (hc : b.registry.find? i.entity.typeTag = some c) :
    ∃ rs : List (ReferenceRecord P), b'.pending = rs.foldl addRecord b.pending ∧
      (∀ r ∈ rs, r.source = i.entity ∧ r.param ∈ c.copyable) ∧
      ∀ l, l ∈ rs.map ReferenceRecord.link ↔ l.1 = i.entity ∧ source.HasLink l := by
  obtain ⟨rs, hpending, hrs⟩ := ha.pending
  refine ⟨rs, hpending, ?_, ?_⟩
  · intro r hm
    obtain ⟨hsource, hparam, _⟩ := (hrs r).mp hm
    exact ⟨hsource, hparam⟩
  · intro l
    constructor
    · intro hl
      obtain ⟨r, hm, rfl⟩ := List.mem_map.mp hl
      obtain ⟨hsource, hparam, hpoints⟩ := (hrs r).mp hm
      have hfirst : r.link.1 = i.entity := hsource
      refine ⟨hfirst, i, c, r.param, ?_, ?_, hparam, rfl, hpoints⟩
      · rw [hfirst, hi]
      · rw [hfirst, ← hr, hc]
    · intro hl
      obtain ⟨hfirst, i', c', p, hi', hc', hparam, hname, hpoints⟩ := hl
      -- A parameter of that name is in the class once, so the link is the record's.
      obtain ⟨e, name, t⟩ := l
      have hfirst : e = i.entity := hfirst
      subst hfirst
      cases hi.symm.trans hi'
      rw [← hr] at hc'
      cases hc.symm.trans hc'
      have hname : p.name = name := hname
      refine List.mem_map.mpr ⟨⟨i.entity, p, t⟩, (hrs _).mpr ⟨rfl, hparam, hpoints⟩, ?_⟩
      simp [ReferenceRecord.link, hname]

/-- The links of the copy wait. -/
theorem Waiting.arrive (h : Waiting source dest copied linked b)
    (ha : Arrival b i c payload b') (hi : source.get? i.entity = some i)
    (hnot : b.contains i.entity = false) (hacc : b.Accepts i.entity.typeTag)
    (hc : b.registry.find? i.entity.typeTag = some c) (hp : c.initialPayload? = some payload) :
    Waiting source dest (fun e => copied e ∨ e = i.entity) linked b' := by
  obtain ⟨rs, hpending, hrs, hlinks⟩ := ha.hasLink_iff h.registry hi hc
  refine ⟨h.toReplica.arrive ha hi hnot hacc hc hp, ⟨?_, ?_⟩, ?_⟩
  · intro r hm
    rw [hpending] at hm
    rw [ha.registry]
    rcases mem_foldl_addRecord hm with hm | hm
    · exact h.tracks.param r hm
    -- A record of the copy.
    · obtain ⟨hsource, hparam⟩ := hrs r hm
      exact ⟨c, hsource ▸ hc, hparam⟩
  · intro r hm
    rw [hpending] at hm
    rcases mem_foldl_addRecord hm with hm | hm
    · obtain ⟨hthere, hlink⟩ := h.tracks.link r hm
      exact ⟨(ha.live _).mpr (Or.inr hthere), hlink⟩
    · obtain ⟨hsource, hlink⟩ := (hlinks r.link).mp (List.mem_map_of_mem hm)
      exact ⟨(ha.live _).mpr (Or.inl hsource), hlink⟩
  · intro l
    rw [hpending, mem_link_foldl_addRecord, h.pending, hlinks, ha.live]
    constructor
    · intro hl
      rcases hl with ⟨hthere, hlink, hn⟩ | ⟨hfirst, hlink⟩
      · exact ⟨Or.inr hthere, hlink, hn⟩
      -- No link of the entity was made before it was there.
      · refine ⟨Or.inl hfirst, hlink, ?_⟩
        intro hm
        have hthere := (h.made _ hm).2.1
        rw [hfirst, hnot] at hthere
        cases hthere
    · intro hl
      obtain ⟨hfirst | hthere, hlink, hn⟩ := hl
      · exact Or.inr ⟨hfirst, hlink⟩
      · exact Or.inl ⟨hthere, hlink, hn⟩

/-- An entity that is not accepted leaves the replica as it is. -/
theorem Waiting.refuse (h : Waiting source dest copied linked b)
    (hi : source.get? i.entity = some i) (hacc : ¬ b.Accepts i.entity.typeTag) :
    Waiting source dest (fun e => copied e ∨ e = i.entity) linked b := by
  refine ⟨⟨h.wellFormed, h.registry, h.id, ?_, ?_, h.made, h.values⟩, h.tracks, h.pending⟩
  · intro e
    rw [h.live]
    constructor
    · intro he
      obtain ⟨hcopied, haccepts⟩ := he
      exact ⟨Or.inl hcopied, haccepts⟩
    · intro he
      obtain ⟨hcopied | rfl, haccepts⟩ := he
      · exact ⟨hcopied, haccepts⟩
      · exact absurd haccepts hacc
  · intro e he
    rcases he with he | rfl
    · exact h.held e he
    · unfold contains
      rw [hi]
      rfl

end Arrivals

/-- Copying an entity that was not copied before. -/
theorem Waiting.copyOne (hsource : source.WellFormed)
    (hlaw : ∀ c ∈ source.registry.classes, c.IsLawful) (h : Waiting source dest copied linked b)
    {i : Instance P} (hi : source.get? i.entity = some i) (hnew : ¬ copied i.entity) :
    Waiting source dest (fun e => copied e ∨ e = i.entity) linked (b.copyOne i).2 := by
  have hfit := hsource.fits _ _ hi
  -- Only what was copied is live.
  have hnot : b.contains i.entity = false := by
    cases hc : b.contains i.entity with
    | false => rfl
    | true => exact absurd ((h.live _).mp hc).1 hnew
  by_cases hacc : b.Accepts i.entity.typeTag
  · obtain ⟨c, hc, hcomp⟩ := hacc
    obtain ⟨payload, hp⟩ := exists_initialPayload hcomp
    have htype : i.payload.type = c.payloadType := by
      obtain ⟨c', hc', _, htype⟩ := hfit.known
      rw [← h.registry] at hc'
      cases hc.symm.trans hc'
      exact htype
    have hlawc : c.IsLawful := hlaw c (h.registry ▸ List.mem_of_find?_eq_some hc)
    have harrival := arrival_copyOne h.wellFormed hfit.guid hnot hc hlawc hcomp hp htype
    exact h.arrive harrival hi hnot ⟨c, hc, hcomp⟩ hc hp
  · obtain ⟨reason, _, hr⟩ := copyOne_of_not_accepts hnot hacc
    rw [hr]
    exact h.refuse hi hacc

/-! ### Sequences of copies -/

/-- A replica in which every link was made that can be. -/
def Settled (source dest : Book P) (copied : Entity → Prop) (b : Book P) : Prop :=
  Waiting source dest copied (Linkable source b) b

theorem Waiting.of_copied {copied' : Entity → Prop} (h : Waiting source dest copied linked b)
    (hc : ∀ e, copied' e ↔ copied e) : Waiting source dest copied' linked b := by
  have heq : copied' = copied := funext fun e => propext (hc e)
  rw [heq]
  exact h

/-- A resolution settles a replica, also when the events are released after it. -/
theorem Waiting.settle (hlaw : ∀ c ∈ source.registry.classes, c.IsLawful)
    (h : Waiting source dest copied linked b) :
    Settled source dest copied b.resolvePending.2.resume := by
  obtain ⟨hres, hlive⟩ := h.resolvePending hlaw
  have heq : Linkable source b.resolvePending.2.resume = Linkable source b := by
    funext l
    unfold Linkable
    rw [(Revises.resume b.resolvePending.2).contains_eq,
      (Revises.resume b.resolvePending.2).contains_eq, hlive, hlive]
  unfold Settled
  rw [heq]
  exact hres.of_instances rfl rfl rfl rfl rfl

/-- Copies entities one by one. -/
def copyEach (dest : Book P) (l : List (Instance P)) : Book P :=
  l.foldl (fun b i => (b.copyEntity i).2) dest

/-- Live instances of a book, each once, none of which was copied. -/
structure Fresh (source : Book P) (copied : Entity → Prop) (l : List (Instance P)) : Prop where
  live : ∀ i ∈ l, source.get? i.entity = some i
  nodup : (l.map Instance.entity).Nodup
  new : ∀ i ∈ l, ¬ copied i.entity

theorem Fresh.tail {i : Instance P} {l : List (Instance P)} (h : Fresh source copied (i :: l)) :
    Fresh source (fun e => copied e ∨ e = i.entity) l where
  live j hj := h.live j (List.mem_cons_of_mem i hj)
  nodup := (List.nodup_cons.mp h.nodup).2
  new j hj := by
    rintro (hc | he)
    · exact h.new j (List.mem_cons_of_mem i hj) hc
    · exact (List.nodup_cons.mp h.nodup).1 (List.mem_map.mpr ⟨j, hj, he⟩)

/-- One copy after the other, each with a resolution. -/
theorem Settled.copyEach (hsource : source.WellFormed)
    (hlaw : ∀ c ∈ source.registry.classes, c.IsLawful) {l : List (Instance P)}
    (hl : Fresh source copied l) (h : Settled source dest copied b) :
    Settled source dest (fun e => copied e ∨ e ∈ l.map Instance.entity) (b.copyEach l) := by
  induction l generalizing copied b with
  | nil => exact h.of_copied fun e => by simp
  | cons i rest ih =>
    have hheld : Waiting source dest copied (Linkable source b) b.suspend :=
      h.of_instances rfl rfl rfl rfl rfl
    have hone := hheld.copyOne hsource hlaw (hl.live i List.mem_cons_self)
      (hl.new i List.mem_cons_self)
    refine (ih hl.tail (hone.settle hlaw)).of_copied fun e => ?_
    rw [List.map_cons, List.mem_cons, or_assoc]

/-- All copies first, one resolution at the end. -/
theorem Waiting.copies (hsource : source.WellFormed)
    (hlaw : ∀ c ∈ source.registry.classes, c.IsLawful) {l : List (Instance P)} {s : Batch P}
    (hl : Fresh source copied l) (h : Waiting source dest copied linked s.book) :
    Waiting source dest (fun e => copied e ∨ e ∈ l.map Instance.entity) linked
      (l.foldl Batch.copy s).book := by
  induction l generalizing copied s with
  | nil => exact h.of_copied fun e => by simp
  | cons i rest ih =>
    have hone := h.copyOne hsource hlaw (hl.live i List.mem_cons_self) (hl.new i List.mem_cons_self)
    refine (ih (s := s.copy i) hl.tail hone).of_copied fun e => ?_
    rw [List.map_cons, List.mem_cons, or_assoc]

/-! ### The order does not matter -/

/-- A book is what copying the entities of a list to another one comes to, in some
    order, one by one or all at once. -/
def IsReplica (dest : Book P) (l : List (Instance P)) (b : Book P) : Prop :=
  ∃ l', l'.Perm l ∧ (b = dest.copyEach l' ∨ b = (dest.copyList l').2)

theorem Settled.of_isReplica {l : List (Instance P)} (hsource : source.WellFormed)
    (hdest : dest.WellFormed) (hlaw : ∀ c ∈ source.registry.classes, c.IsLawful)
    (hr : dest.registry = source.registry) (hempty : ∀ e, dest.contains e = false)
    (hp : dest.pending = []) (hlive : ∀ i ∈ l, source.get? i.entity = some i)
    (hnodup : (l.map Instance.entity).Nodup) (hb : dest.IsReplica l b) :
    Settled source dest (fun e => e ∈ l.map Instance.entity) b := by
  obtain ⟨l', hperm, hb⟩ := hb
  have hmap := hperm.map Instance.entity
  have hfresh : Fresh source (fun _ => False) l' :=
    ⟨fun i hi => hlive i (hperm.mem_iff.mp hi), hmap.nodup_iff.mpr hnodup, fun _ _ h => h⟩
  have hmem (e : Entity) : e ∈ l.map Instance.entity ↔ False ∨ e ∈ l'.map Instance.entity := by
    rw [false_or, hmap.mem_iff]
  have hstart := Waiting.start hdest hr hempty hp
  rcases hb with rfl | rfl
  -- One by one: the empty book is settled, and every copy settles it again.
  · have hnone : Linkable source dest = fun _ => False := by
      funext l
      simp [Linkable, hempty]
    have hsettled : Settled source dest (fun _ => False) dest := by
      unfold Settled
      rw [hnone]
      exact hstart
    exact (hsettled.copyEach hsource hlaw hfresh).of_copied hmem
  -- All at once: nothing is linked before the resolution at the end.
  · have hcopies := Waiting.copies (s := { book := dest.suspend }) hsource hlaw hfresh
      (hstart.of_instances rfl rfl rfl rfl rfl)
    exact Waiting.of_copied (hcopies.settle hlaw) hmem

/-- Two books hold the same: the same live entities, the same values up to the
    order of collections, and the same links waiting. Parameters that are neither
    copied nor independent of those that are show what the program makes of them. -/
structure SameReplica (b b' : Book P) : Prop where
  live : ∀ e, b'.contains e = b.contains e
  values : ∀ e i j c p, b.get? e = some i → b'.get? e = some j →
    b.registry.find? e.typeTag = some c → p ∈ c.params → (p.isCopyable = true ∨ c.Detached p) →
    ∃ v w, i.value? p.accessor = some v ∧ j.value? p.accessor = some w ∧ v.SameContent w
  pending : ∀ l, l ∈ b'.pending.map ReferenceRecord.link ↔ l ∈ b.pending.map ReferenceRecord.link

/-- A settled replica is determined by what was copied. -/
theorem Settled.sameReplica {b' : Book P} (h : Settled source dest copied b)
    (h' : Settled source dest copied b') : SameReplica b b' := by
  have hreg : b'.registry = b.registry := h'.registry.trans h.registry.symm
  have hlive (e : Entity) : b'.contains e = b.contains e := by
    rw [Bool.eq_iff_iff, h'.live, h.live]
    unfold Accepts
    rw [hreg]
  -- The same is live, so the same links can be made.
  have hlinked : Linkable source b' = Linkable source b := by
    funext l
    unfold Linkable
    rw [hlive, hlive]
  refine ⟨hlive, fun e i j c p hi hj hc hp hkind => ?_, fun l => ?_⟩
  · have hin : b.contains e = true := contains_of_some hi
    obtain ⟨source_i, _, hsrc, _⟩ := h.exists_both hin
    have hfit := h.wellFormed.fits e i hi
    obtain ⟨c', hc', hcon, _⟩ := hfit.known
    cases hc.symm.trans hc'
    obtain ⟨d, hd⟩ := Option.isSome_iff_exists.mp hcon
    have hpay : c.initialPayload? = some ⟨c.payloadType, d⟩ := by
      simp [ObjectClass.initialPayload?, hd]
    have hm := h.values e _ i c _ hsrc hi hc hpay
    have hm' := h'.values e _ j c _ hsrc hj (hreg ▸ hc) hpay
    rw [hlinked] at hm'
    -- Both copies merge one source into one blank instance along the same links.
    obtain ⟨v, hv⟩ := hfit.exists_value hc hp
    obtain ⟨w, hw⟩ := (h'.wellFormed.fits e j hj).exists_value (hreg ▸ hc) hp
    refine ⟨v, w, hv, hw, ?_⟩
    rcases hkind with hcopy | hdet
    · have hpc := ObjectClass.mem_copyable hp hcopy
      exact (hm.holds p hpc).sameContent (hm'.holds p hpc) hv hw
    · have heq : some v = some w := by
        rw [← hv, ← hw, hm.detached p hp hdet, hm'.detached p hp hdet]
      cases heq
      exact ParamValue.SameContent.refl v
  · rw [h'.pending, h.pending, hlinked, hlive]

/-- Copies of the same entities into an empty book agree, whatever the order and
    whether references are resolved after each copy or at the end. What waits are
    the links of copied entities to entities that were not copied. -/
theorem replicas_agree {b' : Book P} {l : List (Instance P)} (hsource : source.WellFormed)
    (hdest : dest.WellFormed) (hlaw : ∀ c ∈ source.registry.classes, c.IsLawful)
    (hr : dest.registry = source.registry) (hempty : ∀ e, dest.contains e = false)
    (hp : dest.pending = []) (hlive : ∀ i ∈ l, source.get? i.entity = some i)
    (hnodup : (l.map Instance.entity).Nodup) (hb : dest.IsReplica l b)
    (hb' : dest.IsReplica l b') :
    SameReplica b b' ∧
    ∀ e name t, (e, name, t) ∈ b.pending.map ReferenceRecord.link ↔
      source.HasLink (e, name, t) ∧ b.contains e = true ∧ b.contains t = false := by
  have h := Settled.of_isReplica hsource hdest hlaw hr hempty hp hlive hnodup hb
  have h' := Settled.of_isReplica hsource hdest hlaw hr hempty hp hlive hnodup hb'
  -- What waits are the links that cannot be made, and their sources are there.
  refine ⟨h.sameReplica h', fun e name t => ?_⟩
  rw [h.pending]
  constructor
  · rintro ⟨he, hl, hn⟩
    refine ⟨hl, he, ?_⟩
    cases ht : b.contains t with
    | false => rfl
    | true => exact absurd ⟨hl, he, ht⟩ hn
  · rintro ⟨hl, he, ht⟩
    refine ⟨he, hl, fun hm => ?_⟩
    rw [show b.contains t = true from hm.2.2] at ht
    cases ht

/-- Three nodes of a ring, copied one by one and in the reverse order all at once:
    the reference of the third one waits. -/
theorem ringNodes_agree :
    Bag.ring.WellFormed ∧ (Bag.emptyBook 2).WellFormed ∧
    (∀ c ∈ Bag.ring.registry.classes, c.IsLawful) ∧
    (Bag.emptyBook 2).registry = Bag.ring.registry ∧
    (∀ e, (Bag.emptyBook 2).contains e = false) ∧ (Bag.emptyBook 2).pending = [] ∧
    (∀ i ∈ Bag.ringNodes, Bag.ring.get? i.entity = some i) ∧
    (Bag.ringNodes.map Instance.entity).Nodup ∧
    SameReplica ((Bag.emptyBook 2).copyEach Bag.ringNodes)
      ((Bag.emptyBook 2).copyList Bag.ringNodes.reverse).2 ∧
    ((Bag.emptyBook 2).copyEach Bag.ringNodes).pending.map (·.link) =
      [(Bag.node 3, "next", Bag.node 4)] := by
  have hreg : Bag.ring.registry = Bag.nodes := rfl
  have hnodup : (Bag.ringNodes.map Instance.entity).Nodup := by decide
  refine ⟨Bag.wellFormed_ring, Bag.wellFormed_emptyBook 2, hreg ▸ Bag.isLawful_nodes, rfl,
    fun _ => rfl, rfl, Bag.get?_ringNodes, hnodup, ?_, by decide⟩
  exact (replicas_agree Bag.wellFormed_ring (Bag.wellFormed_emptyBook 2)
    (hreg ▸ Bag.isLawful_nodes) rfl (fun _ => rfl) rfl Bag.get?_ringNodes hnodup
    ⟨_, .refl _, Or.inl rfl⟩ ⟨_, List.reverse_perm _, Or.inr rfl⟩).1

end EntityBook.Book
