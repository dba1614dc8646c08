import EntityBook.Proofs.Copy.Exchange
import EntityBook.Proofs.Copy.Fidelity
import Mathlib.Data.List.Induction

/-! # The order of members

  The members of a copied collection are linked as they arrive. Those that are there at
  the end of one call are linked in the order of the source, because they wait in that
  order; what arrives later is put behind them, wherever it stands in the source.

  `arrive` is what one call makes of a collection. A run of copies leaves the members in
  the order of the source exactly if at the end of each call those that are there are the
  first ones.
-/

namespace EntityBook

variable {P : PayloadFamily}

/-! ### Arrivals -/

section Arrive

variable {α : Type} [BEq α] [LawfulBEq α] {members held own : List α} {there before : α → Bool}

/-- A collection after those members were linked that are there. -/
def arrive (members : List α) (there : α → Bool) (held : List α) : List α :=
  held ++ members.filter fun x => there x && !held.contains x

theorem mem_arrive {x : α} :
    x ∈ arrive members there held ↔ x ∈ held ∨ (x ∈ members ∧ there x = true) := by
  unfold arrive
  rw [List.mem_append, List.mem_filter]
  by_cases hx : x ∈ held
  · simp [hx]
  · simp [hx]

/-- If all of the first members are there or were linked before, in front of the others,
    the rest comes behind them. -/
theorem arrive_append {first rest : List α} (hnodup : (first ++ rest).Nodup)
    (hheld : held <+: first) (hthere : ∀ x ∈ first, x ∉ held → there x = true) :
    arrive (first ++ rest) there held = first ++ rest.filter there := by
  obtain ⟨come, rfl⟩ := hheld
  obtain ⟨hfirst, _, hapart⟩ := List.nodup_append.mp hnodup
  have hold : held.filter (fun x => there x && !held.contains x) = [] := by
    refine List.filter_eq_nil_iff.mpr fun x hx => ?_
    simp [hx]
  have hcome : come.filter (fun x => there x && !held.contains x) = come := by
    refine List.filter_eq_self.mpr fun x hx => ?_
    have hnew : x ∉ held := fun h => (List.nodup_append.mp hfirst).2.2 x h x hx rfl
    simp [hnew, hthere x (List.mem_append_right _ hx) hnew]
  have hrest : rest.filter (fun x => there x && !held.contains x) = rest.filter there := by
    refine List.filter_congr fun x hx => ?_
    have hnew : x ∉ held := fun h => hapart x (List.mem_append_left _ h) x hx rfl
    simp [hnew]
  unfold arrive
  rw [List.filter_append, List.filter_append, hold, hcome, hrest, List.nil_append,
    List.append_assoc]

/-- Where the members so far are the first ones, it does not matter that they were there
    before. -/
theorem arrive_arrive (hnodup : members.Nodup)
    (hfirst : arrive members before own <+: members)
    (hmono : ∀ x ∈ members, before x = true → there x = true) :
    arrive members there (arrive members before own) = arrive members there own := by
  have hcame : ∀ x ∈ arrive members before own, x ∉ own → there x = true := by
    intro x hx hnew
    rcases mem_arrive.mp hx with h | ⟨hm, hbefore⟩
    · exact absurd h hnew
    · exact hmono x hm hbefore
  have hbehind : own <+: arrive members before own := List.prefix_append _ _
  obtain ⟨rest, hsplit⟩ := hfirst
  generalize arrive members before own = first at *
  subst hsplit
  rw [arrive_append hnodup List.prefix_rfl fun x hx hnew => absurd hx hnew,
    arrive_append hnodup hbehind hcame]

omit [BEq α] [LawfulBEq α] in
/-- First members that are all the members. -/
theorem eq_of_prefix_of_forall_mem (hnodup : members.Nodup) (hfirst : held <+: members)
    (hall : ∀ x ∈ members, x ∈ held) : held = members := by
  obtain ⟨rest, rfl⟩ := hfirst
  cases rest with
  | nil => exact (List.append_nil held).symm
  | cons x rest =>
    have hx := hall x (List.mem_append_right _ List.mem_cons_self)
    exact absurd rfl ((List.nodup_append.mp hnodup).2.2 x hx x List.mem_cons_self)

end Arrive

/-! ### The owner of a collection -/

/-- An instance whose class has a collection, and what the collection holds: `members` in
    the instance, each once and none of them null, and `own` in new instances. -/
structure Instance.Collects (i : Instance P) (c : ObjectClass P) (p : Param P)
    (element : TypeTag) (own members : List Guid) : Prop where
  lawful : c.IsLawful
  type : i.payload.type = c.payloadType
  copyable : p ∈ c.copyable
  accessor : ∃ f payload, p.accessor = .collection element f ∧
    c.initialPayload? = some payload ∧ f.read? payload = some own ∧
    f.read? i.payload = some members
  nodup : members.Nodup
  named : ∀ g ∈ members, g.isNull = false

section Collects

variable {i : Instance P} {c : ObjectClass P} {p : Param P} {element : TypeTag}
  {own members : List Guid}

/-- The entities that members stand for. -/
def memberEntities (element : TypeTag) (members : List Guid) : List Entity :=
  members.map fun g => ⟨element, g⟩

theorem nodup_memberEntities (h : members.Nodup) : (memberEntities element members).Nodup :=
  h.map fun _ _ heq => congrArg Entity.guid heq

theorem Instance.Collects.isReference (h : i.Collects c p element own members) :
    p.isReference = true := by
  obtain ⟨f, _, ha, _⟩ := h.accessor
  rw [Param.isReference, Param.kind, ha]
  rfl

theorem Instance.Collects.targets (h : i.Collects c p element own members) :
    i.targets p = memberEntities element members := by
  obtain ⟨f, _, ha, _, _, hread⟩ := h.accessor
  have hv : i.value? p.accessor = some (.collection members) := by
    rw [ha, Instance.value?, hread]
    rfl
  rw [Instance.targets_of_collection ha hv]
  refine List.filter_eq_self.mpr fun e he => ?_
  obtain ⟨g, hg, rfl⟩ := List.mem_map.mp he
  simp [h.named g hg]

/-- What a new instance of the class holds. -/
theorem Instance.Collects.value?_newborn (h : i.Collects c p element own members) {b : Book P}
    {payload : Payload P} (hp : c.initialPayload? = some payload) :
    (b.newborn i.entity payload).value? p.accessor = some (.collection own) := by
  obtain ⟨f, payload', ha, hp', hread, _⟩ := h.accessor
  cases hp.symm.trans hp'
  rw [ha]
  show (f.read? payload).map ParamValue.collection = _
  rw [hread]
  rfl

end Collects

namespace Book

/-! ### How far the collection has come -/

/-- The owner is not there, and nothing waits for it. -/
structure Lacks (e : Entity) (b : Book P) : Prop where
  gone : b.contains e = false
  none : NoneWaits e b

/-- The owner is there; its collection holds some members and waits for others. -/
structure Carries (i : Instance P) (c : ObjectClass P) (p : Param P) (held : List Guid)
    (waited : List Entity) (b : Book P) : Prop where
  value : ∃ copy, b.get? i.entity = some copy ∧
    copy.value? p.accessor = some (.collection held)
  waiting : targetsOf i.entity p.name b.pending = waited
  named : ∀ r ∈ b.pending, r.source = i.entity →
    r.param ∈ c.copyable ∧ r.param.isReference = true

section Gather

variable {copied : Instance P → Prop} {b b' : Book P} {i : Instance P} {c : ObjectClass P}
  {p : Param P} {element : TypeTag} {own members held : List Guid} {waited : List Entity}
  {before : Entity → Bool}

/-- The owner comes with the collection of a new instance, and waits for its members. -/
theorem Lacks.gather (h : Lacks i.entity b) (hb : b.WellFormed)
    (hc : b.registry.find? i.entity.typeTag = some c) (hi : i.Collects c p element own members)
    (hcopied : ∀ j, copied j → j.entity = i.entity → j = i) (hpart : Gather copied b b') :
    Lacks i.entity b' ∨ Carries i c p own (memberEntities element members) b' := by
  cases hpart with
  | suspend => exact Or.inl ⟨h.gone, h.none⟩
  | @copyOne j given =>
    rcases copyOne_cases b j with ⟨hsame, _⟩ | ⟨_, hg, d, payload, hd, _, hp, hmade⟩
    · rw [hsame]
      exact Or.inl h
    · rw [hmade]
      by_cases he : j.entity = i.entity
      · obtain rfl := hcopied j given he
        cases hc.symm.trans hd
        have hwf : c.WellFormed := hb.registry.of_find? hc
        have hdraft := drafted_transfer hb hi.lawful hg hc hp hi.type
        obtain ⟨copy, hcopy, hvalues⟩ := references_transfer (hb.adopt hg hc hp) hwf hi.lawful
        refine Or.inr ⟨⟨copy, hcopy, ?_⟩, ?_, fun r hr hsource => ?_⟩
        · rw [hvalues p hi.copyable hi.isReference, hi.value?_newborn hp]
        · show targetsOf j.entity p.name ((b.transfer j c payload).deferred.foldl addRecord
            (b.transfer j c payload).book.pending) = _
          rw [pending_transfer, targetsOf_foldl_addRecord,
            hdraft.targetsOf_deferred (ObjectClass.nodup_copyable hwf) hi.copyable,
            targetsOf_eq_nil h.none, hi.targets, foldl_appendNew]
          simp [eraseDups_eq_self (nodup_memberEntities hi.nodup)]
        · rcases mem_foldl_addRecord hr with hr | hr
          · rw [pending_transfer] at hr
            exact absurd hsource (h.none r hr)
          · obtain ⟨_, hparam, hpoints⟩ := mem_deferred_transfer hr
            exact ⟨hparam, Instance.isReference_of_pointsAt hpoints⟩
      · have hget : (b.transfer j d payload).book.get? i.entity = b.get? i.entity :=
          get?_transfer_of_ne (Ne.symm he)
        refine Or.inl ⟨(congrArg Option.isSome hget).trans h.gone, fun r hr hsource => ?_⟩
        rcases mem_foldl_addRecord hr with hr | hr
        · rw [pending_transfer] at hr
          exact h.none r hr hsource
        · exact he ((mem_deferred_transfer hr).1.symm.trans hsource)

/-- Other copies do not touch the collection. -/
theorem Carries.gather (h : Carries i c p held waited b) (hpart : Gather copied b b') :
    Carries i c p held waited b' := by
  cases hpart with
  | suspend => exact ⟨h.value, h.waiting, h.named⟩
  | @copyOne j given =>
    rcases copyOne_cases b j with ⟨hsame, _⟩ | ⟨hgone, _, d, payload, _, _, _, hmade⟩
    · rw [hsame]
      exact h
    · obtain ⟨copy, hcopy, hvalue⟩ := h.value
      have hne : i.entity ≠ j.entity := by
        intro he
        rw [← he, contains_of_some hcopy] at hgone
        cases hgone
      have hothers : ∀ r ∈ (b.transfer j d payload).deferred, r.source ≠ i.entity :=
        fun r hr hsource => hne (hsource.symm.trans (mem_deferred_transfer hr).1)
      rw [hmade]
      refine ⟨⟨copy, (get?_transfer_of_ne hne).trans hcopy, hvalue⟩, ?_, fun r hr hsource => ?_⟩
      · show targetsOf i.entity p.name ((b.transfer j d payload).deferred.foldl addRecord
          (b.transfer j d payload).book.pending) = _
        rw [pending_transfer, targetsOf_foldl_addRecord, targetsOf_eq_nil hothers]
        exact h.waiting
      · rcases mem_foldl_addRecord hr with hr | hr
        · rw [pending_transfer] at hr
          exact h.named r hr hsource
        · exact absurd hsource (hothers r hr)

theorem Carries.gathers (h : Carries i c p held waited b) (hparts : Gathers copied b b') :
    Carries i c p held waited b' := by
  induction hparts with
  | refl => exact h
  | tail _ hpart ih => exact ih.gather hpart

theorem Lacks.gathers (h : Lacks i.entity b) (hb : b.WellFormed)
    (hc : b.registry.find? i.entity.typeTag = some c) (hi : i.Collects c p element own members)
    (hcopied : ∀ j, copied j → j.entity = i.entity → j = i) (hparts : Gathers copied b b') :
    Lacks i.entity b' ∨ Carries i c p own (memberEntities element members) b' := by
  induction hparts with
  | refl => exact Or.inl h
  | tail before hpart ih =>
    have hbefore := Gathers.exchanges before
    rcases ih with ih | ih
    · exact ih.gather (hbefore.steps.wellFormed hb) ((hbefore.surroundings hb).2 ▸ hc) hi hcopied
        hpart
    · exact Or.inr (ih.gather hpart)

theorem contains_gathers (hparts : Gathers copied b b') {e : Entity} (h : b.contains e = true) :
    b'.contains e = true := by
  induction hparts with
  | refl => exact h
  | tail _ hpart ih =>
    cases hpart with
    | suspend => exact ih
    | @copyOne j given =>
      obtain ⟨k, hk⟩ := Option.isSome_iff_exists.mp ih
      exact contains_of_some ((adds_copyOne _ j).kept e k hk)

/-- What is there stays there in a call that copies. -/
theorem contains_call (hb : b.WellFormed) {d : Call P} (hd : d.resolves = true) {e : Entity}
    (h : b.contains e = true) : (b.call d).contains e = true := by
  obtain ⟨b', hparts, hend⟩ := exists_resolution b hd
  have hlive := (Revises.resolvePending (hparts.exchanges.steps.wellFormed hb)).contains_eq e
  rcases hend with heq | heq <;> rw [heq]
  · exact hlive.trans (contains_gathers hparts h)
  · exact hlive.trans (contains_gathers hparts h)

/-! ### Resolution -/

theorem Lacks.resolvePending (h : Lacks i.entity b) (hb : b.WellFormed) :
    Lacks i.entity b.resolvePending.2 := by
  refine ⟨((Revises.resolvePending hb).contains_eq _).trans h.gone, fun r hr => ?_⟩
  rw [pending_resolvePending hb] at hr
  rcases mem_foldl_addRecord hr with hr | hr
  · cases hr
  · exact h.none r (List.mem_filter.mp hr).1

/-- The members that are there are linked, in the order in which they have waited. -/
theorem Carries.resolvePending (h : Carries i c p held waited b) (hb : b.WellFormed)
    (hc : b.registry.find? i.entity.typeTag = some c) (hlaw : c.IsLawful) (hp : p ∈ c.copyable)
    (hwaited : waited.Nodup) :
    Carries i c p (((waited.filter b.contains).map Entity.guid).foldl appendNew held)
      (waited.filter fun t => !b.contains t) b.resolvePending.2 := by
  obtain ⟨copy, hcopy, hvalue⟩ := h.value
  have hlive : b.contains i.entity = true := contains_of_some hcopy
  obtain ⟨after, hafter, hvalues⟩ := exists_resolved hb hc hlaw h.named hcopy
  refine ⟨⟨after, hafter, ?_⟩, ?_, fun r hr hsource => ?_⟩
  · rw [hvalues p hp _ hvalue, h.waiting, ParamValue.foldl_linked_collection, List.foldl_map]
  · rw [pending_resolvePending hb, targetsOf_foldl_addRecord, targetsOf_filter_waiting _ hlive,
      h.waiting, foldl_appendNew]
    simp [targetsOf, eraseDups_eq_self (hwaited.filter _)]
  · rw [pending_resolvePending hb] at hr
    rcases mem_foldl_addRecord hr with hr | hr
    · cases hr
    · exact h.named r (List.mem_filter.mp hr).1 hsource

end Gather

/-! ### Calls -/

section Call

variable {b b' : Book P} {i : Instance P} {c : ObjectClass P} {p : Param P} {element : TypeTag}
  {own members held : List Guid} {before : Entity → Bool} {d : Call P}

/-- The owner waits for the members that are not there, and those that are there are
    linked. -/
structure Holds (i : Instance P) (c : ObjectClass P) (p : Param P) (element : TypeTag)
    (members held : List Guid) (b : Book P) : Prop extends
    Carries i c p held ((memberEntities element members).filter fun t => !b.contains t) b where
  linked : ∀ g ∈ members, b.contains ⟨element, g⟩ = true → g ∈ held

theorem Carries.contains {waited : List Entity} (h : Carries i c p held waited b) :
    b.contains i.entity = true := by
  obtain ⟨copy, hcopy, _⟩ := h.value
  exact contains_of_some hcopy

/-- The resolution at the end of a call links what is there, unless it was there before
    the call. -/
theorem Carries.resolved (h : Carries i c p held
      ((memberEntities element members).filter fun t => !before t) b) (hb : b.WellFormed)
    (hc : b.registry.find? i.entity.typeTag = some c) (hi : i.Collects c p element own members)
    (hbefore : ∀ g ∈ members, before ⟨element, g⟩ = true →
      b.contains ⟨element, g⟩ = true ∧ g ∈ held)
    (hb' : b' = b.resolvePending.2 ∨ b' = b.resolvePending.2.resume) :
    Holds i c p element members (arrive members (fun g => b'.contains ⟨element, g⟩) held) b' := by
  have hlive : b'.contains = b.contains := by
    funext e
    rcases hb' with rfl | rfl <;> exact (Revises.resolvePending hb).contains_eq e
  have hcarries := h.resolvePending hb hc hi.lawful hi.copyable
    ((nodup_memberEntities hi.nodup).filter _)
  have hlinked : (((((memberEntities element members).filter fun t => !before t).filter
      b.contains).map Entity.guid).foldl appendNew held) =
        arrive members (fun g => b.contains ⟨element, g⟩) held := by
    have hguids : ((((memberEntities element members).filter fun t => !before t).filter
        b.contains).map Entity.guid) =
          members.filter fun g => b.contains ⟨element, g⟩ && !before ⟨element, g⟩ := by
      unfold memberEntities
      rw [List.filter_filter, List.filter_map, List.map_map]
      exact List.map_id _
    rw [hguids, foldl_appendNew, List.filter_filter, eraseDups_eq_self (hi.nodup.filter _)]
    unfold arrive
    congr 1
    refine List.filter_congr fun g hg => ?_
    cases hwas : before ⟨element, g⟩ with
    | true => simp [(hbefore g hg hwas).2]
    | false => simp [Bool.and_comm]
  have hwaits : (((memberEntities element members).filter fun t => !before t).filter
      fun t => !b.contains t) = (memberEntities element members).filter fun t => !b.contains t := by
    rw [List.filter_filter]
    refine List.filter_congr fun t ht => ?_
    obtain ⟨g, hg, rfl⟩ := List.mem_map.mp ht
    cases hwas : before ⟨element, g⟩ with
    | true => simp [(hbefore g hg hwas).1]
    | false => simp
  rw [hlinked, hwaits, ← hlive] at hcarries
  refine ⟨?_, fun g hg hthere => mem_arrive.mpr (Or.inr ⟨hg, hthere⟩)⟩
  rcases hb' with rfl | rfl
  · exact hcarries
  · exact ⟨hcarries.value, hcarries.waiting, hcarries.named⟩

/-- A call puts the members behind the others that have arrived in it. -/
theorem Holds.call (h : Holds i c p element members held b) (hb : b.WellFormed)
    (hc : b.registry.find? i.entity.typeTag = some c) (hi : i.Collects c p element own members)
    (hcall : d.resolves = true) :
    Holds i c p element members
      (arrive members (fun g => (b.call d).contains ⟨element, g⟩) held) (b.call d) := by
  obtain ⟨b', hparts, hend⟩ := exists_resolution b hcall
  have hexchanges := hparts.exchanges
  exact (h.toCarries.gathers hparts).resolved (hexchanges.steps.wellFormed hb)
    ((hexchanges.surroundings hb).2 ▸ hc) hi
    (fun g hg hthere => ⟨contains_gathers hparts hthere, h.linked g hg hthere⟩) hend

/-- The call that brings the owner links the members that are there when it returns. -/
theorem Lacks.call (h : Lacks i.entity b) (hb : b.WellFormed)
    (hc : b.registry.find? i.entity.typeTag = some c) (hi : i.Collects c p element own members)
    (hcall : d.resolves = true) (hcopied : ∀ j, d.Copies j → j.entity = i.entity → j = i) :
    Lacks i.entity (b.call d) ∨ Holds i c p element members
      (arrive members (fun g => (b.call d).contains ⟨element, g⟩) own) (b.call d) := by
  obtain ⟨b', hparts, hend⟩ := exists_resolution b hcall
  have hexchanges := hparts.exchanges
  have hb' := hexchanges.steps.wellFormed hb
  rcases h.gathers hb hc hi hcopied hparts with h | h
  · have hresolved := h.resolvePending hb'
    refine Or.inl ?_
    rcases hend with heq | heq
    · exact heq ▸ hresolved
    · rw [heq]
      exact ⟨hresolved.gone, hresolved.none⟩
  · have hall : memberEntities element members =
        (memberEntities element members).filter fun _ => !false := by simp
    rw [hall] at h
    exact Or.inr (h.resolved hb' ((hexchanges.surroundings hb).2 ▸ hc) hi (fun _ _ h => nomatch h)
      hend)

end Call

/-! ### Runs -/

/-- If the owner is there, the members that are there are the first ones of the list, the
    members of a new instance before all others. -/
def FirstCome (e : Entity) (element : TypeTag) (own members : List Guid) (b : Book P) : Prop :=
  b.contains e = true → arrive members (fun g => b.contains ⟨element, g⟩) own <+: members

section Run

variable {b : Book P} {i : Instance P} {c : ObjectClass P} {p : Param P} {element : TypeTag}
  {own members held : List Guid} {calls : List (Call P)}

/-- What holds after every first part of a run with one call more. -/
theorem forall_run_append_singleton (holds : Book P → Prop) (b : Book P) (calls : List (Call P))
    (d : Call P) :
    (∀ n, holds (b.run ((calls ++ [d]).take n))) ↔
      (∀ n, holds (b.run (calls.take n))) ∧ holds ((b.run calls).call d) := by
  have hlast : b.run (calls ++ [d]) = (b.run calls).call d := by
    unfold run
    rw [List.foldl_append]
    rfl
  refine ⟨fun h => ⟨fun n => ?_, ?_⟩, fun h n => ?_⟩
  · have hn := h (min n calls.length)
    rwa [List.take_append_of_le_length (Nat.min_le_right _ _), ← List.take_eq_take_min] at hn
  · rw [← hlast, ← List.take_length (l := calls ++ [d])]
    exact h _
  · rcases Nat.lt_or_ge calls.length n with hn | hn
    · rw [List.take_of_length_le (by simp; omega), hlast]
      exact h.2
    · rw [List.take_append_of_le_length hn]
      exact h.1 n

/-- What a run of copies makes of a collection: as long as it is the first part of the
    source's, it is what one call would have made of it. -/
theorem members_run (hb : b.WellFormed) (hc : b.registry.find? i.entity.typeTag = some c)
    (hi : i.Collects c p element own members) (hstart : Lacks i.entity b)
    (hcalls : ∀ d ∈ calls, d.resolves = true)
    (hcopied : ∀ d ∈ calls, ∀ j, d.Copies j → j.entity = i.entity → j = i) :
    (Lacks i.entity (b.run calls) ∧ ∀ n, (b.run (calls.take n)).contains i.entity = false) ∨
    ∃ held, Holds i c p element members held (b.run calls) ∧
      (held <+: members ↔ ∀ n, (b.run (calls.take n)).FirstCome i.entity element own members) ∧
      (held <+: members →
        held = arrive members (fun g => (b.run calls).contains ⟨element, g⟩) own) := by
  induction calls using List.reverseRecOn with
  | nil =>
    refine Or.inl ⟨hstart, fun n => ?_⟩
    rw [List.take_nil]
    exact hstart.gone
  | append_singleton before d ih =>
    have hd := hcalls d (by simp)
    have ih := ih (fun d' hd' => hcalls d' (List.mem_append_left _ hd'))
      fun d' hd' => hcopied d' (List.mem_append_left _ hd')
    have hwell := (Steps.run b before).wellFormed hb
    have hknown : (b.run before).registry.find? i.entity.typeTag = some c := by
      have hparts := exchanges_run b fun d' hd' =>
        Call.isReplication_of_resolves (hcalls d' (List.mem_append_left _ hd'))
      exact (hparts.surroundings hb).2 ▸ hc
    rw [forall_run_append_singleton (FirstCome i.entity element own members),
      forall_run_append_singleton fun d => d.contains i.entity = false]
    have hlast : b.run (before ++ [d]) = (b.run before).call d := List.foldl_concat ..
    rw [hlast]
    rcases ih with ⟨hlacks, hnever⟩ | ⟨held, hholds, hiff, heq⟩
    · rcases hlacks.call hwell hknown hi hd (hcopied d (by simp)) with h | h
      · exact Or.inl ⟨h, hnever, h.gone⟩
      · refine Or.inr ⟨_, h, ⟨fun hfirst => ⟨fun n hthere => ?_, fun _ => hfirst⟩, fun hall => ?_⟩,
          fun _ => rfl⟩
        · rw [hnever n] at hthere
          cases hthere
        · exact hall.2 h.contains
    · have h := hholds.call hwell hknown hi hd
      -- What is linked now is behind what was linked before.
      have hbehind : held <+: arrive members
          (fun g => ((b.run before).call d).contains ⟨element, g⟩) held := List.prefix_append _ _
      have hone (hfirst : held <+: members) :
          arrive members (fun g => ((b.run before).call d).contains ⟨element, g⟩) held =
            arrive members (fun g => ((b.run before).call d).contains ⟨element, g⟩) own := by
        have hheld := heq hfirst
        rw [hheld] at hfirst
        rw [hheld]
        exact arrive_arrive hi.nodup hfirst fun g _ hthere => contains_call hwell hd hthere
      refine Or.inr ⟨_, h, ⟨fun hfirst => ?_, fun hall => ?_⟩,
        fun hfirst => hone (hbehind.trans hfirst)⟩
      · have hheld := hbehind.trans hfirst
        exact ⟨hiff.mp hheld, fun _ => hone hheld ▸ hfirst⟩
      · rw [hone (hiff.mpr hall.1)]
        exact hall.2 h.contains

/-- A run of copies into a book without the owner of a collection, which ends with the
    owner and all members there, leaves the members in the order of the source exactly if
    after each call those that are there are the first ones. -/
theorem collections_keep_order_iff (hb : b.WellFormed)
    (hc : b.registry.find? i.entity.typeTag = some c) (hi : i.Collects c p element own members)
    (hstart : Lacks i.entity b) (hcalls : ∀ d ∈ calls, d.resolves = true)
    (hcopied : ∀ d ∈ calls, ∀ j, d.Copies j → j.entity = i.entity → j = i)
    (howner : (b.run calls).contains i.entity = true)
    (hmembers : ∀ g ∈ members, (b.run calls).contains ⟨element, g⟩ = true) :
    (∃ copy, (b.run calls).get? i.entity = some copy ∧
        copy.value? p.accessor = some (.collection members)) ↔
      ∀ n, (b.run (calls.take n)).FirstCome i.entity element own members := by
  rcases members_run hb hc hi hstart hcalls hcopied with ⟨hlacks, _⟩ | ⟨held, h, hiff, _⟩
  · rw [hlacks.gone] at howner
    cases howner
  · obtain ⟨copy, hcopy, hvalue⟩ := h.value
    rw [← hiff]
    refine ⟨fun ⟨copy', hcopy', hvalue'⟩ => ?_, fun hfirst => ⟨copy, hcopy, ?_⟩⟩
    · cases hcopy.symm.trans hcopy'
      cases hvalue.symm.trans hvalue'
      exact List.prefix_rfl
    · have hheld : held = members :=
        eq_of_prefix_of_forall_mem hi.nodup hfirst fun g hg => h.linked g hg (hmembers g hg)
      rw [hvalue, hheld]

end Run

end Book

/-! ### A node with two parts -/

namespace Bag

/-- Three nodes, the first of which has the others as its parts. -/
def assembly : Book bags :=
  (emptyBook 1).run [.create "node" (node 1).guid, .create "node" (node 2).guid,
    .create "node" (node 3).guid,
    .write (node 1) "parts" (.collection [(node 2).guid, (node 3).guid])]

/-- The node that has parts. -/
def whole : Instance bags := (assembly.get? (node 1)).get (by decide +kernel)

/-- Its first part. -/
def left : Instance bags := (assembly.get? (node 2)).get (by decide +kernel)

/-- Its second part. -/
def right : Instance bags := (assembly.get? (node 3)).get (by decide +kernel)

/-- The column of the parts. -/
def partsColumn : Column :=
  { kind := .collection, element := "node", name := "parts", compartment := "parts" }

theorem collects_whole : whole.Collects nodeClass (partsColumn.param .alpha).val "node" []
    [(node 2).guid, (node 3).guid] where
  lawful := isLawful_nodes nodeClass List.mem_cons_self
  type := by decide +kernel
  copyable := by
    have hcolumn : partsColumn ∈ nodeColumns := by simp [nodeColumns, partsColumn]
    have hdeclared : partsColumn.param .alpha ∈ nodeClass.declared := List.mem_map_of_mem hcolumn
    exact ObjectClass.mem_copyable (List.mem_map_of_mem hdeclared) rfl
  accessor := ⟨_, _, rfl, rfl, rfl, by decide +kernel⟩
  nodup := by decide
  named := by decide

/-- The whole comes first, and then its parts, the second one before the first. -/
def delivery : List (Call bags) := [.copyEntity whole, .copyList [right, left]]

end Bag

/-- Parts that arrive in one call are linked in the order of the source, whatever order
    they come in. -/
theorem Book.delivery_in_order :
    (∀ n, ((Bag.emptyBook 2).run (Bag.delivery.take n)).FirstCome (Bag.node 1) "node" []
      [(Bag.node 2).guid, (Bag.node 3).guid]) ∧
    ∃ copy, ((Bag.emptyBook 2).run Bag.delivery).get? (Bag.node 1) = some copy ∧
      copy.value? (Bag.partsColumn.param .alpha).val.accessor =
        some (.collection [(Bag.node 2).guid, (Bag.node 3).guid]) := by
  have hwhole : Bag.whole.entity = Bag.node 1 := by decide +kernel
  have hparts : Bag.left.entity ≠ Bag.node 1 ∧ Bag.right.entity ≠ Bag.node 1 := by decide +kernel
  have hfirst : ∀ n, ((Bag.emptyBook 2).run (Bag.delivery.take n)).FirstCome Bag.whole.entity
      "node" [] [(Bag.node 2).guid, (Bag.node 3).guid] := by
    intro n
    rw [hwhole]
    unfold FirstCome
    match n with
    | 0 | 1 => decide +kernel
    | n + 2 =>
      rw [List.take_of_length_le (by simp [Bag.delivery])]
      decide +kernel
  have hcopied : ∀ d ∈ Bag.delivery, ∀ j, d.Copies j → j.entity = Bag.whole.entity →
      j = Bag.whole := by
    intro d hd j hj he
    simp only [Bag.delivery, List.mem_cons, List.not_mem_nil, or_false] at hd
    rcases hd with rfl | rfl
    · exact hj
    · rw [hwhole] at he
      simp only [Call.Copies, List.mem_cons, List.not_mem_nil, or_false] at hj
      rcases hj with rfl | rfl
      · exact absurd he hparts.2
      · exact absurd he hparts.1
  have hiff := collections_keep_order_iff (Bag.wellFormed_emptyBook 2)
    (by rw [hwhole]; rfl) Bag.collects_whole ⟨rfl, fun r hr => nomatch hr⟩
    (by simp [Bag.delivery, Call.resolves]) hcopied (by decide +kernel) (by decide +kernel)
  have hkept := hiff.mpr hfirst
  rw [hwhole] at hfirst hkept
  exact ⟨hfirst, hkept⟩

/-- Parts that arrive one by one are linked in the order of their arrival. -/
theorem Book.parts_in_order_of_arrival :
    Bag.assembly.read (Bag.node 1) "parts" =
      .ok (.collection [(Bag.node 2).guid, (Bag.node 3).guid]) ∧
    ((Bag.emptyBook 2).run [.copyEntity Bag.whole, .copyEntity Bag.right,
      .copyEntity Bag.left]).read (Bag.node 1) "parts" =
      .ok (.collection [(Bag.node 3).guid, (Bag.node 2).guid]) := by
  decide +kernel

end EntityBook
