import EntityBook.Proofs.Copy.Resolution
import EntityBook.Proofs.Run.Invariant

/-! # Runs of copies

  Calls that make, remove and copy entities and that link what waits, as sequences of
  parts: `Exchange` lists the parts, and says of each copy which instance it takes. A
  property of such runs is proved of the parts. A call that copies gathers entities one
  by one and then resolves what waits, so what waits is what it queued and what waited
  before, as far as the source is live and the target is not.
-/

namespace EntityBook

variable {P : PayloadFamily}

/-! ### Calls -/

/-- Calls that make, remove and copy entities, and that resolve what waits. -/
def Call.isReplication : Call P → Bool
  | .create _ _ | .delete _ | .beginEdit _ | .commitEdit _ | .resolvePending
  | .copyEntity _ | .copyList _ | .copyCollection _
  | .copyRecursive _ _ | .copyCollectionRecursive _ _ => true
  | _ => false

/-- Calls that resolve what waits, at their end if they do more. -/
def Call.resolves : Call P → Bool
  | .resolvePending | .copyEntity _ | .copyList _ | .copyCollection _ | .copyRecursive _ _ => true
  | .copyCollectionRecursive source tag => (source.collection? tag).isSome
  | _ => false

theorem Call.isReplication_of_resolves {c : Call P} (h : c.resolves = true) :
    c.isReplication = true := by
  cases c with
  | resolvePending | copyEntity | copyList | copyCollection | copyRecursive
  | copyCollectionRecursive => rfl
  | _ => cases h

/-- The instances that a call is given to copy, or may find in the source it is given. -/
def Call.Copies : Call P → Instance P → Prop
  | .copyEntity source, i => i = source
  | .copyList sources, i | .copyCollection sources, i => i ∈ sources
  | .copyRecursive source _, i | .copyCollectionRecursive source _, i =>
    i ∈ source.instances.values
  | _, _ => False

namespace Book

/-! ### Parts of calls -/

/-- A part of a call that copies instances of a kind. -/
inductive Exchange (copied : Instance P → Prop) : Book P → Book P → Prop where
  | create (b : Book P) (tag : TypeTag) (guid : Guid) : Exchange copied b (b.create tag guid).2
  | delete (b : Book P) (e : Entity) : Exchange copied b (b.delete e).2
  | beginEdit (b : Book P) (e : Entity) : Exchange copied b (b.beginEdit e).2
  | commitEdit (b : Book P) (e : Entity) : Exchange copied b (b.commitEdit e).2
  | suspend (b : Book P) : Exchange copied b b.suspend
  | resume (b : Book P) : Exchange copied b b.resume
  | copyOne (b : Book P) {i : Instance P} (given : copied i) : Exchange copied b (b.copyOne i).2
  | resolvePending (b : Book P) : Exchange copied b b.resolvePending.2

/-- Any number of parts. -/
abbrev Exchanges (copied : Instance P → Prop) : Book P → Book P → Prop :=
  Relation.ReflTransGen (Exchange copied)

/-- A part of a call that copies, before it resolves what waits. -/
inductive Gather (copied : Instance P → Prop) : Book P → Book P → Prop where
  | suspend (b : Book P) : Gather copied b b.suspend
  | copyOne (b : Book P) {i : Instance P} (given : copied i) : Gather copied b (b.copyOne i).2

/-- Any number of such parts. -/
abbrev Gathers (copied : Instance P → Prop) : Book P → Book P → Prop :=
  Relation.ReflTransGen (Gather copied)

variable {copied : Instance P → Prop} {b b' : Book P}

theorem Exchange.steps (h : Exchange copied b b') : Steps b b' := by
  cases h with
  | create tag guid => exact .single (.create b tag guid)
  | delete e => exact (Acts.delete b e).steps
  | beginEdit e => exact .single (.beginEdit b e)
  | commitEdit e => exact .single (.commitEdit b e)
  | suspend => exact .single (.suspend b)
  | resume => exact .single (.resume b)
  | copyOne given => exact (Acts.copyOne b _).steps
  | resolvePending => exact (Acts.resolvePending b).steps

theorem Exchange.mono {copied' : Instance P → Prop} (h : Exchange copied b b')
    (hsub : ∀ i, copied i → copied' i) : Exchange copied' b b' := by
  cases h with
  | create tag guid => exact .create b tag guid
  | delete e => exact .delete b e
  | beginEdit e => exact .beginEdit b e
  | commitEdit e => exact .commitEdit b e
  | suspend => exact .suspend b
  | resume => exact .resume b
  | copyOne given => exact .copyOne b (hsub _ given)
  | resolvePending => exact .resolvePending b

theorem Exchanges.steps (h : Exchanges copied b b') : Steps b b' := by
  induction h with
  | refl => exact .refl
  | tail _ hpart ih => exact ih.trans hpart.steps

theorem Gathers.exchanges (h : Gathers copied b b') : Exchanges copied b b' := by
  refine Relation.ReflTransGen.mono (fun b _ hpart => ?_) _ _ h
  cases hpart with
  | suspend => exact .suspend b
  | copyOne given => exact .copyOne b given

namespace Gathers

/-- The book at a moment of a batch is gathered. -/
theorem foldl {ι : Type} {round : Batch P → ι → Batch P} (xs : List ι)
    (h : ∀ s, ∀ x ∈ xs, Gathers copied s.book (round s x).book) (s : Batch P) :
    Gathers copied s.book (xs.foldl round s).book := by
  induction xs generalizing s with
  | nil => exact .refl
  | cons x rest ih =>
    exact (h s x List.mem_cons_self).trans
      (ih (fun s y hy => h s y (List.mem_cons_of_mem x hy)) _)

theorem copies (b : Book P) (report : Report) {sources : List (Instance P)}
    (h : ∀ i ∈ sources, copied i) :
    Gathers copied b (sources.foldl Batch.copy { book := b.suspend, report }).book := by
  have hstart : Gathers copied b b.suspend := .single (.suspend b)
  exact hstart.trans (foldl sources (fun s i hi => .single (.copyOne s.book (h i hi)))
    { book := b.suspend, report })

theorem follow {source : Book P} (h : ∀ e i, source.get? e = some i → copied i) (s : Batch P)
    (e : Entity) : Gathers copied s.book (s.follow source e).book := by
  unfold Batch.follow
  split
  · exact .refl
  · split
    · next i hi => exact .single (.copyOne s.book (h e i hi))
    · exact .refl

theorem walk {source : Book P} (h : ∀ e i, source.get? e = some i → copied i) (hops : Nat)
    (seen frontier : List Entity) (s : Batch P) :
    Gathers copied s.book (s.walk source hops seen frontier).book := by
  induction hops generalizing seen frontier s with
  | zero => exact .refl
  | succ hops ih => exact (foldl _ (fun s e _ => follow h s e) s).trans (ih _ _ _)

end Gathers

/-- A part keeps what instances depend on, and does not touch the log. -/
theorem Exchange.setup (h : Exchange copied b b') (hb : b.WellFormed) :
    b.SameSetup b' ∧ b'.undo = b.undo := by
  have of_keeps {d : Book P} (hk : b.Keeps d) : b.SameSetup d ∧ d.undo = b.undo :=
    ⟨⟨hk.id, hk.registry, hk.config, hk.backend⟩, hk.undo⟩
  cases h with
  | create tag guid =>
    rcases create_cases b tag guid with heq | ⟨i, _, heq⟩
    · rw [heq]
      exact ⟨.refl b, rfl⟩
    · rw [heq]
      exact ⟨⟨rfl, rfl, rfl, rfl⟩, rfl⟩
  | delete e => exact of_keeps (.delete b e)
  | beginEdit e => exact of_keeps (.beginEdit b e)
  | commitEdit e => exact of_keeps (.commitEdit b e)
  | suspend => exact ⟨⟨rfl, rfl, rfl, rfl⟩, rfl⟩
  | resume => exact ⟨⟨rfl, rfl, rfl, rfl⟩, rfl⟩
  | @copyOne i given =>
    rcases copyOne_cases b i with ⟨hsame, _⟩ | ⟨_, hg, c, payload, hc, _, hp, hmade⟩
    · rw [hsame]
      exact ⟨.refl b, rfl⟩
    · have hrev := revises_transfer (c := c) (hb.adopt hg hc hp)
      rw [hmade]
      exact ⟨⟨hrev.id, hrev.registry, hrev.config, hrev.backend⟩, hrev.undo⟩
  | resolvePending =>
    have hrev := Revises.resolvePending hb
    exact ⟨.of_revises hrev, hrev.undo⟩

theorem Exchanges.setup (h : Exchanges copied b b') (hb : b.WellFormed) :
    b.SameSetup b' ∧ b'.undo = b.undo := by
  induction h with
  | refl => exact ⟨.refl b, rfl⟩
  | @tail d d' before hpart ih =>
    obtain ⟨hsetup, hundo⟩ := hpart.setup ((Exchanges.steps before).wellFormed hb)
    exact ⟨ih.1.trans hsetup, hundo.trans ih.2⟩

/-- Copies keep the identity of the book and its classes. -/
theorem Exchanges.surroundings (h : Exchanges copied b b') (hb : b.WellFormed) :
    b'.id = b.id ∧ b'.registry = b.registry :=
  ⟨(h.setup hb).1.id, (h.setup hb).1.registry⟩

/-! ### Calls as parts -/

/-- What a book holds stands among its instances. -/
theorem mem_values_of_get? {e : Entity} {i : Instance P} (h : b.get? e = some i) :
    i ∈ b.instances.values :=
  List.mem_map.mpr ⟨(e, i), OrderedMap.mem_of_findIn h, rfl⟩

theorem mem_values_of_collection? {tag : TypeTag} {l : List (Instance P)}
    (h : b.collection? tag = some l) {i : Instance P} (hi : i ∈ l) : i ∈ b.instances.values := by
  unfold collection? at h
  split at h
  · cases h
    obtain ⟨entry, hentry, rfl⟩ := List.mem_map.mp hi
    exact List.mem_map_of_mem (List.mem_filter.mp hentry).1
  · cases h

/-- A call that resolves what waits does it to the book that it has gathered. -/
theorem exists_resolution {c : Call P} (b : Book P) (hc : c.resolves = true) :
    ∃ b', Gathers c.Copies b b' ∧
      (b.call c = b'.resolvePending.2 ∨ b.call c = b'.resolvePending.2.resume) := by
  have held {source : Book P} : ∀ e i, source.get? e = some i → i ∈ source.instances.values :=
    fun _ _ => mem_values_of_get?
  cases c with
  | resolvePending => exact ⟨b, .refl, Or.inl rfl⟩
  | copyEntity source =>
    have hstart : Gathers (Call.copyEntity source).Copies b b.suspend := .single (.suspend b)
    exact ⟨_, hstart.tail (.copyOne _ rfl), Or.inr rfl⟩
  | copyList sources => exact ⟨_, .copies b {} fun i hi => hi, Or.inr rfl⟩
  | copyCollection sources => exact ⟨_, .copies b _ fun i hi => hi, Or.inr rfl⟩
  | copyRecursive source e =>
    have hstart : Gathers (Call.copyRecursive source e).Copies b b.suspend :=
      .single (.suspend b)
    refine ⟨_, .trans (hstart.trans ?_) (Gathers.walk held maxHops [e] [e] _), Or.inr rfl⟩
    split
    · next i hi => exact .single (.copyOne _ (mem_values_of_get? hi))
    · exact .refl
  | copyCollectionRecursive source tag =>
    obtain ⟨l, hl⟩ := Option.isSome_iff_exists.mp hc
    unfold Book.call copyCollectionRecursive
    simp only [hl]
    exact ⟨_, (Gathers.copies b _ fun i hi => mem_values_of_collection? hl hi).trans
      (Gathers.walk held maxHops _ _ _), Or.inr rfl⟩
  | _ => cases hc

/-- A replication call that resolves nothing leaves what waits as it was. -/
theorem pending_call_of_not_resolves {c : Call P} (b : Book P) (hc : c.isReplication = true)
    (hr : c.resolves = false) :
    Exchanges c.Copies b (b.call c) ∧ (b.call c).pending = b.pending := by
  cases c with
  | create tag guid =>
    exact ⟨.single (.create b tag guid), (create_surroundings b tag guid).2.2⟩
  | delete e => exact ⟨.single (.delete b e), (Keeps.delete b e).pending⟩
  | beginEdit e => exact ⟨.single (.beginEdit b e), (Keeps.beginEdit b e).pending⟩
  | commitEdit e => exact ⟨.single (.commitEdit b e), (Keeps.commitEdit b e).pending⟩
  | copyCollectionRecursive source tag =>
    have hnone : source.collection? tag = none := by simpa [Call.resolves] using hr
    have hcall : b.call (.copyCollectionRecursive source tag) = b := by
      show (b.copyCollectionRecursive source tag).2 = b
      unfold copyCollectionRecursive
      rw [hnone]
    rw [hcall]
    exact ⟨.refl, rfl⟩
  | resolvePending | copyEntity | copyList | copyCollection | copyRecursive => cases hr
  | _ => cases hc

theorem exchanges_call {c : Call P} (b : Book P) (hc : c.isReplication = true) :
    Exchanges c.Copies b (b.call c) := by
  cases hr : c.resolves with
  | false => exact (pending_call_of_not_resolves b hc hr).1
  | true =>
    obtain ⟨b', hparts, heq | heq⟩ := exists_resolution b hr
    · rw [heq]
      exact hparts.exchanges.tail (.resolvePending b')
    · rw [heq]
      exact (hparts.exchanges.tail (.resolvePending b')).tail (.resume _)

theorem exchanges_run {calls : List (Call P)} (b : Book P)
    (hcalls : ∀ c ∈ calls, c.isReplication = true) :
    Exchanges (fun i => ∃ c ∈ calls, c.Copies i) b (b.run calls) := by
  induction calls generalizing b with
  | nil => exact .refl
  | cons c rest ih =>
    have hfirst := exchanges_call b (hcalls c List.mem_cons_self)
    have hrest := ih (b.call c) fun d hd => hcalls d (List.mem_cons_of_mem c hd)
    refine .trans (Relation.ReflTransGen.mono (fun _ _ h => h.mono ?_) _ _ hfirst)
      (Relation.ReflTransGen.mono (fun _ _ h => h.mono ?_) _ _ hrest)
    · exact fun i hi => ⟨c, List.mem_cons_self, hi⟩
    · rintro i ⟨d, hd, hi⟩
      exact ⟨d, List.mem_cons_of_mem c hd, hi⟩

/-! ### What waits after a resolution -/

/-- No reference waits for its target under the name of an entity. -/
def NoneWaits (x : Entity) (b : Book P) : Prop := ∀ r ∈ b.pending, r.source ≠ x

/-- After a call that resolves, only live entities have references that wait. -/
theorem contains_source_of_resolves {c : Call P} (hb : b.WellFormed) (hc : c.resolves = true)
    {r : ReferenceRecord P} (hr : r ∈ (b.call c).pending) :
    (b.call c).contains r.source = true := by
  obtain ⟨b', hparts, hcall⟩ := exists_resolution b hc
  have hb' := hparts.exchanges.steps.wellFormed hb
  have hwaits : r ∈ b'.resolvePending.2.pending := by
    rcases hcall with heq | heq
    · exact heq ▸ hr
    · rw [heq] at hr
      exact hr
  have hlive : (b.call c).contains r.source = b'.contains r.source := by
    rw [← (Revises.resolvePending hb').contains_eq]
    rcases hcall with heq | heq <;> rw [heq]
    rfl
  rw [hlive]
  exact ((mem_link_resolvePending hb').mp (List.mem_map_of_mem hwaits)).2.1

end Book

end EntityBook
