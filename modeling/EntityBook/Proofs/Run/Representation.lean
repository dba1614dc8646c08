import EntityBook.Proofs.Copy.One
import EntityBook.Proofs.Payload.Bag
import EntityBook.Proofs.Run.Invariant
import EntityBook.Proofs.Undo.Recording

/-! # What the representation of a book guarantees

  In a reachable book every instance holds a payload of the type that its class was
  registered for. Hence no access to a registered parameter meets a payload of another
  type, a new instance always finds its place, and whatever is taken from a book can be
  made in another one unless that one's checks refuse it.
-/

namespace EntityBook

variable {P : PayloadFamily}

/-! ### Results without a mismatch -/

/-- A result that does not report a payload of another type. -/
def Matched {α : Type} (r : Except StoreError α) : Prop :=
  ∀ e name, r ≠ .error (.payloadMismatch e name)

namespace Matched

variable {α β : Type}

@[simp] theorem ok (a : α) : Matched (.ok a) := by
  intro e name h
  cases h

@[simp] theorem error_iff {err : StoreError} :
    Matched (.error err : Except StoreError α) ↔ ∀ e name, err ≠ .payloadMismatch e name := by
  simp [Matched]

theorem map {r : Except StoreError α} (h : Matched r) (f : α → β) : Matched (r.map f) := by
  cases r with
  | ok a => exact ok (f a)
  | error err =>
    intro e name heq
    exact h e name (congrArg Except.error (Except.error.inj heq))

theorem bind {r : Except StoreError α} {f : α → Except StoreError β} (h : Matched r)
    (hf : ∀ a, r = .ok a → Matched (f a)) : Matched (r >>= f) := by
  cases r with
  | ok a => exact hf a rfl
  | error err =>
    intro e name heq
    exact h e name (congrArg Except.error (Except.error.inj heq))

/-- A failure that is passed on stays what it is. -/
theorem of_eq {r : Except StoreError α} {err : StoreError} (h : Matched r)
    (hr : r = .error err) : Matched (.error err : Except StoreError β) := by
  rw [hr] at h
  simpa using h

end Matched

/-! ### One instance -/

namespace Instance

/-- No access to a parameter of an instance meets a payload of another type. -/
structure Serves (i : Instance P) (p : Param P) : Prop where
  read : Matched (i.read p)
  readText : Matched (i.readText p)
  write (v : ParamValue) : Matched (i.write p v)
  writeText (s : String) : Matched (i.writeText p s)
  references : Matched (i.references p)
  link (target : Entity) : Matched (i.link p target)
  snapshot : Matched (Book.snapshot i p)

section Serves

variable {i : Instance P} {p : Param P}

theorem matched_read (h : p.isFor i.payload.type = true) : Matched (i.read p) := by
  obtain ⟨v, hv⟩ := exists_value h
  simp [Instance.read, hv]

theorem matched_writeField {V : Type} {f : Field P V} (h : f.type = i.payload.type) (v : V) :
    Matched (i.writeField p f v) := by
  unfold writeField
  cases hs : f.set with
  | none => simp
  | some set =>
    cases hd : i.payload.as? f.type with
    | none => exact absurd h.symm (Payload.as?_eq_none_iff.mp hd)
    | some d => simp

theorem matched_write (h : p.isFor i.payload.type = true) (v : ParamValue) :
    Matched (i.write p v) := by
  unfold Param.isFor at h
  -- Every field that is written is one of the payload that the instance has.
  unfold write
  split
  · next hk =>
    split
    · exact matched_writeField (by simpa [hk, Accessor.payloadType?] using h) _
    · simp [unsupported]
  · simp
  · next hk => exact matched_writeField (by simpa [hk, Accessor.payloadType?] using h) _
  · next hk => exact matched_writeField (by simpa [hk, Accessor.payloadType?] using h) _
  · next hk => exact matched_writeField (by simpa [hk, Accessor.payloadType?] using h) _
  · simp
  · simp [unsupported]

theorem matched_writeText (h : p.isFor i.payload.type = true) (s : String) :
    Matched (i.writeText p s) := by
  unfold writeText
  split
  · simp
  · split
    · exact matched_write h _
    · simp

theorem matched_references (h : p.isFor i.payload.type = true) : Matched (i.references p) := by
  unfold Param.isFor at h
  unfold references
  dsimp only
  split
  · next f hk =>
    obtain ⟨g, hg⟩ := exists_read? (f := f) (by simpa [hk, Accessor.payloadType?] using h)
    simp [hg]
  · next f hk =>
    obtain ⟨g, hg⟩ := exists_read? (f := f) (by simpa [hk, Accessor.payloadType?] using h)
    simp [hg]
  · next f hk =>
    obtain ⟨g, hg⟩ := exists_read? (f := f) (by simpa [hk, Accessor.payloadType?] using h)
    simp [hg]
  · simp

theorem matched_link (h : p.isFor i.payload.type = true) (target : Entity) :
    Matched (i.link p target) := by
  unfold link
  split
  · exact matched_write h _
  · exact matched_write h _
  · next f hk =>
    unfold Param.isFor at h
    obtain ⟨g, hg⟩ := exists_read? (f := f) (by simpa [hk, Accessor.payloadType?] using h)
    simp only [hg]
    split
    · simp
    · exact matched_write (by unfold Param.isFor; exact h) _
  · simp [unsupported]

theorem matched_snapshot (h : p.isFor i.payload.type = true) : Matched (Book.snapshot i p) := by
  have hread : Matched (i.readText p) := (matched_read h).map _
  unfold Book.snapshot
  split
  · simp
  · split
    · simp
    · next hr =>
      exact hread.of_eq hr

/-- A parameter made for the payload of an instance is served. -/
theorem serves_of_isFor (h : p.isFor i.payload.type = true) : i.Serves p where
  read := matched_read h
  readText := (matched_read h).map _
  write := matched_write h
  writeText := matched_writeText h
  references := matched_references h
  link := matched_link h
  snapshot := matched_snapshot h

end Serves

/-- The registered parameters of an instance in its place are made for its payload. -/
theorem Fits.isFor {b : Book P} {e : Entity} {i : Instance P} (h : i.Fits b e)
    {c : ObjectClass P} (hc : b.registry.find? e.typeTag = some c) {p : Param P}
    (hp : p ∈ c.params) : p.isFor i.payload.type = true := by
  obtain ⟨d, hd, _, hpayload⟩ := h.known
  have hcd : c = d := Option.some.inj (hc.symm.trans hd)
  rw [hpayload, ← hcd]
  exact ObjectClass.isFor_of_mem_params hp

end Instance

namespace Book

/-! ### Access by name -/

/-- No access to a parameter by its name meets a payload of another type. -/
structure Serves (b : Book P) (e : Entity) (name : String) : Prop where
  read : Matched (b.read e name)
  readText : Matched (b.readText e name)
  write (v : ParamValue) : Matched (b.write e name v).1
  writeText (s : String) : Matched (b.writeText e name s).1
  modify (s : String) : Matched (b.modify e name s).1
  recordBefore : Matched (b.recordBefore e name).1
  recordAfter : Matched (b.recordAfter e name).1
  recordDelete : Matched (b.recordDelete e).1

section Access

variable {b : Book P} {e : Entity} {name : String}

theorem matched_class? (r : Registry P) (tag : TypeTag) : Matched (r.class? tag) := by
  unfold Registry.class?
  split
  · simp
  · simp

theorem matched_param? (b : Book P) (e : Entity) (name : String) :
    Matched (b.param? e name) := by
  unfold param? Registry.param?
  have hclass := matched_class? b.registry e.typeTag
  split
  · next hc =>
    exact hclass.of_eq hc
  · split
    · simp
    · simp

theorem matched_instance? (b : Book P) (e : Entity) : Matched (b.instance? e) := by
  unfold instance?
  split
  · simp
  · simp

theorem get?_of_instance? {i : Instance P} (h : b.instance? e = .ok i) : b.get? e = some i := by
  unfold instance? at h
  split at h
  · next hi => exact hi.trans (congrArg some (Except.ok.inj h))
  · cases h

/-- A parameter that a name stands for is made for the payload of the live instance. -/
theorem WellFormed.isFor (hb : b.WellFormed) {p : Param P} (hp : b.param? e name = .ok p)
    {i : Instance P} (hi : b.get? e = some i) : p.isFor i.payload.type = true := by
  obtain ⟨c, hc, hname⟩ := Registry.param?_eq_ok.mp hp
  exact (hb.fits e i hi).isFor hc (ObjectClass.mem_of_param? hname)

/-- Closing an edit does not look at payloads. -/
theorem matched_commitEdit (b : Book P) (e : Entity) : Matched (b.commitEdit e).1 := by
  have hcommits := b.commits e
  generalize b.commitEdit e = out at hcommits ⊢
  cases hcommits with
  | missing | idle | inner | removed => simp
  | settled =>
    unfold settle
    dsimp only
    split
    · simp
    · simp

theorem matched_join {α : Type} {r : Except StoreError α} {verdict : Except StoreError Unit}
    (hr : Matched r) (hv : Matched verdict) : Matched (EditOutcome.done r verdict).join := by
  cases verdict with
  | ok _ => exact hr
  | error err => exact hv.of_eq rfl

/-- An edit reports what its change reports, or what became of the commit. -/
theorem matched_edit {α : Type} {change : Instance P → Except StoreError (α × Instance P)}
    (h : ∀ i, b.get? e = some i → Matched (change i.enter)) :
    Matched (b.edit e (attempt change)).1.join := by
  unfold edit
  cases hi : b.get? e with
  | none => simp [EditOutcome.join]
  | some i =>
    refine matched_join ?_ (matched_commitEdit _ e)
    have hchange := h i hi
    cases hr : change i.enter with
    | error err =>
      rw [attempt_of_error hr]
      exact hchange.of_eq hr
    | ok r =>
      rw [attempt_of_ok hr]
      simp

theorem matched_tryEdit {change : Instance P → Except StoreError (Instance P)}
    (h : ∀ i, b.get? e = some i → Matched (change i.enter)) : Matched (b.tryEdit e change).1 := by
  show Matched (b.edit e (attempt fun i => (change i).map fun i => ((), i))).1.join
  exact matched_edit fun i hi => (h i hi).map _

theorem matched_read (hb : b.WellFormed) (e : Entity) (name : String) :
    Matched (b.read e name) := by
  refine (matched_param? b e name).bind fun p hp => ?_
  refine (matched_instance? b e).bind fun i hi => ?_
  exact Instance.matched_read (hb.isFor hp (get?_of_instance? hi))

theorem matched_readText (hb : b.WellFormed) (e : Entity) (name : String) :
    Matched (b.readText e name) := by
  refine (matched_param? b e name).bind fun p hp => ?_
  refine (matched_instance? b e).bind fun i hi => ?_
  exact (Instance.matched_read (hb.isFor hp (get?_of_instance? hi))).map _

theorem matched_write (hb : b.WellFormed) (e : Entity) (name : String) (v : ParamValue) :
    Matched (b.write e name v).1 := by
  have hparam := matched_param? b e name
  unfold write
  split
  · next hp =>
    exact hparam.of_eq hp
  · next p hp =>
    refine matched_tryEdit fun i hi => ?_
    have hfor := hb.isFor hp hi
    exact Instance.matched_write (i := i.enter) hfor v

theorem matched_writeText (hb : b.WellFormed) (e : Entity) (name s : String) :
    Matched (b.writeText e name s).1 := by
  have hparam := matched_param? b e name
  unfold writeText
  split
  · next hp =>
    exact hparam.of_eq hp
  · next p hp =>
    refine matched_tryEdit fun i hi => ?_
    have hfor := hb.isFor hp hi
    exact Instance.matched_writeText (i := i.enter) hfor s

/-! ### Recording -/

theorem matched_undoableParam (b : Book P) (e : Entity) (name : String) :
    Matched (b.undoableParam e name) := by
  have hparam := matched_param? b e name
  unfold undoableParam
  split
  · next hp =>
    exact hparam.of_eq hp
  · split
    · simp
    · simp

/-- The same of a parameter that undo can restore. -/
theorem WellFormed.isFor_undoable (hb : b.WellFormed) {p : Param P}
    (hp : b.undoableParam e name = .ok p) {i : Instance P} (hi : b.get? e = some i) :
    p.isFor i.payload.type = true := by
  obtain ⟨c, hc, hmem, _⟩ := undoableParam_eq_ok.mp hp
  exact (hb.fits e i hi).isFor hc (ObjectClass.mem_params_of_mem_copyable hmem)

theorem matched_snapshots {i : Instance P} (after : Capture → Capture) {ps : List (Param P)}
    (h : ∀ p ∈ ps, Matched (snapshot i p)) : Matched (snapshots e i after ps) := by
  induction ps with
  | nil => simp [snapshots]
  | cons p rest ih =>
    have hp := h p List.mem_cons_self
    have hrest := ih fun q hq => h q (List.mem_cons_of_mem _ hq)
    unfold snapshots
    split
    · next hs =>
      exact hp.of_eq hs
    · split
      · next hs =>
        exact hrest.of_eq hs
      · simp

/-- All parameters of an instance's class can be seen. -/
theorem matched_snapshots_copyable (hb : b.WellFormed) (after : Capture → Capture)
    {c : ObjectClass P} (hc : b.registry.class? e.typeTag = .ok c) {i : Instance P}
    (hi : b.get? e = some i) : Matched (snapshots e i after c.copyable) := by
  refine matched_snapshots after fun p hp => Instance.matched_snapshot ?_
  have hfit := hb.fits e i hi
  exact hfit.isFor (Registry.class?_eq_ok.mp hc) (ObjectClass.mem_params_of_mem_copyable hp)

theorem matched_recordDelete (hb : b.WellFormed) (e : Entity) :
    Matched (b.recordDelete e).1 := by
  have hrecords := b.recordsDelete e
  generalize b.recordDelete e = out at hrecords
  cases hrecords with
  | idle | gone | recorded => simp
  | unknown unknown => exact (matched_class? b.registry e.typeTag).of_eq unknown
  | unread known live unseen => exact (matched_snapshots_copyable hb _ known live).of_eq unseen

theorem matched_ensureBaseline (hb : b.WellFormed) (o : OpenOperation P) (e : Entity) :
    Matched (b.ensureBaseline o e) := by
  have henrolls := b.enrolls o e
  generalize b.ensureBaseline o e = r at henrolls
  cases henrolls with
  | present | gone | added => simp
  | unknown unknown => exact (matched_class? b.registry e.typeTag).of_eq unknown
  | unread known live unseen => exact (matched_snapshots_copyable hb _ known live).of_eq unseen

theorem matched_recordBefore (hb : b.WellFormed) (e : Entity) (name : String) :
    Matched (b.recordBefore e name).1 := by
  have hrecords := b.recordsBefore e name
  generalize b.recordBefore e name = out at hrecords
  cases hrecords with
  | idle | again | gone | first => simp
  | unknown unknown => exact (matched_undoableParam b e name).of_eq unknown
  | unprepared unprepared => exact (matched_ensureBaseline hb _ e).of_eq unprepared
  | unread ready live unseen =>
    have hseen := Instance.matched_snapshot (hb.isFor_undoable ready.param live)
    exact (matched_snapshots _ (List.forall_mem_singleton.mpr hseen)).of_eq unseen

theorem matched_recordAfter (hb : b.WellFormed) (e : Entity) (name : String) :
    Matched (b.recordAfter e name).1 := by
  have hrecords := b.recordsAfter e name
  generalize b.recordAfter e name = out at hrecords
  cases hrecords with
  | idle | filled | gone | unannounced => simp
  | unknown unknown => exact (matched_undoableParam b e name).of_eq unknown
  | unprepared unprepared => exact (matched_ensureBaseline hb _ e).of_eq unprepared
  | unread ready live unseen =>
    exact (Instance.matched_snapshot (hb.isFor_undoable ready.param live)).of_eq unseen

theorem matched_modify (hb : b.WellFormed) (e : Entity) (name s : String) :
    Matched (b.modify e name s).1 := by
  have hkept := (Acts.recordBefore b e name).steps.wellFormed hb
  have hmodifies := b.modifies e name s
  generalize b.modify e name s = out at hmodifies
  cases hmodifies with
  | unrecorded before => exact (matched_recordBefore hb e name).of_eq before
  | unwritten _ write => exact (matched_writeText hkept e name s).of_eq write
  | written =>
    exact matched_recordAfter ((Acts.writeText _ e name s).steps.wellFormed hkept) e name

/-- In a well-formed book every access by name is served. -/
theorem WellFormed.serves (hb : b.WellFormed) (e : Entity) (name : String) : b.Serves e name where
  read := matched_read hb e name
  readText := matched_readText hb e name
  write := matched_write hb e name
  writeText := matched_writeText hb e name
  modify := matched_modify hb e name
  recordBefore := matched_recordBefore hb e name
  recordAfter := matched_recordAfter hb e name
  recordDelete := matched_recordDelete hb e

end Access

/-! ### Creation -/

/-- An instance that passed the checks always goes into the collection of its type, so
    creation fails only where it has changed nothing yet. -/
structure Admits (b : Book P) : Prop where
  inserts (tag : TypeTag) (g : Guid) (c : ObjectClass P) (payload : Payload P) :
    b.registry.class? tag = .ok c → b.contains ⟨c.typeTag, g⟩ = false →
    insert? { b with opened := insertTag c.typeTag b.opened }
      (b.newborn ⟨c.typeTag, g⟩ payload) ≠ none
  present (tag : TypeTag) (g : Guid) (e : Entity) :
    (b.create tag g).1 = .error (.alreadyPresent e) → e = ⟨tag, g⟩ ∧ b.contains e = true
  unchanged (tag : TypeTag) (g : Guid) (err : StoreError) :
    (b.create tag g).1 = .error err → (b.create tag g).2 = b

theorem create_eq_alreadyPresent {b : Book P} {tag : TypeTag} {g : Guid} {e : Entity}
    (h : (b.create tag g).1 = .error (.alreadyPresent e)) :
    e = ⟨tag, g⟩ ∧ b.contains e = true := by
  have hcreates := b.creates tag g
  generalize b.create tag g = out at hcreates h
  cases hcreates with
  | present live =>
    cases h
    exact ⟨rfl, live⟩
  | unnamed | unknown | unmade | created => cases h

theorem admits (b : Book P) : b.Admits where
  inserts tag g c payload _ hn := by
    rw [insert?_opened (i := b.newborn ⟨c.typeTag, g⟩ payload) hn]
    simp
  present tag g e h := create_eq_alreadyPresent h
  unchanged tag g err h := create_eq_error (Prod.ext h rfl)

end Book

/-! ### Copies -/

/-- Whether a copy failed because the entity could not be made. -/
def CopyError.isConstruct : CopyError → Bool
  | construct _ _ => true
  | _ => false

/-- Every entity of a call that was not copied was refused before it was made. -/
def Report.AllMade (r : Report) : Prop := ∀ x ∈ r.failed, x.2.isConstruct = false

theorem Report.AllMade.record {r : Report} (h : r.AllMade) (e : Entity)
    {result : Except CopyError Entity}
    (hr : ∀ err, result = .error err → err.isConstruct = false) : (r.record e result).AllMade := by
  unfold Report.record
  split
  · exact h
  · exact h
  · next err _ =>
    intro x hx
    rcases List.mem_append.mp hx with hx | hx
    · exact h x hx
    · rw [List.mem_singleton.mp hx]
      exact hr err rfl

namespace Book

/-- An instance that some book of a program holds. -/
def Taken (i : Instance P) : Prop := ∃ b : Book P, b.Reachable ∧ ∃ e, b.get? e = some i

theorem Taken.guid {i : Instance P} (h : Taken i) : i.entity.guid.isNull = false := by
  obtain ⟨b, hb, e, hi⟩ := h
  have hfit := hb.wellFormed.fits e i hi
  rw [hfit.entity]
  exact hfit.guid

/-- The class is checked before the entity is made, and its guid is not null. -/
theorem copyOne_made (dest : Book P) {i : Instance P} (h : Taken i) (err : CopyError)
    (herr : (dest.copyOne i).1 = .error err) : err.isConstruct = false := by
  cases hin : dest.contains i.entity with
  | true =>
    rw [copyOne_of_contains hin] at herr
    exact Except.error.inj herr ▸ rfl
  | false =>
    by_cases ha : dest.Accepts i.entity.typeTag
    · obtain ⟨c, hc, hcomp⟩ := ha
      obtain ⟨payload, hp⟩ := exists_initialPayload hcomp
      rw [copyOne_of_accepts hin h.guid hc hcomp hp] at herr
      dsimp only at herr
      split at herr
      · exact Except.error.inj herr ▸ rfl
      · cases herr
    · obtain ⟨reason, _, hr⟩ := copyOne_of_not_accepts hin ha
      rw [hr] at herr
      exact Except.error.inj herr ▸ rfl

theorem Batch.allMade_copy {s : Batch P} (hs : s.report.AllMade) {i : Instance P} (h : Taken i) :
    (s.copy i).report.AllMade :=
  hs.record i.entity (copyOne_made s.book h)

theorem Batch.allMade_copies {s : Batch P} (hs : s.report.AllMade) {sources : List (Instance P)}
    (h : ∀ i ∈ sources, Taken i) : (sources.foldl Batch.copy s).report.AllMade :=
  List.foldlRecOn (motive := fun s => s.report.AllMade) sources Batch.copy hs
    fun _ hs i hi => allMade_copy hs (h i hi)

section Walk

variable {source : Book P}

theorem Batch.allMade_follow (hsource : source.Reachable) {s : Batch P} (hs : s.report.AllMade)
    (e : Entity) : (s.follow source e).report.AllMade := by
  unfold Batch.follow
  split
  · exact hs
  · split
    · next i hi => exact allMade_copy hs ⟨source, hsource, e, hi⟩
    · exact hs

theorem Batch.allMade_walk (hsource : source.Reachable) (hops : Nat) (seen frontier : List Entity)
    {s : Batch P} (hs : s.report.AllMade) :
    (s.walk source hops seen frontier).report.AllMade := by
  induction hops generalizing seen frontier s with
  | zero => exact hs
  | succ hops ih =>
    refine ih _ _ ?_
    exact List.foldlRecOn (motive := fun s => s.report.AllMade) _ (Batch.follow source) hs
      fun _ hs e _ => allMade_follow hsource hs e

end Walk

/-- Whatever is taken from books can be made in another one, unless that one's checks
    refuse it first. -/
structure Exports (b : Book P) : Prop where
  entity (dest : Book P) (e : Entity) (i : Instance P) (err : CopyError) :
    b.get? e = some i → (dest.copyEntity i).1 = .error err → err.isConstruct = false
  list (dest : Book P) (sources : List (Instance P)) :
    (∀ i ∈ sources, Taken i) → (dest.copyList sources).1.AllMade
  collection (dest : Book P) (sources : List (Instance P)) :
    (∀ i ∈ sources, Taken i) → (dest.copyCollection sources).1.AllMade
  closure (dest : Book P) (e : Entity) : (dest.copyRecursive b e).1.AllMade
  closures (dest : Book P) (tag : TypeTag) : (dest.copyCollectionRecursive b tag).1.AllMade

theorem allMade_empty (n : Nat) : ({ duplicates := n } : Report).AllMade := by
  intro x hx
  cases hx

theorem Reachable.exports {b : Book P} (h : b.Reachable) : b.Exports where
  entity dest e i err hi herr := copyOne_made dest.suspend ⟨b, h, e, hi⟩ err herr
  list dest sources hs := Batch.allMade_copies (allMade_empty 0) hs
  collection dest sources hs := Batch.allMade_copies (allMade_empty _) hs
  closure dest e := by
    unfold copyRecursive
    refine Batch.allMade_walk h _ _ _ ?_
    split
    · next i hi => exact Batch.allMade_copy (allMade_empty 0) ⟨b, h, e, hi⟩
    · exact (allMade_empty 0).record e fun err herr => by
        rw [← Except.error.inj herr]
        rfl
  closures dest tag := by
    unfold copyCollectionRecursive
    split
    · exact allMade_empty 0
    · next sources hs =>
      refine Batch.allMade_walk h _ _ _ (Batch.allMade_copies (allMade_empty _) fun i hi => ?_)
      exact ⟨b, h, i.entity, ((mem_collection? h.wellFormed hs).mp hi).1⟩

/-! ### Reachable books -/

/-- Every live instance of a reachable book stands under its own entity, which is not
    null, belongs to the book, holds a payload of its registered class, which has a
    constructor, and is being edited if it is to be deleted. So no access to a registered
    parameter finds a payload of another type, a new instance always goes in, a creation
    that fails changes nothing, and copies never fail to make what they take from a book. -/
theorem representation_is_sound {b : Book P} (h : b.Reachable) :
    (∀ e i, b.get? e = some i → i.Fits b e ∧
      ∀ c, b.registry.find? e.typeTag = some c → ∀ p ∈ c.params, i.Serves p) ∧
    (∀ e name, b.Serves e name) ∧ b.Admits ∧ b.Exports := by
  have hb := h.wellFormed
  refine ⟨fun e i hi => ?_, hb.serves, b.admits, h.exports⟩
  have hfit := hb.fits e i hi
  exact ⟨hfit, fun c hc p hp => Instance.serves_of_isFor (hfit.isFor hc hp)⟩

end Book

/-! ### A node that is to be deleted -/

/-- A book in which a node was deleted while it is being edited. -/
def Bag.condemned : Book bags :=
  (Book.blank ⟨1⟩ nodes {}).run
    [.create "node" (node 1).guid, .beginEdit (node 1), .writeText (node 1) "label" "a",
      .delete (node 1)]

theorem Book.condemned_node_is_sound :
    (∃ i, Bag.condemned.get? (Bag.node 1) = some i ∧ i.deleting = true ∧
      i.Fits Bag.condemned (Bag.node 1) ∧ ∀ p ∈ Bag.nodeClass.params, i.Serves p) ∧
    (Bag.condemned.create "node" (Bag.node 1).guid).2 = Bag.condemned ∧
    ((Bag.emptyBook 2).copyRecursive Bag.condemned (Bag.node 1)).1.AllMade := by
  have hreach : Bag.condemned.Reachable :=
    (Reachable.blank ⟨1⟩ {} Bag.wellFormed_nodes).run _
  obtain ⟨hfits, _, hadmits, hexports⟩ := representation_is_sound hreach
  have hlive : (Bag.condemned.get? (Bag.node 1)).map Instance.deleting = some true := by decide
  obtain ⟨i, hi, hdeleting⟩ := Option.map_eq_some_iff.mp hlive
  have hclass : Bag.condemned.registry.find? (Bag.node 1).typeTag = some Bag.nodeClass := by rfl
  have hpresent : (Bag.condemned.create "node" (Bag.node 1).guid).1 =
      .error (.alreadyPresent (Bag.node 1)) := by decide
  exact ⟨⟨i, hi, hdeleting, (hfits _ i hi).1, (hfits _ i hi).2 _ hclass⟩,
    hadmits.unchanged _ _ _ hpresent, hexports.closure (Bag.emptyBook 2) (Bag.node 1)⟩

end EntityBook
