import EntityBook.Proofs.Instance.Same
import EntityBook.Proofs.Run.Call

/-! # Invariants of reachable books

  What a step does is said once, and from it what no step breaks: a reachable book
  is well-formed, and its bus holds no event back unless it is suspended.
-/

namespace EntityBook

variable {P : PayloadFamily}

namespace Book

/-! ### What a step does -/

/-- Creation adds an instance or does nothing. -/
theorem create_cases (b : Book P) (tag : TypeTag) (g : Guid) :
    (b.create tag g).2 = b ∨
      ∃ i, b.get? i.entity = none ∧ (b.create tag g).2 = b.adopt i := by
  cases hc : b.create tag g with
  | mk r b' =>
    cases r with
    | error err => exact Or.inl (create_eq_error hc)
    | ok e =>
      obtain ⟨rfl, _, hn, c, payload, _, _, rfl⟩ := create_eq_ok.mp hc
      exact Or.inr ⟨b.newborn ⟨tag, g⟩ payload, by simpa [contains] using hn, rfl⟩

/-- Creation does not concern the surroundings of the instances. -/
theorem create_surroundings (b : Book P) (tag : TypeTag) (g : Guid) :
    (b.create tag g).2.id = b.id ∧ (b.create tag g).2.registry = b.registry ∧
      (b.create tag g).2.pending = b.pending := by
  rcases create_cases b tag g with heq | ⟨i, _, heq⟩
  · rw [heq]
    exact ⟨rfl, rfl, rfl⟩
  · rw [heq]
    exact ⟨rfl, rfl, rfl⟩

theorem get?_create_of_some {b : Book P} {e : Entity} {i : Instance P} (h : b.get? e = some i)
    (tag : TypeTag) (g : Guid) : (b.create tag g).2.get? e = some i := by
  rcases create_cases b tag g with heq | ⟨j, hnone, heq⟩
  · rw [heq]
    exact h
  · have hne : e ≠ j.entity := fun he => by simp [← he, h] at hnone
    rw [heq, get?_adopt_of_ne b hne]
    exact h

/-- What settling leaves, by the verdict of the backend. -/
def settledAs (b : Book P) (e : Entity) (i : Instance P) (accepted : Bool) : Book P :=
  let b := b.hear (.commit i accepted)
  let b := if accepted then b.put e i.markClean else b
  if i.dirty then (b.markDirty).emit (.modified e) else b

theorem settle_snd (b : Book P) (e : Entity) (i : Instance P) :
    ∃ accepted, (b.settle e i).2 = b.settledAs e i accepted := by
  refine ⟨(b.backend.refusal b.calls i).isNone, ?_⟩
  unfold settle settledAs
  dsimp only
  cases b.backend.refusal b.calls i <;> rfl

theorem get?_settledAs_self {b : Book P} {e : Entity} {i : Instance P} (h : b.get? e = some i)
    (accepted : Bool) :
    ∃ j, (b.settledAs e i accepted).get? e = some j ∧ j.markClean = i.markClean := by
  unfold settledAs
  cases accepted with
  | true => cases i.dirty <;> exact ⟨i.markClean, get?_put_self _ e _, rfl⟩
  | false => cases i.dirty <;> exact ⟨i, h, rfl⟩

theorem get?_settledAs_of_ne (b : Book P) {e e' : Entity} (h : e' ≠ e) (i : Instance P)
    (accepted : Bool) : (b.settledAs e i accepted).get? e' = b.get? e' := by
  unfold settledAs
  cases accepted <;> cases i.dirty <;> first
    | rfl
    | exact get?_put_of_ne _ h _

/-- The ways in which closing an edit can go. -/
inductive Closed (b : Book P) (e : Entity) : Book P → Prop where
  /-- The entity is not live, or nobody edits it. -/
  | refused : Closed b e b
  /-- Another edit is still open. -/
  | inner {i : Instance P} (live : b.get? e = some i) (level : 1 < i.level) :
    Closed b e (b.put e i.leave)
  | removed {i : Instance P} (live : b.get? e = some i) (level : i.level = 1)
    (deleting : i.deleting = true) :
    Closed b e (((b.put e i.leave).remove e).markDirty.emit (.destroyed e))
  | settled {i : Instance P} (live : b.get? e = some i) (level : i.level = 1)
    (kept : i.deleting = false) (accepted : Bool) :
    Closed b e ((b.put e i.leave).settledAs e i.leave accepted)

theorem closed_commitEdit (b : Book P) (e : Entity) : b.Closed e (b.commitEdit e).2 := by
  have hcommits := b.commits e
  generalize b.commitEdit e = out at hcommits ⊢
  cases hcommits with
  | missing | idle => exact .refused
  | inner live level => exact .inner live level
  | removed live level deleting => exact .removed live level deleting
  | @settled i live level kept =>
    obtain ⟨accepted, h⟩ := settle_snd (b.put e i.leave) e i.leave
    rw [h]
    exact .settled live level kept accepted

/-- What is left of an entity holds what it held. -/
def Retains (x : Entity) (b b' : Book P) : Prop :=
  ∀ j, b'.get? x = some j → ∃ i, b.get? x = some i ∧ i.Same j

namespace Retains

variable {x : Entity} {b b' b'' : Book P}

theorem of_get?_eq (h : b'.get? x = b.get? x) : Retains x b b' :=
  fun j hj => ⟨j, h ▸ hj, .refl j⟩

theorem trans (h : Retains x b b') (h' : Retains x b' b'') : Retains x b b'' := by
  intro k hk
  obtain ⟨j, hj, hjk⟩ := h' k hk
  obtain ⟨i, hi, hij⟩ := h j hj
  exact ⟨i, hi, hij.trans hjk⟩

theorem put {e : Entity} {i j : Instance P} (live : b.get? e = some i) (same : i.Same j) :
    Retains x b (b.put e j) := by
  by_cases hx : x = e
  · subst hx
    intro k hk
    cases (get?_put_self b x j).symm.trans hk
    exact ⟨i, live, same⟩
  · exact of_get?_eq (get?_put_of_ne b hx j)

end Retains

theorem beginEdit_of_none {b : Book P} {e : Entity} (h : b.get? e = none) :
    (b.beginEdit e).2 = b := by
  simp [beginEdit, h]

theorem retains_beginEdit (x : Entity) (b : Book P) (e : Entity) :
    Retains x b (b.beginEdit e).2 := by
  cases hi : b.get? e with
  | none =>
    rw [beginEdit_of_none hi]
    exact .of_get?_eq rfl
  | some i =>
    by_cases hx : x = e
    · subst hx
      intro j hj
      cases (get?_beginEdit_self hi).symm.trans hj
      exact ⟨i, hi, .enter i⟩
    · exact .of_get?_eq (get?_beginEdit_of_ne b hx)

theorem retains_commitEdit (x : Entity) (b : Book P) (e : Entity) :
    Retains x b (b.commitEdit e).2 := by
  have hclosed := closed_commitEdit b e
  generalize (b.commitEdit e).2 = b' at hclosed
  cases hclosed with
  | refused => exact .of_get?_eq rfl
  | @inner i live level => exact .put live (.leave i)
  | @removed i live level deleting =>
    refine (Retains.put live (.leave i)).trans fun j hj => ?_
    by_cases hx : x = e
    · subst hx
      exact absurd ((get?_remove_self _ x).symm.trans hj) (by simp)
    · exact ⟨j, (get?_remove_of_ne _ hx).symm.trans hj, .refl j⟩
  | @settled i live level kept accepted =>
    refine (Retains.put live (.leave i)).trans fun j hj => ?_
    by_cases hx : x = e
    · subst hx
      have hput := get?_put_self b x i.leave
      obtain ⟨k, hk, hclean⟩ := get?_settledAs_self hput accepted
      cases hk.symm.trans hj
      exact ⟨i.leave, hput, (Instance.Same.of_markClean hclean).symm⟩
    · exact ⟨j, (get?_settledAs_of_ne _ hx _ _).symm.trans hj, .refl j⟩

theorem retains_delete (x : Entity) (b : Book P) (e : Entity) : Retains x b (b.delete e).2 := by
  rw [delete_snd]
  unfold edit
  cases hi : b.get? e with
  | none => exact .of_get?_eq rfl
  | some i =>
    have hmarked : Retains x (b.beginEdit e).2 ((b.beginEdit e).2.put e i.enter.markDeleting) :=
      .put (get?_beginEdit_self hi) ⟨rfl, rfl, rfl⟩
    exact ((retains_beginEdit x b e).trans hmarked).trans (retains_commitEdit x _ e)

theorem bus_beginEdit (b : Book P) (e : Entity) : (b.beginEdit e).2.bus = b.bus := by
  unfold beginEdit
  split
  · rfl
  · dsimp only
    split
    · rfl
    · rfl

/-! ### Well-formedness -/

namespace WellFormed

variable {b : Book P}

theorem beginEdit (h : b.WellFormed) (e : Entity) : (b.beginEdit e).2.WellFormed := by
  refine h.of_keeps (Keeps.beginEdit b e) (sorted_beginEdit h.sorted e) fun e' j hj => ?_
  by_cases he : e' = e
  · subst he
    cases hi : b.get? e' with
    | none =>
      rw [beginEdit_of_none hi] at hj
      exact h.fits e' j hj
    | some i =>
      cases (get?_beginEdit_self hi).symm.trans hj
      have hf := h.fits e' i hi
      exact ⟨hf.entity, hf.owner, hf.guid, hf.known, fun _ => Nat.succ_pos _, hf.opened⟩
  · rw [get?_beginEdit_of_ne b he] at hj
    exact h.fits e' j hj

/-- Putting an instance that fits. -/
theorem put (h : b.WellFormed) {e : Entity} {i : Instance P} (hi : i.Fits b e) :
    (b.put e i).WellFormed := by
  refine h.of_keeps (.put b e i) (OrderedMap.sorted_insert h.sorted ..) fun e' j hj => ?_
  by_cases he : e' = e
  · subst he
    cases (get?_put_self b e' i).symm.trans hj
    exact hi
  · rw [get?_put_of_ne b he] at hj
    exact h.fits e' j hj

theorem emit (h : b.WellFormed) (ev : ChangeEvent) : (b.markDirty.emit ev).WellFormed :=
  h.of_eq rfl rfl rfl rfl

theorem settledAs (h : b.WellFormed) {e : Entity} {i : Instance P} (hi : i.Fits b e)
    (accepted : Bool) : (b.settledAs e i accepted).WellFormed := by
  have hheard : (b.hear (.commit i accepted)).WellFormed := h.of_eq rfl rfl rfl rfl
  have hput : ((b.hear (.commit i accepted)).put e i.markClean).WellFormed :=
    hheard.put ⟨hi.entity, hi.owner, hi.guid, hi.known, hi.deleting, hi.opened⟩
  unfold Book.settledAs
  dsimp only
  split <;> split
  · exact hput.emit _
  · exact hheard.emit _
  · exact hput
  · exact hheard

theorem commitEdit (h : b.WellFormed) (e : Entity) : (b.commitEdit e).2.WellFormed := by
  have hclosed := closed_commitEdit b e
  generalize (b.commitEdit e).2 = b' at hclosed
  cases hclosed with
  | refused => exact h
  | @inner i live level =>
    have hf := h.fits e i live
    exact h.put ⟨hf.entity, hf.owner, hf.guid, hf.known,
      fun _ => show 0 < i.level - 1 by omega, hf.opened⟩
  | @removed i live level deleting =>
    refine WellFormed.emit ?_ _
    refine h.of_keeps ⟨rfl, rfl, rfl, rfl, rfl, rfl, rfl⟩
      (OrderedMap.sorted_erase (OrderedMap.sorted_insert h.sorted ..) e) fun e' j hj => ?_
    by_cases he : e' = e
    · subst he
      exact absurd ((get?_remove_self _ e').symm.trans hj) (by simp)
    · rw [get?_remove_of_ne _ he, get?_put_of_ne b he] at hj
      exact h.fits e' j hj
  | @settled i live level kept accepted =>
    have hf := h.fits e i live
    -- It is not to be deleted, so it may stand there without an open edit.
    have hleft : i.leave.Fits b e :=
      ⟨hf.entity, hf.owner, hf.guid, hf.known, fun hd => absurd (kept.symm.trans hd) (by simp),
        hf.opened⟩
    exact (h.put hleft).settledAs ⟨hleft.entity, hleft.owner, hleft.guid, hleft.known,
      hleft.deleting, hleft.opened⟩ accepted

theorem register (h : b.WellFormed) {c : ObjectClass P} {r : Registry P} (hc : c.WellFormed)
    (hr : b.registry.register c = .ok r) : WellFormed { b with registry := r } where
  sorted := h.sorted
  registry := Registry.wellFormed_register h.registry hc hr
  fits e i hi := by
    have hf := h.fits e i hi
    obtain ⟨d, hd, hcons, hpayload⟩ := hf.known
    exact ⟨hf.entity, hf.owner, hf.guid, ⟨d, Registry.find?_register hr hd, hcons, hpayload⟩,
      hf.deleting, hf.opened⟩

theorem step {b' : Book P} (h : b.WellFormed) (hs : Step b b') : b'.WellFormed := by
  cases hs with
  | create tag guid => exact h.create tag guid
  | beginEdit e => exact h.beginEdit e
  | touch live editing touches =>
    exact h.put ((h.fits _ _ live).of_rewrites touches.toRewrites)
  | markDeleting live editing =>
    have hf := h.fits _ _ live
    exact h.put ⟨hf.entity, hf.owner, hf.guid, hf.known, fun _ => editing, hf.opened⟩
  | commitEdit e => exact h.commitEdit e
  | suspend | resume | subscribe | unsubscribe | setBackend | markClean | log | pushPending |
    takePending =>
    exact h.of_eq rfl rfl rfl rfl
  | register unique added => exact h.register unique added

theorem blank {registry : Registry P} (h : registry.WellFormed) (id : Guid) (config : Config) :
    (blank id registry config).WellFormed where
  sorted := OrderedMap.sorted_empty
  registry := h
  fits e i hi := by cases hi

end WellFormed

theorem Steps.wellFormed {b b' : Book P} (h : Steps b b') (hb : b.WellFormed) : b'.WellFormed :=
  h.preserves (fun _ _ hb hs => hb.step hs) hb

theorem Reachable.wellFormed {b : Book P} (h : b.Reachable) : b.WellFormed :=
  h.induct (fun id _ config unique => .blank unique id config) fun _ _ hb hs => hb.step hs

end Book

/-! ### The bus -/

namespace EventBus

/-- Nothing is held back unless the bus is suspended. -/
def Orderly (b : EventBus) : Prop := b.depth = 0 → b.queued = []

variable {b : EventBus}

theorem Orderly.emit (h : b.Orderly) (ev : ChangeEvent) : (b.emit ev).Orderly := by
  unfold EventBus.emit
  split
  · next hs =>
    intro hd
    have hpos : 0 < b.depth := by simpa [isSuspended] using hs
    have hd : b.depth = 0 := hd
    omega
  · exact h

theorem Orderly.suspend (b : EventBus) : b.suspend.Orderly := fun hd => by cases hd

theorem Orderly.resume (h : b.Orderly) : b.resume.Orderly := by
  unfold EventBus.resume
  split
  · exact h
  · split
    · next hq => exact fun _ => List.isEmpty_iff.mp hq
    · exact fun _ => rfl
  · exact fun hd => by cases hd

/-- Holding events back and letting them go at once does nothing. -/
theorem Orderly.resume_suspend (h : b.Orderly) : b.suspend.resume = b := by
  obtain ⟨handlers, nextId, depth, queued, delivered⟩ := b
  cases depth with
  | zero =>
    cases (h rfl : queued = [])
    rfl
  | succ n => rfl

end EventBus

namespace Book

/-- A step leaves the bus alone, raises one event, or is a call to the bus. -/
theorem Step.orderly {b b' : Book P} (hs : Step b b') (h : b.bus.Orderly) : b'.bus.Orderly := by
  cases hs with
  | create tag guid =>
    rcases create_cases b tag guid with heq | ⟨i, _, heq⟩
    · rw [heq]
      exact h
    · rw [heq]
      exact h.emit _
  | beginEdit e =>
    rw [bus_beginEdit]
    exact h
  | commitEdit e =>
    have hclosed := closed_commitEdit b e
    generalize (b.commitEdit e).2 = b' at hclosed
    cases hclosed with
    | refused | inner => exact h
    | removed => exact h.emit _
    | settled live level kept accepted =>
      unfold settledAs
      dsimp only
      split <;> split
      · exact h.emit _
      · exact h.emit _
      · exact h
      · exact h
  | suspend => exact .suspend _
  | resume => exact h.resume
  | touch | markDeleting | subscribe | unsubscribe | setBackend | markClean | register | log |
      pushPending | takePending =>
    exact h

theorem Steps.orderly {b b' : Book P} (h : Steps b b') (hb : b.bus.Orderly) : b'.bus.Orderly :=
  h.preserves (fun _ _ hb hs => hs.orderly hb) hb

theorem Reachable.orderly {b : Book P} (h : b.Reachable) : b.bus.Orderly :=
  h.induct (fun _ _ _ _ _ => rfl) fun _ _ hb hs => hs.orderly hb

end Book

end EntityBook
