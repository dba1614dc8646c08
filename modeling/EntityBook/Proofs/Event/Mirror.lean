import EntityBook.Proofs.Run.Invariant
import Mathlib.Data.Finset.Basic

/-! # The events mirror the book

  A subscriber that keeps account of the entities it is told of knows exactly
  which entities are live, and it is told of every entity whose values changed. No
  call can spoil this: whatever fails on the way, whatever the backend answers,
  and however events are held back.

  `Effect` says what a step does to the instances and which events it raises with
  it. All else follows from it by induction over the steps of a run.
-/

namespace EntityBook

variable {P : PayloadFamily}

/-! ### Raised events -/

/-- The live entities that a subscriber knows of after an event, `none` if the event
    contradicts what it knew. -/
def ChangeEvent.track (live : Finset Entity) : ChangeEvent → Option (Finset Entity)
  | .created e => if e ∈ live then none else some (insert e live)
  | .modified e => if e ∈ live then some live else none
  | .destroyed e => if e ∈ live then some (live.erase e) else none
  | .batch _ => none

theorem ChangeEvent.flattenAll_eq (evs : List ChangeEvent) :
    flatten.flattenAll evs = evs.flatMap flatten := by
  induction evs with
  | nil => rfl
  | cons ev rest ih => rw [flatten.flattenAll, List.flatMap_cons, ih]

namespace EventBus

/-- All events raised so far: those delivered, batches opened, and then those held
    back. -/
def raised (b : EventBus) : List ChangeEvent :=
  (b.delivered.flatMap fun d => d.event.flatten) ++ b.queued.flatMap ChangeEvent.flatten

variable {b : EventBus}

theorem raised_emit (h : b.Orderly) (ev : ChangeEvent) :
    (b.emit ev).raised = b.raised ++ ev.flatten := by
  unfold emit
  split
  · simp [raised]
  · next hs =>
    -- Nothing is held back, so what is delivered now comes last.
    have hq : b.queued = [] := h (by simpa [isSuspended] using hs)
    simp [raised, deliver, hq]

theorem raised_resume (b : EventBus) : b.resume.raised = b.raised := by
  unfold resume
  split
  · rfl
  · split
    · rfl
    · simp [raised, deliver, ChangeEvent.flatten, ChangeEvent.flattenAll_eq]
  · rfl

end EventBus

namespace Instance

/-- Something changed inside an edit that is still open. -/
def Unsettled (i : Instance P) : Prop := i.dirty = true ∧ 0 < i.level

/-- What may become of an instance without an event: it stays as it is, or its
    changes are announced when the edit closes. -/
def Covert (i j : Instance P) : Prop := j.Unsettled ∨ (i.Same j ∧ ¬ i.Unsettled)

theorem Covert.of_dirty_eq {i j : Instance P} (hs : i.Same j) (hd : j.dirty = i.dirty)
    (hl : 0 < i.level → 0 < j.level) : i.Covert j := by
  by_cases hu : i.Unsettled
  · exact Or.inl ⟨hd.trans hu.1, hl hu.2⟩
  · exact Or.inr ⟨hs, hu⟩

theorem Covert.refl (i : Instance P) : i.Covert i := .of_dirty_eq (.refl i) rfl fun hl => hl

theorem Touches.covert {i j : Instance P} (h : i.Touches j) (hl : 0 < i.level) : i.Covert j := by
  rcases h.marked with rfl | hd
  · exact .refl j
  · exact Or.inl ⟨hd, by rw [h.level]; exact hl⟩

end Instance

namespace Book

/-! ### What a step does and tells -/

/-- What a step does to the instances, with the events that tell of it. -/
inductive Effect (b b' : Book P) : List ChangeEvent → Prop where
  | silent (live : ∀ e i, b.get? e = some i → ∃ j, b'.get? e = some j ∧ i.Covert j)
    (gone : ∀ e, b.get? e = none → b'.get? e = none) : Effect b b' []
  | created {e : Entity} (before : b.contains e = false) (now : b'.contains e = true)
    (others : ∀ e', e' ≠ e → b'.get? e' = b.get? e') : Effect b b' [.created e]
  | modified {e : Entity} (before : b.contains e = true) (now : b'.contains e = true)
    (others : ∀ e', e' ≠ e → b'.get? e' = b.get? e') : Effect b b' [.modified e]
  | destroyed {e : Entity} (before : b.contains e = true) (now : b'.contains e = false)
    (others : ∀ e', e' ≠ e → b'.get? e' = b.get? e') : Effect b b' [.destroyed e]

theorem Effect.of_instances {b b' : Book P} (h : b'.instances = b.instances) : Effect b b' [] := by
  have hget (e : Entity) : b'.get? e = b.get? e := by
    unfold get?
    rw [h]
  exact .silent (fun e i hi => ⟨i, (hget e).trans hi, .refl i⟩) fun e hn => (hget e).trans hn

/-- Replacing one instance without an event. -/
theorem Effect.put {b : Book P} {e : Entity} {i j : Instance P} (hi : b.get? e = some i)
    (hij : i.Covert j) : Effect b (b.put e j) [] := by
  refine .silent (fun e' k hk => ?_) fun e' hn => ?_
  · by_cases he : e' = e
    · subst he
      cases hi.symm.trans hk
      exact ⟨j, get?_put_self b e' j, hij⟩
    · exact ⟨k, (get?_put_of_ne b he j).trans hk, .refl k⟩
  · have he : e' ≠ e := by
      rintro rfl
      exact absurd (hi.symm.trans hn) (by simp)
    exact (get?_put_of_ne b he j).trans hn

variable {b b' : Book P}

theorem effect_beginEdit (b : Book P) (e : Entity) : Effect b (b.beginEdit e).2 [] := by
  cases hi : b.get? e with
  | none =>
    rw [beginEdit_of_none hi]
    exact .of_instances rfl
  | some i =>
    have hput : Effect b (b.put e i.enter) [] :=
      .put hi (.of_dirty_eq (.enter i) rfl fun _ => Nat.succ_pos _)
    unfold beginEdit
    simp only [hi]
    split
    · cases hput with
      | silent live gone => exact .silent live gone
    · exact hput

/-- What a step does and tells, where the bus hears nothing but what it tells. -/
structure Tells (b b' : Book P) (news : List ChangeEvent) : Prop where
  bus : b'.bus = news.foldl EventBus.emit b.bus
  effect : Effect b b' news

theorem Tells.raised {news : List ChangeEvent} (h : Tells b b' news) (horder : b.bus.Orderly) :
    b'.bus.raised = b.bus.raised ++ news := by
  rw [h.bus]
  cases h.effect with
  | silent => simp
  | created | modified | destroyed => exact EventBus.raised_emit horder _

theorem tells_beginEdit (b : Book P) (e : Entity) : Tells b (b.beginEdit e).2 [] :=
  ⟨bus_beginEdit b e, effect_beginEdit b e⟩

theorem tells_create (b : Book P) (tag : TypeTag) (guid : Guid) :
    ∃ news, Tells b (b.create tag guid).2 news := by
  rcases create_cases b tag guid with heq | ⟨i, hn, heq⟩
  · rw [heq]
    exact ⟨[], rfl, .of_instances rfl⟩
  · rw [heq]
    refine ⟨[.created i.entity], rfl, .created ?_ ?_ ?_⟩
    · simp [contains, hn]
    · simp [contains]
    · exact fun e' he => get?_adopt_of_ne b he

/-- Settling tells of the entity if it changed. -/
theorem tells_settledAs {e : Entity} {i : Instance P} (hi : b.get? e = some i) (accepted : Bool) :
    ∃ news, Tells b ((b.put e i.leave).settledAs e i.leave accepted) news := by
  -- The book before the event: only the instance has changed, and only by its flags.
  have hquiet : ∃ q : Book P, q.bus = b.bus ∧ (∃ j, q.get? e = some j ∧ i.Same j) ∧
      (∀ e', e' ≠ e → q.get? e' = b.get? e') ∧
      (b.put e i.leave).settledAs e i.leave accepted =
        if i.dirty then (q.markDirty).emit (.modified e) else q := by
    cases accepted with
    | true =>
      refine ⟨((b.put e i.leave).hear (.commit i.leave true)).put e i.leave.markClean, rfl,
        ⟨_, get?_put_self _ e _, ⟨rfl, rfl, rfl⟩⟩, fun e' he => ?_, rfl⟩
      exact (get?_put_of_ne _ he _).trans (get?_put_of_ne b he _)
    | false =>
      exact ⟨(b.put e i.leave).hear (.commit i.leave false), rfl,
        ⟨_, get?_put_self b e _, .leave i⟩, fun e' he => get?_put_of_ne b he _, rfl⟩
  obtain ⟨q, hbus, ⟨j, hj, hsame⟩, hothers, heq⟩ := hquiet
  rw [heq]
  cases hd : i.dirty with
  | true =>
    refine ⟨[.modified e], ?_, .modified (contains_of_some hi) (contains_of_some hj) hothers⟩
    show q.bus.emit (.modified e) = _
    rw [hbus]
    rfl
  | false =>
    refine ⟨[], hbus, .silent (fun e' k hk => ?_) fun e' hn => ?_⟩
    · by_cases he : e' = e
      · subst he
        cases hi.symm.trans hk
        exact ⟨j, hj, Or.inr ⟨hsame, fun hu => absurd (hd.symm.trans hu.1) (by simp)⟩⟩
      · exact ⟨k, (hothers e' he).trans hk, .refl k⟩
    · have he : e' ≠ e := by
        rintro rfl
        exact absurd (hi.symm.trans hn) (by simp)
      exact (hothers e' he).trans hn

theorem tells_commitEdit (b : Book P) (e : Entity) : ∃ news, Tells b (b.commitEdit e).2 news := by
  have hclosed := closed_commitEdit b e
  generalize (b.commitEdit e).2 = b' at hclosed
  cases hclosed with
  | refused => exact ⟨[], rfl, .of_instances rfl⟩
  | @inner i live level =>
    refine ⟨[], rfl, .put live (.of_dirty_eq (.leave i) rfl fun _ => ?_)⟩
    show 0 < i.level - 1
    omega
  | removed live level deleting =>
    refine ⟨[.destroyed e], rfl,
      .destroyed (contains_of_some live) (by simp [contains]) fun e' he => ?_⟩
    exact (get?_remove_of_ne _ he).trans (get?_put_of_ne b he _)
  | settled live level kept accepted => exact tells_settledAs live accepted

/-- Every step tells what it does. -/
theorem Step.effect (hs : Step b b') (horder : b.bus.Orderly) :
    ∃ news, b'.bus.raised = b.bus.raised ++ news ∧ Effect b b' news := by
  have told (h : ∃ news, Tells b b' news) :
      ∃ news, b'.bus.raised = b.bus.raised ++ news ∧ Effect b b' news := by
    obtain ⟨news, h⟩ := h
    exact ⟨news, h.raised horder, h.effect⟩
  have quiet (hb : b'.bus.raised = b.bus.raised) (he : Effect b b' []) :
      ∃ news, b'.bus.raised = b.bus.raised ++ news ∧ Effect b b' news := ⟨[], by simp [hb], he⟩
  cases hs with
  | create tag guid => exact told (tells_create b tag guid)
  | beginEdit e => exact told ⟨[], tells_beginEdit b e⟩
  | touch live editing touches => exact quiet rfl (.put live (touches.covert editing))
  | markDeleting live editing =>
    exact quiet rfl (.put live (.of_dirty_eq ⟨rfl, rfl, rfl⟩ rfl fun hl => hl))
  | commitEdit e => exact told (tells_commitEdit b e)
  | resume => exact quiet (EventBus.raised_resume _) (.of_instances rfl)
  | suspend | subscribe | unsubscribe | setBackend | markClean | register | log | pushPending |
      takePending =>
    exact quiet rfl (.of_instances rfl)

/-! ### Runs -/

/-- A subscriber that kept account of all events knows what is live. -/
def Mirrored (b : Book P) : Prop :=
  ∃ live : Finset Entity, b.bus.raised.foldlM ChangeEvent.track ∅ = some live ∧
    ∀ e, e ∈ live ↔ b.contains e = true

theorem contains_eq_of_others {e e' : Entity} (h : ∀ e', e' ≠ e → b'.get? e' = b.get? e')
    (he : e' ≠ e) : b'.contains e' = b.contains e' := by
  unfold contains
  rw [h e' he]

theorem Mirrored.step (h : b.Mirrored) {news : List ChangeEvent}
    (hraised : b'.bus.raised = b.bus.raised ++ news) (he : Effect b b' news) : b'.Mirrored := by
  obtain ⟨live, htrack, hlive⟩ := h
  have hnext : b'.bus.raised.foldlM ChangeEvent.track ∅ =
      news.foldlM ChangeEvent.track live := by
    rw [hraised, List.foldlM_append, htrack]
    rfl
  cases he with
  | silent kept gone =>
    refine ⟨live, by rw [hnext]; rfl, fun e => (hlive e).trans ?_⟩
    cases hi : b.get? e with
    | none => simp [contains, hi, gone e hi]
    | some i =>
      obtain ⟨j, hj, _⟩ := kept e i hi
      simp [contains, hi, hj]
  | @created e before now others =>
    have hnew : e ∉ live := fun hm => absurd (((hlive e).mp hm).symm.trans before) (by simp)
    refine ⟨insert e live, by rw [hnext]; simp [ChangeEvent.track, hnew], fun e' => ?_⟩
    rw [Finset.mem_insert]
    by_cases he : e' = e
    · simp [he, now]
    · simp [he, hlive e', contains_eq_of_others others he]
  | @modified e before now others =>
    have hmem : e ∈ live := (hlive e).mpr before
    refine ⟨live, by rw [hnext]; simp [ChangeEvent.track, hmem], fun e' => ?_⟩
    by_cases he : e' = e
    · simp [he, now, hmem]
    · rw [hlive e', contains_eq_of_others others he]
  | @destroyed e before now others =>
    have hmem : e ∈ live := (hlive e).mpr before
    refine ⟨live.erase e, by rw [hnext]; simp [ChangeEvent.track, hmem], fun e' => ?_⟩
    rw [Finset.mem_erase]
    by_cases he : e' = e
    · simp [he, now]
    · simp [he, hlive e', contains_eq_of_others others he]

/-- What was raised since an earlier state of a book tells of every entity that was
    live then and has other values now, unless an edit of it is still open. -/
structure Since (b b' : Book P) (news : List ChangeEvent) : Prop where
  raised : b'.bus.raised = b.bus.raised ++ news
  told : ∀ e i, b.get? e = some i →
    (ChangeEvent.modified e ∈ news ∨ ChangeEvent.destroyed e ∈ news) ∨
    ∃ j, b'.get? e = some j ∧ (j.Unsettled ∨ i.Same j)

theorem Since.refl (b : Book P) : Since b b [] where
  raised := by simp
  told _ i hi := Or.inr ⟨i, hi, Or.inr (.refl i)⟩

theorem Since.step {b'' : Book P} {old news : List ChangeEvent} (h : Since b b' old)
    (hraised : b''.bus.raised = b'.bus.raised ++ news) (he : Effect b' b'' news) :
    Since b b'' (old ++ news) := by
  refine ⟨by rw [hraised, h.raised, List.append_assoc], fun e i hi => ?_⟩
  rcases h.told e i hi with hold | ⟨j, hj, hij⟩
  · exact Or.inl (hold.imp (List.mem_append_left _) (List.mem_append_left _))
  -- An entity that the step's event is not about stands as it stood.
  have hother {x : Entity} (hx : e ≠ x) (others : ∀ e', e' ≠ x → b''.get? e' = b'.get? e') :
      ∃ j, b''.get? e = some j ∧ (j.Unsettled ∨ i.Same j) :=
    ⟨j, (others e hx).trans hj, hij⟩
  cases he with
  | silent kept gone =>
    right
    obtain ⟨k, hk, hjk⟩ := kept e j hj
    refine ⟨k, hk, ?_⟩
    rcases hjk with hu | ⟨hsame, hn⟩
    · exact Or.inl hu
    · exact Or.inr ((hij.resolve_left hn).trans hsame)
  | @created x before now others =>
    refine Or.inr (hother ?_ others)
    rintro rfl
    exact absurd ((contains_of_some hj).symm.trans before) (by simp)
  | @modified x before now others =>
    by_cases hx : e = x
    · exact Or.inl (Or.inl (by simp [hx]))
    · exact Or.inr (hother hx others)
  | @destroyed x before now others =>
    by_cases hx : e = x
    · exact Or.inl (Or.inr (by simp [hx]))
    · exact Or.inr (hother hx others)

/-- A run keeps the account right and hides nothing. -/
theorem Steps.mirrored (h : Steps b b') (horder : b.bus.Orderly) (hm : b.Mirrored) :
    b'.bus.Orderly ∧ b'.Mirrored ∧ ∃ news, Since b b' news := by
  induction h with
  | refl => exact ⟨horder, hm, [], .refl b⟩
  | tail _ hstep ih =>
    obtain ⟨horder', hm', old, hold⟩ := ih
    obtain ⟨news, hraised, heffect⟩ := hstep.effect horder'
    exact ⟨hstep.orderly horder', hm'.step hraised heffect, _, hold.step hraised heffect⟩

theorem mirrored_blank (id : Guid) (registry : Registry P) (config : Config) :
    (blank id registry config).Mirrored := ⟨∅, rfl, fun e => by simp [contains, blank, get?]⟩

/-- Every change of values between two states is told, if no edit of the entity is
    open in the later one. -/
def Announced (b b' : Book P) : Prop :=
  ∃ news, b'.bus.raised = b.bus.raised ++ news ∧
    ∀ e i j, b.get? e = some i → b'.get? e = some j → j.level = 0 →
      (j.slots ≠ i.slots ∨ ∃ a, j.value? a ≠ i.value? a) →
        ChangeEvent.modified e ∈ news ∨ ChangeEvent.destroyed e ∈ news

theorem Since.announced {news : List ChangeEvent} (h : Since b b' news) : Announced b b' := by
  refine ⟨news, h.raised, fun e i j hi hj hl hdiff => ?_⟩
  rcases h.told e i hi with htold | ⟨k, hk, hu | hsame⟩
  · exact htold
  · cases hk.symm.trans hj
    exact absurd hu.2 (by omega)
  · cases hk.symm.trans hj
    rcases hdiff with hs | ⟨a, ha⟩
    · exact absurd hsame.slots.symm hs
    · exact absurd (hsame.value? a).symm ha

/-- At every moment of every run the events tell which entities are live, and
    between any two moments they tell which entities changed. -/
theorem events_mirror_book (id : Guid) (registry : Registry P) (config : Config)
    (before between : List (Call P)) :
    (((blank id registry config).run before).run between).Mirrored ∧
      Announced ((blank id registry config).run before)
        (((blank id registry config).run before).run between) := by
  obtain ⟨horder, hmirrored, _⟩ := (Steps.run (blank id registry config) before).mirrored
    (fun _ => rfl) (mirrored_blank id registry config)
  obtain ⟨_, hlast, _, hsince⟩ := (Steps.run _ between).mirrored horder hmirrored
  exact ⟨hlast, hsince.announced⟩

end Book

end EntityBook
