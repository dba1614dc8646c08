import EntityBook.Proofs.Event.Mirror
import EntityBook.Proofs.Payload.Bag

/-! # Calls of several steps

  An undo, a redo or a copy changes a book in many steps, each of which may raise
  an event. A subscriber sees nothing of that: it hears of the call once, when all
  is done, and of all its events in one batch. If events were held back already,
  they go into the queue instead.

  `Raises` collects the events along the steps of a call. As long as events are
  held back, the bus only queues them, so what the closing resume lets go is what
  was collected.
-/

namespace EntityBook

variable {P : PayloadFamily}

/-! ### What handlers receive -/

namespace EventBus

/-- The events that a handler received, latest last. -/
def received (b : EventBus) (id : HandlerId) : List ChangeEvent :=
  b.delivered.flatMap fun d => List.replicate (d.receivers.count id) d.event

/-- No two handlers have the same number, and the next one gets another. -/
structure Numbered (b : EventBus) : Prop where
  nodup : b.handlers.Nodup
  below : ∀ id ∈ b.handlers, id < b.nextId

variable {b : EventBus}

namespace Numbered

theorem of_eq {b' : EventBus} (h : b.Numbered) (hh : b'.handlers = b.handlers)
    (hn : b'.nextId = b.nextId) : b'.Numbered :=
  ⟨hh ▸ h.nodup, fun id hid => hn ▸ h.below id (hh ▸ hid)⟩

theorem emit (h : b.Numbered) (ev : ChangeEvent) : (b.emit ev).Numbered := by
  unfold EventBus.emit
  split
  · exact h.of_eq rfl rfl
  · exact h.of_eq rfl rfl

theorem foldl_emit (h : b.Numbered) (events : List ChangeEvent) :
    (events.foldl EventBus.emit b).Numbered := by
  induction events generalizing b with
  | nil => exact h
  | cons ev rest ih => exact ih (h.emit ev)

theorem resume (h : b.Numbered) : b.resume.Numbered := by
  unfold EventBus.resume
  split
  · exact h
  · split
    · exact h.of_eq rfl rfl
    · exact h.of_eq rfl rfl
  · exact h.of_eq rfl rfl

theorem subscribe (h : b.Numbered) : b.subscribe.2.Numbered where
  nodup := List.nodup_append.mpr ⟨h.nodup, List.nodup_singleton _, fun id hid other ho => by
    have hlt := h.below id hid
    cases List.mem_singleton.mp ho
    exact Nat.ne_of_lt hlt⟩
  below id hid := by
    rcases List.mem_append.mp hid with hold | hnew
    · exact Nat.lt_succ_of_lt (h.below id hold)
    · cases List.mem_singleton.mp hnew
      exact Nat.lt_succ_self _

theorem unsubscribe (h : b.Numbered) (id : HandlerId) : (b.unsubscribe id).2.Numbered :=
  ⟨h.nodup.filter _, fun other ho => h.below other (List.mem_of_mem_filter ho)⟩

end Numbered

/-- Every subscribed handler is called once. -/
theorem received_deliver (h : b.Numbered) (ev : ChangeEvent) (id : HandlerId) :
    (b.deliver ev).received id = b.received id ++ if id ∈ b.handlers then [ev] else [] := by
  have hcount : b.handlers.count id = if id ∈ b.handlers then 1 else 0 := h.nodup.count
  unfold received deliver
  rw [List.flatMap_append, List.flatMap_singleton, hcount]
  split <;> rfl

/-- While events are held back, they queue up. -/
theorem foldl_emit_of_suspended (h : 0 < b.depth) (events : List ChangeEvent) :
    events.foldl emit b = { b with queued := b.queued ++ events } := by
  induction events generalizing b with
  | nil => simp
  | cons ev rest ih =>
    have hemit : b.emit ev = { b with queued := b.queued ++ [ev] } := by simp [emit, isSuspended, h]
    have hrest := ih (b := { b with queued := b.queued ++ [ev] }) h
    rw [List.foldl_cons, hemit, hrest, List.append_assoc]
    rfl

/-- What was held back in between is let go, or queues up for those who held back
    before. -/
theorem Orderly.resume_queued (h : b.Orderly) (events : List ChangeEvent) :
    EventBus.resume { b.suspend with queued := b.queued ++ events } =
      if b.depth = 0 then (if events = [] then b else b.deliver (.batch events))
      else { b with queued := b.queued ++ events } := by
  obtain ⟨handlers, nextId, depth, queued, delivered⟩ := b
  cases depth with
  | zero =>
    cases (h rfl : queued = [])
    cases events <;> rfl
  | succ n => rfl

end EventBus

namespace Book

theorem Step.numbered {b b' : Book P} (hs : Step b b') (h : b.bus.Numbered) : b'.bus.Numbered := by
  have told (ht : ∃ news, Tells b b' news) : b'.bus.Numbered := by
    obtain ⟨news, ht⟩ := ht
    rw [ht.bus]
    exact h.foldl_emit news
  cases hs with
  | create tag guid => exact told (tells_create b tag guid)
  | beginEdit e => exact told ⟨[], tells_beginEdit b e⟩
  | commitEdit e => exact told (tells_commitEdit b e)
  | resume => exact h.resume
  | subscribe => exact h.subscribe
  | unsubscribe id => exact h.unsubscribe id
  | suspend => exact h.of_eq rfl rfl
  | touch | markDeleting | setBackend | markClean | register | log | pushPending | takePending =>
    exact h

theorem Reachable.numbered {b : Book P} (h : b.Reachable) : b.bus.Numbered :=
  h.induct (fun _ _ _ _ => ⟨List.nodup_nil, fun _ hid => by cases hid⟩)
    fun _ _ hb hs => hs.numbered hb

/-! ### The events of an act -/

/-- A step of which the bus hears nothing but what the step tells. -/
def Told (b b' : Book P) : Prop := Step b b' ∧ ∃ news, Tells b b' news

theorem Act.told {b b' : Book P} (h : Act b b') : Relation.ReflTransGen Told b b' := by
  -- What the bus does not hear of leaves the instances as they are.
  have silent {b'' : Book P} (hs : Step b b'') (hbus : b''.bus = b.bus)
      (hinstances : b''.instances = b.instances) : Relation.ReflTransGen Told b b'' :=
    .single ⟨hs, [], hbus, .of_instances hinstances⟩
  have opened (e : Entity) : Told b (b.beginEdit e).2 := ⟨.beginEdit b e, [], tells_beginEdit b e⟩
  have closed (e : Entity) (b : Book P) : Told b (b.commitEdit e).2 :=
    ⟨.commitEdit b e, tells_commitEdit b e⟩
  cases h with
  | create _ tag guid => exact .single ⟨.create b tag guid, tells_create b tag guid⟩
  | edit _ e touches =>
    refine edit_chain b e (opened e) (fun i live editing => ?_) (closed e)
    exact ⟨.touch live editing (touches i), [], rfl, .put live ((touches i).covert editing)⟩
  | delete _ e =>
    rw [delete_snd]
    refine edit_chain b e (opened e) (fun i live editing => ?_) (closed e)
    exact ⟨.markDeleting live editing, [], rfl,
      .put live (.of_dirty_eq ⟨rfl, rfl, rfl⟩ rfl fun hl => hl)⟩
  | log _ undo => exact silent (.log b undo) rfl rfl
  | pushPending _ rs => exact silent (.pushPending b rs) rfl rfl
  | takePending => exact silent (.takePending b) rfl rfl

/-- Steps of which the bus hears nothing but the events that they raise, with these
    events in order. -/
inductive Raises (b : Book P) : Book P → List ChangeEvent → Prop where
  | start : Raises b b []
  | step {b' b'' : Book P} {old news : List ChangeEvent} (before : Raises b b' old)
      (taken : Step b' b'') (tells : Tells b' b'' news) : Raises b b'' (old ++ news)

theorem Raises.bus {b b' : Book P} {events : List ChangeEvent} (h : Raises b b' events) :
    b'.bus = events.foldl EventBus.emit b.bus := by
  induction h with
  | start => rfl
  | step before taken tells ih => rw [tells.bus, ih, List.foldl_append]

theorem Acts.told {b b' : Book P} (h : Acts b b') : Relation.ReflTransGen Told b b' := by
  induction h with
  | refl => exact .refl
  | tail _ hact ih => exact ih.trans hact.told

theorem Acts.raises {b b' : Book P} (h : Acts b b') : ∃ events, Raises b b' events := by
  have htold := h.told
  clear h
  induction htold with
  | refl => exact ⟨[], .start⟩
  | tail _ hstep ih =>
    obtain ⟨old, hold⟩ := ih
    obtain ⟨taken, news, tells⟩ := hstep
    exact ⟨old ++ news, hold.step taken tells⟩

/-! ### Whole calls -/

/-- What subscribers hear of a call that leads from one book to another and raises
    events on the way. -/
structure Atomic (b b' : Book P) (events : List ChangeEvent) : Prop where
  /-- Up to the last change nothing is delivered; after it events are let go. -/
  held : ∃ last, Raises b.suspend last events ∧ last.bus.delivered = b.bus.delivered ∧
    b' = last.resume
  depth : b'.bus.depth = b.bus.depth
  handlers : b'.bus.handlers = b.bus.handlers
  /-- Nobody hears of a call without events; else each handler hears of it once. -/
  batch : b.bus.depth = 0 → b'.bus.queued = [] ∧ ∀ id, b'.bus.received id = b.bus.received id ++
    if id ∈ b.bus.handlers ∧ events ≠ [] then [.batch events] else []
  /-- If events were held back already, these are too. -/
  queue : 0 < b.bus.depth →
    b'.bus.delivered = b.bus.delivered ∧ b'.bus.queued = b.bus.queued ++ events

theorem Raises.atomic {b last : Book P} {events : List ChangeEvent}
    (h : Raises b.suspend last events) (horder : b.bus.Orderly) (hnumbered : b.bus.Numbered) :
    Atomic b last.resume events := by
  have hbus : last.bus = { b.bus.suspend with queued := b.bus.queued ++ events } :=
    h.bus.trans (EventBus.foldl_emit_of_suspended (Nat.succ_pos _) events)
  have hresume : last.resume.bus = if b.bus.depth = 0
      then (if events = [] then b.bus else b.bus.deliver (.batch events))
      else { b.bus with queued := b.bus.queued ++ events } :=
    (congrArg EventBus.resume hbus).trans (horder.resume_queued events)
  refine ⟨⟨last, h, by rw [hbus]; rfl, rfl⟩, ?_, ?_, fun hd => ?_, fun hd => ?_⟩
  · rw [hresume]
    split
    · split <;> rfl
    · rfl
  · rw [hresume]
    split
    · split <;> rfl
    · rfl
  · rw [hresume, if_pos hd]
    by_cases hnone : events = []
    · simp [hnone, horder hd]
    · rw [if_neg hnone]
      refine ⟨horder hd, fun id => ?_⟩
      rw [EventBus.received_deliver hnumbered]
      simp [hnone]
  · rw [hresume, if_neg (by omega)]
    exact ⟨rfl, rfl⟩

/-- An undo, a redo or a copy is one event to its subscribers, whether it succeeds, fails
    or does nothing: events are held back up to the last change, then each handler
    receives all of them in one batch. -/
theorem calls_are_atomic {b : Book P} (h : b.Reachable) {c : Call P} (hc : c.holdsEvents = true) :
    ∃ events, Atomic b (b.call c) events := by
  have hheld := Held.call b hc
  generalize b.call c = b' at hheld
  cases hheld with
  | idle =>
    have hresume : b.suspend.resume = b := by
      show { b with bus := b.bus.suspend.resume } = b
      rw [h.orderly.resume_suspend]
    have hquiet := Raises.start.atomic h.orderly h.numbered
    rw [hresume] at hquiet
    exact ⟨[], hquiet⟩
  | @acted last acts =>
    obtain ⟨events, hraises⟩ := acts.raises
    exact ⟨events, hraises.atomic h.orderly h.numbered⟩

end Book

/-! ### Two labels changed at once -/

/-- Two nodes got labels in one operation, while a handler was subscribed. -/
def Bag.labelled : Book bags :=
  (Book.blank ⟨1⟩ nodes {}).run [.create "node" (node 1).guid, .create "node" (node 2).guid,
    .subscribe, .startOperation "label", .modify (node 1) "label" "a", .modify (node 2) "label" "b",
    .endOperation]

/-- The changes were heard of one by one, and their undo is heard of as a whole. -/
theorem Book.labels_undone_in_one_batch :
    Bag.labelled.bus.received 0 = [.modified (Bag.node 1), .modified (Bag.node 2)] ∧
      Atomic Bag.labelled (Bag.labelled.call .undo)
        [.modified (Bag.node 2), .modified (Bag.node 1)] := by
  have hreach : Bag.labelled.Reachable := (Reachable.blank ⟨1⟩ {} Bag.wellFormed_nodes).run _
  have hbefore : Bag.labelled.bus.received 0 =
      [.modified (Bag.node 1), .modified (Bag.node 2)] := by rfl
  have hafter : (Bag.labelled.call .undo).bus.received 0 =
      [.modified (Bag.node 1), .modified (Bag.node 2)] ++
        [.batch [.modified (Bag.node 2), .modified (Bag.node 1)]] := by rfl
  have hidle : Bag.labelled.bus.depth = 0 := by decide +kernel
  have hsubscribed : 0 ∈ Bag.labelled.bus.handlers := by decide +kernel
  obtain ⟨events, hatomic⟩ := calls_are_atomic hreach (c := .undo) rfl
  have hheard := (hatomic.batch hidle).2 0
  rw [hafter, hbefore, List.append_cancel_left_eq] at hheard
  by_cases hnone : events = []
  · simp [hnone] at hheard
  · rw [if_pos ⟨hsubscribed, hnone⟩] at hheard
    cases hheard
    exact ⟨hbefore, hatomic⟩

end EntityBook
