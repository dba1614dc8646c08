import EntityBook.Proofs.Event.Atomic

/-! # The bus loses no event

  Handlers come and go, and suspends and resumes may be nested or not match, while
  events are raised. A handler that stays receives every event once and in order,
  though perhaps later and in a batch.

  What a bus should do is said of the calls made to it so far: which handlers
  listen, how many suspends are open, and which calls let events go. That the bus
  does it follows by induction over the calls, from what a single call does.
-/

namespace EntityBook

/-! ### Calls to a bus -/

/-- A call to a bus. -/
inductive BusCall where
  | subscribe
  | unsubscribe (id : HandlerId)
  | suspend
  | resume
  | emit (event : ChangeEvent)

namespace EventBus

/-- The bus after a call. -/
def call (b : EventBus) : BusCall → EventBus
  | .subscribe => b.subscribe.2
  | .unsubscribe id => (b.unsubscribe id).2
  | .suspend => b.suspend
  | .resume => b.resume
  | .emit ev => b.emit ev

/-- A bus after calls to it from the first on. -/
def after (calls : List BusCall) : EventBus := calls.foldl call empty

theorem after_append (calls more : List BusCall) :
    after (calls ++ more) = more.foldl call (after calls) := List.foldl_append

theorem after_snoc (calls : List BusCall) (c : BusCall) :
    after (calls ++ [c]) = (after calls).call c := after_append calls [c]

/-- What the calls to remove a handler answer. -/
def answers (b : EventBus) : List BusCall → List (HandlerId × Bool)
  | [] => []
  | .unsubscribe id :: rest => (id, (b.unsubscribe id).1) :: answers (b.unsubscribe id).2 rest
  | c :: rest => answers (b.call c) rest

theorem answers_append (b : EventBus) (calls more : List BusCall) :
    b.answers (calls ++ more) = b.answers calls ++ (calls.foldl call b).answers more := by
  induction calls generalizing b with
  | nil => rfl
  | cons c rest ih =>
    cases c with
    | unsubscribe id => exact congrArg (_ :: ·) (ih _)
    | subscribe | suspend | resume | emit => exact ih _

end EventBus

/-! ### What the calls ask for -/

namespace BusCall

/-- The events raised, in order. -/
def emitted (calls : List BusCall) : List ChangeEvent :=
  calls.filterMap fun
    | .emit ev => some ev
    | _ => none

@[simp] theorem emitted_nil : emitted [] = [] := rfl

@[simp] theorem emitted_append (calls more : List BusCall) :
    emitted (calls ++ more) = emitted calls ++ emitted more := List.filterMap_append

theorem emitted_cons (c : BusCall) (calls : List BusCall) :
    emitted (c :: calls) = emitted [c] ++ emitted calls := emitted_append [c] calls

/-- The number of handlers that came. -/
def subscriptions (calls : List BusCall) : Nat :=
  calls.countP fun
    | .subscribe => true
    | _ => false

theorem subscriptions_snoc (calls : List BusCall) (c : BusCall) :
    subscriptions (calls ++ [c]) = subscriptions calls + subscriptions [c] := List.countP_append

/-- The number of open suspends after one more call. A resume without an open suspend
    matches none. -/
def nest (depth : Nat) : BusCall → Nat
  | .suspend => depth + 1
  | .resume => depth - 1
  | _ => depth

/-- The number of suspends that no resume matches yet. -/
def openSuspends (calls : List BusCall) : Nat := calls.foldl nest 0

theorem openSuspends_snoc (calls : List BusCall) (c : BusCall) :
    openSuspends (calls ++ [c]) = nest (openSuspends calls) c := List.foldl_append

/-- Suspends and resumes match each other. -/
inductive Balanced : List BusCall → Prop where
  | nil : Balanced []
  | other {c : BusCall} {rest : List BusCall} (suspend : c ≠ .suspend) (resume : c ≠ .resume)
    (tail : Balanced rest) : Balanced (c :: rest)
  | nested {inner rest : List BusCall} (inside : Balanced inner) (tail : Balanced rest) :
    Balanced (.suspend :: (inner ++ .resume :: rest))

theorem Balanced.append {calls more : List BusCall} (h : Balanced calls) (hm : Balanced more) :
    Balanced (calls ++ more) := by
  induction h with
  | nil => exact hm
  | other suspend resume _ ih => exact .other suspend resume ih
  | @nested inner rest inside _ _ ih =>
    rw [List.cons_append, List.append_assoc]
    exact .nested inside ih

/-- A handler that came under this number has not been removed since. -/
def Listens (calls : List BusCall) (id : HandlerId) : Prop :=
  ∃ before later, calls = before ++ .subscribe :: later ∧ id = subscriptions before ∧
    .unsubscribe id ∉ later

/-- A handler that came under this number has been removed. -/
def Removed (calls : List BusCall) (id : HandlerId) : Prop :=
  ∃ before later, calls = before ++ .subscribe :: later ∧ id = subscriptions before ∧
    .unsubscribe id ∈ later

/-- The calls at which handlers are called, with the event that they receive. -/
inductive Delivers (calls : List BusCall) : BusCall → ChangeEvent → Prop where
  /-- An event is raised while no suspend is open. -/
  | now {ev : ChangeEvent} (idle : openSuspends calls = 0) : Delivers calls (.emit ev) ev
  /-- A resume matches an outermost suspend, and events were raised in between. -/
  | later {before inner : List BusCall} (split : calls = before ++ .suspend :: inner)
    (outermost : openSuspends before = 0) (balanced : Balanced inner)
    (raised : emitted inner ≠ []) : Delivers calls .resume (.batch (emitted inner))

/-! ### Open suspends -/

/-- An open suspend stands somewhere, and what follows it is balanced. -/
theorem exists_suspend (calls : List BusCall) {n : Nat} (h : openSuspends calls = n + 1) :
    ∃ before inner, calls = before ++ .suspend :: inner ∧ openSuspends before = n ∧
      Balanced inner := by
  rcases List.eq_nil_or_concat calls with rfl | ⟨init, c, rfl⟩
  · cases h
  rw [List.concat_eq_append] at h ⊢
  rw [openSuspends_snoc] at h
  cases c with
  | suspend => exact ⟨init, [], rfl, Nat.succ.inj h, .nil⟩
  | resume =>
    -- It matches the innermost suspend, so the one before is the innermost now.
    have hn : openSuspends init = (n + 1) + 1 := by
      simp only [nest] at h
      omega
    obtain ⟨outer, inner, rfl, houter, hinner⟩ := exists_suspend init hn
    obtain ⟨before, between, rfl, hbefore, hbetween⟩ := exists_suspend outer houter
    refine ⟨before, between ++ .suspend :: (inner ++ [.resume]), by simp, hbefore, ?_⟩
    exact hbetween.append (.nested hinner .nil)
  | subscribe | unsubscribe | emit =>
    obtain ⟨before, inner, rfl, hbefore, hinner⟩ := exists_suspend init h
    refine ⟨before, inner ++ [_], by rw [List.append_assoc]; rfl, hbefore, ?_⟩
    exact hinner.append (.other (by simp) (by simp) .nil)
termination_by calls.length

/-! ### Handlers that listen -/

theorem listens_snoc {calls : List BusCall} {c : BusCall} {id : HandlerId} :
    Listens (calls ++ [c]) id ↔
      (Listens calls id ∧ c ≠ .unsubscribe id) ∨ (c = .subscribe ∧ id = subscriptions calls) := by
  constructor
  · rintro ⟨before, later, hsplit, hid, hnot⟩
    rcases List.eq_nil_or_concat later with rfl | ⟨later, last, rfl⟩
    · obtain ⟨rfl, hc⟩ := List.append_inj' hsplit rfl
      exact Or.inr ⟨by simpa using hc, hid⟩
    · rw [List.concat_eq_append, ← List.cons_append, ← List.append_assoc] at hsplit
      obtain ⟨rfl, hc⟩ := List.append_inj' hsplit rfl
      cases hc
      rw [List.concat_eq_append, List.mem_append, List.mem_singleton, not_or] at hnot
      exact Or.inl ⟨⟨before, later, rfl, hid, hnot.1⟩, Ne.symm hnot.2⟩
  · rintro (⟨⟨before, later, rfl, hid, hnot⟩, hne⟩ | ⟨rfl, hid⟩)
    · refine ⟨before, later ++ [c], by simp, hid, ?_⟩
      rw [List.mem_append, List.mem_singleton, not_or]
      exact ⟨hnot, Ne.symm hne⟩
    · exact ⟨calls, [], rfl, hid, List.not_mem_nil⟩

theorem removed_snoc {calls : List BusCall} {c : BusCall} {id : HandlerId} :
    Removed (calls ++ [c]) id ↔
      Removed calls id ∨ (c = .unsubscribe id ∧ Listens calls id) := by
  constructor
  · rintro ⟨before, later, hsplit, hid, hmem⟩
    rcases List.eq_nil_or_concat later with rfl | ⟨later, last, rfl⟩
    · cases hmem
    · rw [List.concat_eq_append, ← List.cons_append, ← List.append_assoc] at hsplit
      obtain ⟨rfl, hc⟩ := List.append_inj' hsplit rfl
      cases hc
      rw [List.concat_eq_append, List.mem_append, List.mem_singleton] at hmem
      by_cases hold : .unsubscribe id ∈ later
      · exact Or.inl ⟨before, later, rfl, hid, hold⟩
      · exact Or.inr ⟨(hmem.resolve_left hold).symm, before, later, rfl, hid, hold⟩
  · rintro (⟨before, later, rfl, hid, hmem⟩ | ⟨rfl, before, later, rfl, hid, -⟩)
    · exact ⟨before, later ++ [c], by simp, hid, List.mem_append_left _ hmem⟩
    · exact ⟨before, later ++ [.unsubscribe id], by simp, hid, by simp⟩

theorem Removed.lt_subscriptions {calls : List BusCall} {id : HandlerId} (h : Removed calls id) :
    id < subscriptions calls := by
  obtain ⟨before, later, rfl, rfl, -⟩ := h
  have hcount : subscriptions (before ++ .subscribe :: later) =
      subscriptions before + (subscriptions later + 1) := by
    simp [subscriptions]
  rw [hcount]
  exact Nat.lt_add_of_pos_right (Nat.succ_pos _)

theorem not_listens_nil (id : HandlerId) : ¬ Listens [] id := by
  rintro ⟨before, later, hsplit, -⟩
  simp at hsplit

theorem not_removed_nil (id : HandlerId) : ¬ Removed [] id := by
  rintro ⟨before, later, hsplit, -⟩
  simp at hsplit

/-- A number is given out once, so who was removed listens no more. -/
theorem Removed.not_listens {calls : List BusCall} {id : HandlerId} (h : Removed calls id) :
    ¬ Listens calls id := by
  induction calls using List.reverseRecOn with
  | nil => exact fun _ => not_removed_nil id h
  | append_singleton calls c ih =>
    intro hl
    rcases removed_snoc.mp h with hold | ⟨rfl, -⟩
    · rcases listens_snoc.mp hl with ⟨hlistens, -⟩ | ⟨-, hid⟩
      · exact ih hold hlistens
      · exact absurd hid (Nat.ne_of_lt hold.lt_subscriptions)
    · rcases listens_snoc.mp hl with ⟨-, hne⟩ | ⟨hc, -⟩
      · exact hne rfl
      · cases hc

end BusCall

/-! ### What one call does -/

namespace EventBus

open BusCall

variable {b : EventBus}

/-- The ways in which a resume can go. -/
inductive Resumed (b : EventBus) : EventBus → Prop where
  /-- There is no suspend to undo. -/
  | spare (depth : b.depth = 0) : Resumed b b
  /-- Nothing was raised since the outermost suspend. -/
  | idle (depth : b.depth = 1) (queued : b.queued = []) : Resumed b { b with depth := 0 }
  | released (depth : b.depth = 1) (queued : b.queued ≠ []) :
    Resumed b (EventBus.deliver { b with depth := 0, queued := [] } (.batch b.queued))
  /-- Another suspend is still open. -/
  | inner {n : Nat} (depth : b.depth = n + 2) : Resumed b { b with depth := n + 1 }

theorem resumed_resume (b : EventBus) : b.Resumed b.resume := by
  unfold resume
  split
  · next h => exact .spare h
  · next h =>
    split
    · next hq => exact .idle h (List.isEmpty_iff.mp hq)
    · next hq => exact .released h fun hnil => hq (List.isEmpty_iff.mpr hnil)
  · next h => exact .inner h

theorem emit_eq (b : EventBus) (ev : ChangeEvent) :
    b.emit ev = if b.depth = 0 then b.deliver ev else { b with queued := b.queued ++ [ev] } := by
  unfold emit isSuspended
  by_cases hd : b.depth = 0
  · simp [hd]
  · simp [hd, Nat.pos_of_ne_zero hd]

theorem depth_call (b : EventBus) (c : BusCall) : (b.call c).depth = nest b.depth c := by
  cases c with
  | subscribe | unsubscribe | suspend => rfl
  | resume =>
    have h := resumed_resume b
    show b.resume.depth = b.depth - 1
    generalize b.resume = b' at h
    cases h with
    | spare depth | idle depth => rw [depth]
    | released depth | inner depth =>
      rw [depth]
      rfl
  | emit ev =>
    show (b.emit ev).depth = b.depth
    rw [emit_eq]
    split <;> rfl

theorem handlers_emit (b : EventBus) (ev : ChangeEvent) : (b.emit ev).handlers = b.handlers := by
  rw [emit_eq]
  split <;> rfl

theorem handlers_resume (b : EventBus) : b.resume.handlers = b.handlers := by
  have h := resumed_resume b
  generalize b.resume = b' at h
  cases h <;> rfl

theorem nextId_call (b : EventBus) (c : BusCall) :
    (b.call c).nextId = b.nextId + subscriptions [c] := by
  cases c with
  | subscribe | unsubscribe | suspend => rfl
  | resume =>
    have h := resumed_resume b
    show b.resume.nextId = b.nextId
    generalize b.resume = b' at h
    cases h <;> rfl
  | emit ev =>
    show (b.emit ev).nextId = b.nextId
    rw [emit_eq]
    split <;> rfl

theorem mem_handlers_call {c : BusCall} {id : HandlerId} :
    id ∈ (b.call c).handlers ↔
      (id ∈ b.handlers ∧ c ≠ .unsubscribe id) ∨ (c = .subscribe ∧ id = b.nextId) := by
  cases c with
  | subscribe => simp [call, EventBus.subscribe]
  | unsubscribe other =>
    have hne : BusCall.unsubscribe other ≠ .unsubscribe id ↔ id ≠ other := by
      simp [eq_comm (a := id)]
    simp [call, EventBus.unsubscribe, hne]
  | suspend => simp [call, EventBus.suspend]
  | resume => simp [call, handlers_resume]
  | emit ev => simp [call, handlers_emit]

/-- What is held back goes to the handlers, or nothing does. -/
theorem delivered_resume (b : EventBus) :
    b.resume.delivered =
      b.delivered ++ if b.depth = 1 ∧ b.queued ≠ [] then [⟨b.handlers, .batch b.queued⟩] else [] := by
  have h := resumed_resume b
  generalize b.resume = b' at h
  cases h with
  | spare depth | inner depth => simp [depth]
  | idle depth queued => simp [queued]
  | released depth queued =>
    rw [if_pos ⟨depth, queued⟩]
    rfl

theorem delivered_emit (b : EventBus) (ev : ChangeEvent) :
    (b.emit ev).delivered = b.delivered ++ if b.depth = 0 then [⟨b.handlers, ev⟩] else [] := by
  rw [emit_eq]
  split
  · rfl
  · exact (List.append_nil _).symm

/-- A call lets one event go, or none; those called are the handlers of the moment. -/
theorem delivered_call_cases (b : EventBus) (c : BusCall) :
    (b.call c).delivered = b.delivered ∨
      ∃ ev, (b.call c).delivered = b.delivered ++ [⟨b.handlers, ev⟩] := by
  cases c with
  | subscribe | unsubscribe | suspend => exact Or.inl rfl
  | resume =>
    by_cases h : b.depth = 1 ∧ b.queued ≠ []
    · exact Or.inr ⟨_, (delivered_resume b).trans (by rw [if_pos h])⟩
    · exact Or.inl ((delivered_resume b).trans (by rw [if_neg h, List.append_nil]))
  | emit ev =>
    by_cases h : b.depth = 0
    · exact Or.inr ⟨ev, (delivered_emit b ev).trans (by rw [if_pos h])⟩
    · exact Or.inl ((delivered_emit b ev).trans (by rw [if_neg h, List.append_nil]))

/-! ### What every bus keeps to -/

/-- The events are in order, and so are the handlers, and a number yet to be given out
    was never used. -/
structure Kept (b : EventBus) : Prop where
  orderly : b.Orderly
  sorted : b.handlers.Pairwise (· < ·)
  below : ∀ id ∈ b.handlers, id < b.nextId
  past : ∀ d ∈ b.delivered, ∀ id ∈ d.receivers, id < b.nextId

theorem Kept.numbered (h : b.Kept) : b.Numbered :=
  ⟨h.sorted.imp Nat.ne_of_lt, h.below⟩

theorem Kept.call (h : b.Kept) (c : BusCall) : (b.call c).Kept where
  orderly := by
    cases c with
    | subscribe | unsubscribe => exact h.orderly
    | suspend => exact .suspend b
    | resume => exact h.orderly.resume
    | emit ev => exact h.orderly.emit ev
  sorted := by
    cases c with
    | subscribe =>
      refine List.pairwise_append.mpr
        ⟨h.sorted, List.pairwise_singleton .., fun id hid new hn => ?_⟩
      cases List.mem_singleton.mp hn
      exact h.below id hid
    | unsubscribe id => exact h.sorted.filter _
    | suspend => exact h.sorted
    | resume => exact (handlers_resume b).symm ▸ h.sorted
    | emit ev => exact (handlers_emit b ev).symm ▸ h.sorted
  below id hid := by
    rw [nextId_call]
    rcases mem_handlers_call.mp hid with ⟨hold, -⟩ | ⟨rfl, rfl⟩
    · exact Nat.lt_add_right _ (h.below id hold)
    · exact Nat.lt_succ_self _
  past d hd id hid := by
    rw [nextId_call]
    refine Nat.lt_add_right _ ?_
    rcases delivered_call_cases b c with heq | ⟨ev, heq⟩
    · exact h.past d (heq ▸ hd) id hid
    · rw [heq, List.mem_append, List.mem_singleton] at hd
      rcases hd with hold | rfl
      · exact h.past d hold id hid
      · exact h.below id hid

theorem kept_after (calls : List BusCall) : (after calls).Kept := by
  induction calls using List.reverseRecOn with
  | nil =>
    exact ⟨fun _ => rfl, .nil, fun _ h => (List.not_mem_nil h).elim,
      fun _ h => (List.not_mem_nil h).elim⟩
  | append_singleton calls c ih =>
    rw [after_snoc]
    exact ih.call c

/-- A number yet to be given out has received nothing. -/
theorem Kept.received_nextId (h : b.Kept) : b.received b.nextId = [] := by
  refine List.flatMap_eq_nil_iff.mpr fun d hd => ?_
  have hcount : d.receivers.count b.nextId = 0 :=
    List.count_eq_zero.mpr fun hmem => Nat.lt_irrefl _ (h.past d hd _ hmem)
  rw [hcount]
  rfl

/-! ### The account of a handler -/

/-- What a handler received and what it has yet to receive, batches opened. -/
def account (b : EventBus) (id : HandlerId) : List ChangeEvent :=
  (b.received id).flatMap ChangeEvent.flatten ++ b.queued.flatMap ChangeEvent.flatten

theorem account_released (h : b.Numbered) {id : HandlerId} (hid : id ∈ b.handlers) :
    (EventBus.deliver { b with depth := 0, queued := [] } (.batch b.queued)).account id =
      b.account id := by
  have hreceived : (EventBus.deliver { b with depth := 0, queued := [] }
      (.batch b.queued)).received id = b.received id ++ [.batch b.queued] :=
    (received_deliver h (.batch b.queued) id).trans (by rw [if_pos hid])
  unfold account
  rw [hreceived, List.flatMap_append, List.flatMap_singleton]
  simp [deliver, ChangeEvent.flatten, ChangeEvent.flattenAll_eq]

/-- A call adds the event that it raises to the account of every handler. -/
theorem account_call (h : b.Kept) {id : HandlerId} (hid : id ∈ b.handlers) (c : BusCall) :
    (b.call c).account id = b.account id ++ (emitted [c]).flatMap ChangeEvent.flatten := by
  cases c with
  | subscribe | unsubscribe | suspend => exact (List.append_nil _).symm
  | resume =>
    refine Eq.trans ?_ (List.append_nil _).symm
    have hresumed := resumed_resume b
    show b.resume.account id = b.account id
    generalize b.resume = b' at hresumed
    cases hresumed with
    | spare | idle | inner => rfl
    | released => exact account_released h.numbered hid
  | emit ev =>
    show (b.emit ev).account id = b.account id ++ [ev].flatMap ChangeEvent.flatten
    rw [emit_eq]
    split
    · next hd =>
      have hqueue : b.queued = [] := h.orderly hd
      have hdelivered : (b.deliver ev).queued = [] := hqueue
      unfold account
      rw [received_deliver h.numbered, if_pos hid, hdelivered, hqueue, List.flatMap_append]
      simp
    · simp [account, received]

/-- The same of many calls, as long as the handler stays. -/
theorem account_foldl (h : b.Kept) {id : HandlerId} (hid : id ∈ b.handlers)
    {calls : List BusCall} (hstays : .unsubscribe id ∉ calls) :
    (calls.foldl call b).account id =
      b.account id ++ (emitted calls).flatMap ChangeEvent.flatten := by
  induction calls generalizing b with
  | nil => simp
  | cons c rest ih =>
    rw [List.mem_cons, not_or] at hstays
    have hid' : id ∈ (b.call c).handlers := mem_handlers_call.mpr (Or.inl ⟨hid, Ne.symm hstays.1⟩)
    rw [List.foldl_cons, ih (h.call c) hid' hstays.2, account_call h hid c, emitted_cons c rest,
      List.flatMap_append, List.append_assoc]

/-! ### What a bus let go -/

/-- Events join those held back, and no handler is called. -/
structure Queues (b b' : EventBus) (events : List ChangeEvent) : Prop where
  depth : b'.depth = b.depth
  queued : b'.queued = b.queued ++ events
  delivered : b'.delivered = b.delivered

namespace Queues

variable {b' b'' : EventBus} {events more : List ChangeEvent}

theorem silent (hd : b'.depth = b.depth) (hq : b'.queued = b.queued)
    (hdel : b'.delivered = b.delivered) : Queues b b' [] :=
  ⟨hd, by rw [hq, List.append_nil], hdel⟩

theorem trans (h : Queues b b' events) (h' : Queues b' b'' more) : Queues b b'' (events ++ more) :=
  ⟨h'.depth.trans h.depth, by rw [h'.queued, h.queued, List.append_assoc],
    h'.delivered.trans h.delivered⟩

theorem emit (h : 0 < b.depth) (ev : ChangeEvent) : Queues b (b.emit ev) [ev] := by
  have hemit : b.emit ev = { b with queued := b.queued ++ [ev] } := foldl_emit_of_suspended h [ev]
  rw [hemit]
  exact ⟨rfl, rfl, rfl⟩

/-- The resume of an inner suspend lets nothing go. -/
theorem nested (h : Queues b.suspend b' events) (hdepth : 0 < b.depth) :
    Queues b b'.resume events := by
  have hb' : b'.depth = b.depth + 1 := h.depth
  have hresumed := resumed_resume b'
  generalize b'.resume = last at hresumed
  cases hresumed with
  | spare hd | idle hd | released hd => omega
  | inner hd => exact ⟨(Nat.succ.inj (hb'.symm.trans hd)).symm, h.queued, h.delivered⟩

end Queues

/-- What happens between a suspend and its resume leaves the handlers uncalled. -/
theorem queues_of_balanced {inner : List BusCall} (h : Balanced inner) (hdepth : 0 < b.depth) :
    Queues b (inner.foldl call b) (emitted inner) := by
  induction h generalizing b with
  | nil => exact .silent rfl rfl rfl
  | @other c rest hs hr _ ih =>
    have hone : Queues b (b.call c) (emitted [c]) := by
      cases c with
      | suspend => exact absurd rfl hs
      | resume => exact absurd rfl hr
      | subscribe | unsubscribe => exact .silent rfl rfl rfl
      | emit ev => exact .emit hdepth ev
    rw [emitted_cons]
    exact hone.trans (ih (hone.depth ▸ hdepth))
  | @nested inner rest _ _ ihInner ihRest =>
    have hinner : Queues b (inner.foldl call b.suspend).resume (emitted inner) :=
      (ihInner (Nat.succ_pos _)).nested hdepth
    have hall := hinner.trans (ihRest (hinner.depth ▸ hdepth))
    have hemitted : emitted (.suspend :: (inner ++ .resume :: rest)) =
        emitted inner ++ emitted rest := by
      rw [emitted_cons, emitted_append, emitted_cons .resume]
      rfl
    rw [hemitted, List.foldl_cons, List.foldl_append]
    exact hall

theorem depth_after (calls : List BusCall) : (after calls).depth = openSuspends calls := by
  induction calls using List.reverseRecOn with
  | nil => rfl
  | append_singleton calls c ih => rw [after_snoc, depth_call, ih, openSuspends_snoc]

/-- What is held back after an outermost suspend is what was raised since. -/
theorem queued_after {before inner : List BusCall} (houter : openSuspends before = 0)
    (h : Balanced inner) :
    (after (before ++ .suspend :: inner)).depth = 1 ∧
      (after (before ++ .suspend :: inner)).queued = emitted inner := by
  have hdepth : (after before).depth = 0 := (depth_after before).trans houter
  have hidle : (after before).queued = [] := (kept_after before).orderly hdepth
  have hheld : Queues (after before).suspend (inner.foldl call (after before).suspend)
      (emitted inner) := queues_of_balanced h (Nat.succ_pos _)
  have hfold : after (before ++ .suspend :: inner) = inner.foldl call (after before).suspend :=
    after_append before _
  rw [hfold]
  refine ⟨hheld.depth.trans (congrArg (· + 1) hdepth), hheld.queued.trans ?_⟩
  show (after before).queued ++ _ = _
  rw [hidle, List.nil_append]

theorem delivered_of_delivers {calls : List BusCall} {c : BusCall} {ev : ChangeEvent}
    (h : Delivers calls c ev) :
    (after (calls ++ [c])).delivered =
      (after calls).delivered ++ [⟨(after calls).handlers, ev⟩] := by
  rw [after_snoc]
  cases h with
  | now idle => exact (delivered_emit _ ev).trans (by rw [if_pos ((depth_after calls).trans idle)])
  | @later before inner split outermost balanced raised =>
    subst split
    obtain ⟨hdepth, hqueue⟩ := queued_after outermost balanced
    refine (delivered_resume _).trans ?_
    rw [hqueue, if_pos ⟨hdepth, raised⟩]

theorem delivered_of_not_delivers {calls : List BusCall} {c : BusCall}
    (h : ∀ ev, ¬ Delivers calls c ev) :
    (after (calls ++ [c])).delivered = (after calls).delivered := by
  rw [after_snoc]
  cases c with
  | subscribe | unsubscribe | suspend => rfl
  | resume =>
    refine (delivered_resume _).trans ?_
    rw [if_neg, List.append_nil]
    rintro ⟨hdepth, hqueue⟩
    obtain ⟨before, inner, rfl, houter, hinner⟩ :=
      exists_suspend calls ((depth_after calls).symm.trans hdepth)
    rw [(queued_after houter hinner).2] at hqueue
    exact h _ (.later rfl houter hinner hqueue)
  | emit ev =>
    refine (delivered_emit _ ev).trans ?_
    rw [if_neg, List.append_nil]
    exact fun hdepth => h ev (.now ((depth_after calls).symm.trans hdepth))

/-! ### The handlers of a bus -/

theorem nextId_after (calls : List BusCall) : (after calls).nextId = subscriptions calls := by
  induction calls using List.reverseRecOn with
  | nil => rfl
  | append_singleton calls c ih => rw [after_snoc, nextId_call, ih, subscriptions_snoc]

theorem mem_handlers_after {calls : List BusCall} {id : HandlerId} :
    id ∈ (after calls).handlers ↔ Listens calls id := by
  induction calls using List.reverseRecOn with
  | nil => exact ⟨fun h => (List.not_mem_nil h).elim, fun h => (not_listens_nil id h).elim⟩
  | append_singleton calls c ih =>
    rw [after_snoc, mem_handlers_call, listens_snoc, ih, nextId_after]

theorem unsubscribe_after {calls : List BusCall} {id : HandlerId} :
    ((after calls).unsubscribe id).1 = true ↔ Listens calls id :=
  List.contains_iff_mem.trans mem_handlers_after

open Classical in
/-- A removal is answered with true if the handler is there, which it is once. -/
theorem count_answers (calls : List BusCall) (id : HandlerId) :
    (empty.answers calls).count (id, true) = if Removed calls id then 1 else 0 := by
  induction calls using List.reverseRecOn with
  | nil => rw [if_neg (not_removed_nil id)]; rfl
  | append_singleton calls c ih =>
    rw [answers_append, List.count_append, ih]
    -- Only a call to remove this handler adds an answer about it.
    have hother (hc : c ≠ .unsubscribe id) :
        (if Removed calls id then 1 else 0) +
            ((calls.foldl call empty).answers [c]).count (id, true) =
          if Removed (calls ++ [c]) id then 1 else 0 := by
      have hnone : ((calls.foldl call empty).answers [c]).count (id, true) = 0 := by
        cases c with
        | unsubscribe other =>
          refine List.count_eq_zero.mpr fun hmem => hc ?_
          rw [(Prod.mk.inj (List.mem_singleton.mp hmem)).1]
        | subscribe | suspend | resume | emit => rfl
      have hsame : Removed (calls ++ [c]) id ↔ Removed calls id :=
        removed_snoc.trans (or_iff_left fun h => hc h.1)
      simp only [hnone, hsame, Nat.add_zero]
    by_cases hc : c = .unsubscribe id
    · subst hc
      show _ + List.count (id, true) [(id, ((after calls).unsubscribe id).1)] = _
      by_cases hl : Listens calls id
      · have hnot : ¬ Removed calls id := fun h => h.not_listens hl
        rw [unsubscribe_after.mpr hl, if_neg hnot,
          if_pos (removed_snoc.mpr (Or.inr ⟨rfl, hl⟩)), List.count_singleton_self]
      · have hanswer : ((after calls).unsubscribe id).1 = false := by
          simpa using mt unsubscribe_after.mp hl
        have hsame : Removed (calls ++ [.unsubscribe id]) id ↔ Removed calls id :=
          removed_snoc.trans (or_iff_left fun h => hl h.2)
        rw [hanswer]
        simp [hsame]
    · exact hother hc

/-! ### Conservation -/

/-- What a bus has done after the calls to it, and does at the next one. -/
structure Conserves (calls : List BusCall) : Prop where
  /-- Events are held back exactly while a suspend is open. -/
  depth : (after calls).depth = openSuspends calls
  idle : (after calls).depth = 0 → (after calls).queued = []
  /-- A handler that stays has received, or will receive with what is held back, all that
      was held back when it came and all that was raised since: each event once, in the
      order in which they were raised. -/
  account : ∀ before later id, calls = before ++ .subscribe :: later → id = subscriptions before →
    .unsubscribe id ∉ later →
      ((after calls).received id).flatMap ChangeEvent.flatten ++
          (after calls).queued.flatMap ChangeEvent.flatten =
        (after before).queued.flatMap ChangeEvent.flatten ++
          (emitted later).flatMap ChangeEvent.flatten
  /-- Handlers are numbered in the order in which they come, and are kept in it. -/
  number : (after calls).subscribe.1 = subscriptions calls
  order : (after calls).handlers.Pairwise (· < ·)
  listening : ∀ id, id ∈ (after calls).handlers ↔ Listens calls id
  /-- A handler can be removed while it is there, hence once. -/
  answer : ∀ id, ((after calls).unsubscribe id).1 = true ↔ Listens calls id
  once : ∀ id, (empty.answers calls).count (id, true) ≤ 1 ∧
    ((empty.answers calls).count (id, true) = 1 ↔ Removed calls id)
  /-- A call that delivers an event calls every handler of the moment with it. -/
  delivers : ∀ c ev, Delivers calls c ev → (after (calls ++ [c])).delivered =
    (after calls).delivered ++ [⟨(after calls).handlers, ev⟩]
  /-- No other call calls any handler. -/
  quiet : ∀ c, (∀ ev, ¬ Delivers calls c ev) →
    (after (calls ++ [c])).delivered = (after calls).delivered

/-- No event is lost, repeated or moved, however handlers come and go and however suspends
    and resumes are mixed. -/
theorem conserves (calls : List BusCall) : Conserves calls where
  depth := depth_after calls
  idle := (kept_after calls).orderly
  account before later id hsplit hid hstays := by
    subst hsplit hid
    have hkept := kept_after before
    have hnext : subscriptions before = (after before).nextId := (nextId_after before).symm
    have hcame : subscriptions before ∈ (after before).subscribe.2.handlers := by
      simp [EventBus.subscribe, hnext]
    have hfold : after (before ++ .subscribe :: later) =
        later.foldl call (after before).subscribe.2 := after_append before _
    have hstart : (after before).subscribe.2.account (subscriptions before) =
        (after before).queued.flatMap ChangeEvent.flatten := by
      show ((after before).received _).flatMap _ ++ _ = _
      rw [hnext, hkept.received_nextId]
      rfl
    have hall := account_foldl (hkept.call .subscribe) hcame hstays
    rw [← hstart, hfold]
    exact hall
  number := nextId_after calls
  order := (kept_after calls).sorted
  listening _ := mem_handlers_after
  answer _ := unsubscribe_after
  once id := by
    rw [count_answers]
    split
    · next h => exact ⟨Nat.le_refl 1, iff_of_true rfl h⟩
    · next h => exact ⟨Nat.zero_le 1, iff_of_false Nat.zero_ne_one h⟩
  delivers _ _ h := delivered_of_delivers h
  quiet _ h := delivered_of_not_delivers h

/-- A handler that comes while events are held back receives those raised before, too. -/
example (e : Entity) :
    (after [.suspend, .emit (.created e), .subscribe, .emit (.modified e), .resume]).received 0 =
      [.batch [.created e, .modified e]] := rfl

end EventBus

end EntityBook
