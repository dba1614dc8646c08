import EntityBook.Proofs.Copy.Exchange
import EntityBook.Proofs.Payload.Bag
import EntityBook.Proofs.Undo.Zipper

/-! # The history of a book

  Whatever is done to a book, its undo log moves as a zipper that keeps as many
  operations as the settings allow: the end of an operation commits it, undo and redo
  move one operation, forgetting empties both stacks, and everything else leaves them
  alone. What is recorded on the way is looked at before the operation ends, so nothing
  that is kept waits to be seen.
-/

namespace EntityBook

variable {P : PayloadFamily}

namespace Book

/-! ### What was seen -/

theorem capture_ne_pending (b : Book P) (e : Entity) (p : Param P) (path : Option String) :
    b.capture e p path ≠ .pending := by
  unfold capture
  repeat' split
  all_goals simp

/-- A snapshot sees values. -/
theorem exists_text_of_mem_snapshot {i : Instance P} {p : Param P}
    {captures : List (Option String × Capture)} (h : snapshot i p = .ok captures)
    {x : Option String × Capture} (hx : x ∈ captures) : ∃ s, x.2 = .value s := by
  unfold snapshot at h
  split at h
  · rw [← Except.ok.inj h] at hx
    obtain ⟨leaf, _, rfl⟩ := List.mem_map.mp hx
    exact ⟨_, rfl⟩
  · split at h
    · rw [← Except.ok.inj h] at hx
      rw [List.mem_singleton.mp hx]
      exact ⟨_, rfl⟩
    · cases h

theorem exists_text_of_mem_snapshots {e : Entity} {i : Instance P} {after : Capture → Capture}
    {ps : List (Param P)} {us : List (UndoEntry P)} (h : snapshots e i after ps = .ok us)
    {u : UndoEntry P} (hu : u ∈ us) :
    ∃ s, u.before = .value s ∧ u.after = after (.value s) := by
  induction ps generalizing us with
  | nil =>
    rw [← Except.ok.inj h] at hu
    cases hu
  | cons p rest ih =>
    unfold snapshots at h
    split at h
    · cases h
    · next captures hc =>
      split at h
      · cases h
      · next entries hr =>
        rw [← Except.ok.inj h] at hu
        rcases List.mem_append.mp hu with hu | hu
        · obtain ⟨⟨path, before⟩, hx, rfl⟩ := List.mem_map.mp hu
          obtain ⟨s, rfl⟩ := exists_text_of_mem_snapshot hc hx
          exact ⟨s, rfl, rfl⟩
        · exact ih hr hu

theorem before_newSlots {b : Book P} {entries : List (UndoEntry P)} {e : Entity} {p : Param P}
    {u : UndoEntry P} (hu : u ∈ b.newSlots entries e p) : u.before = .absent := by
  unfold newSlots at hu
  split at hu
  · cases hu
  · obtain ⟨leaf, _, rfl⟩ := List.mem_map.mp hu
    rfl

theorem before_addNewSlots {b : Book P} {entries : List (UndoEntry P)}
    (h : ∀ u ∈ entries, u.before ≠ .pending) (watched : List (Entity × Param P)) :
    ∀ u ∈ b.addNewSlots entries watched, u.before ≠ .pending := by
  induction watched generalizing entries with
  | nil => exact h
  | cons w rest ih =>
    refine ih fun u hu => ?_
    rcases List.mem_append.mp hu with hu | hu
    · exact h u hu
    · simp [before_newSlots hu]

/-- Closing an entry fills in what was not seen. -/
theorem seen_close (b : Book P) {u : UndoEntry P} (h : u.before ≠ .pending) :
    (b.close u).Seen := by
  cases u with
  | created e => simp [close, UndoEntry.Seen, UndoEntry.before, UndoEntry.after]
  | deleted e => simp [close, UndoEntry.Seen, UndoEntry.before, UndoEntry.after]
  | changed c =>
    refine ⟨h, ?_⟩
    show (if c.after = .pending then b.capture c.entity c.param c.path else c.after) ≠ .pending
    split
    · exact capture_ne_pending b _ _ _
    · next hne => exact hne

theorem before_refresh (b : Book P) (e : Entity) (p : Param P) (name : String)
    (u : UndoEntry P) : (b.refresh e p name u).before = u.before := by
  unfold refresh
  split
  · split
    · rfl
    · rfl
  · rfl

theorem before_unannounced {b : Book P} {e : Entity} {p : Param P} {name : String}
    {current : List (Option String × Capture)} {u : UndoEntry P}
    (hu : u ∈ b.unannounced e p name current) : u.before ≠ .pending := by
  unfold unannounced at hu
  obtain ⟨path, _, rfl⟩ := List.mem_map.mp hu
  show (b.undo.lastKnown e name path).getD .absent ≠ .pending
  have hknown := UndoLog.lastKnown_ne_pending b.undo e name path
  cases hk : b.undo.lastKnown e name path with
  | none => simp
  | some seen =>
    intro heq
    exact hknown (hk.trans (congrArg some heq))

/-! ### Calls that leave the stacks alone -/

/-- A book keeps the operations of its log and the cursor; what it records is sound if
    it was before. -/
structure KeepsStacks (b b' : Book P) : Prop where
  config : b'.config = b.config
  operations : b'.undo.operations = b.undo.operations
  cursor : b'.undo.cursor = b.undo.cursor
  recording : (∀ o, b.undo.recording = some o → o.Sound) →
    ∀ o, b'.undo.recording = some o → o.Sound

namespace KeepsStacks

variable {a b c : Book P}

theorem of_eq (hconfig : b.config = a.config) (hundo : b.undo = a.undo) : a.KeepsStacks b where
  config := hconfig
  operations := congrArg UndoLog.operations hundo
  cursor := congrArg UndoLog.cursor hundo
  recording h := by
    rw [hundo]
    exact h

theorem refl (b : Book P) : b.KeepsStacks b := of_eq rfl rfl

theorem of_keeps (h : a.Keeps b) : a.KeepsStacks b := of_eq h.config h.undo

theorem trans (h : a.KeepsStacks b) (h' : b.KeepsStacks c) : a.KeepsStacks c where
  config := h'.config.trans h.config
  operations := h'.operations.trans h.operations
  cursor := h'.cursor.trans h.cursor
  recording := fun ha => h'.recording (h.recording ha)

/-- Replacing the open operation by a sound one. -/
theorem setRecording (b : Book P) {r : Option (OpenOperation P)}
    (h : (∀ o, b.undo.recording = some o → o.Sound) → ∀ o, r = some o → o.Sound) :
    b.KeepsStacks (b.setRecording r) :=
  ⟨rfl, rfl, rfl, h⟩

theorem zipper (h : a.KeepsStacks b) : b.undo.zipper = a.undo.zipper := by
  unfold UndoLog.zipper UndoLog.past UndoLog.future
  rw [h.operations, h.cursor]

theorem sound (h : a.KeepsStacks b) (ha : a.undo.Sound a.config.undoLimit) :
    b.undo.Sound b.config.undoLimit where
  cursor_le := by
    rw [h.operations, h.cursor]
    exact ha.cursor_le
  length_le := by
    rw [h.operations, h.config]
    exact ha.length_le
  seen := by
    rw [h.operations]
    exact ha.seen
  recording := h.recording ha.recording

/-- A loop whose rounds keep the stacks. -/
theorem foldl {ι : Type} {round : Book P → ι → Book P}
    (h : ∀ (b : Book P) x, b.KeepsStacks (round b x)) (xs : List ι) (b : Book P) :
    b.KeepsStacks (xs.foldl round b) := by
  induction xs generalizing b with
  | nil => exact refl b
  | cons x rest ih => exact (h b x).trans (ih (round b x))

/-! #### Recording -/

theorem startOperation (b : Book P) (label : String) : b.KeepsStacks (b.startOperation label) := by
  unfold Book.startOperation
  split
  · refine setRecording b fun _ o ho => ?_
    rw [← Option.some.inj ho]
    exact ⟨fun u hu => (nomatch hu), fun u hu => (nomatch hu)⟩
  · exact refl b

/-- Adding entries whose values before were seen. -/
theorem addEntries {o : OpenOperation P} (ho : b.recording? = some o)
    {entries : List (UndoEntry P)} (h : ∀ u ∈ entries, u.before ≠ .pending) :
    b.KeepsStacks (b.addEntries o entries) := by
  refine setRecording b fun hb o' ho' => ?_
  have hsound := hb o (recording?_eq_some ho)
  rw [← Option.some.inj ho']
  refine ⟨fun u hu => ?_, hsound.baseline⟩
  rcases List.mem_append.mp hu with hu | hu
  · exact hsound.entries u hu
  · exact h u hu

theorem recordCreate (b : Book P) (e : Entity) : b.KeepsStacks (b.recordCreate e) := by
  cases ho : b.recording? with
  | none =>
    rw [recordCreate_of_none ho]
    exact refl b
  | some o =>
    rw [recordCreate_of_some ho]
    refine addEntries ho fun u hu => ?_
    rw [List.mem_singleton.mp hu]
    simp [UndoEntry.before]

theorem recordDelete (b : Book P) (e : Entity) : b.KeepsStacks (b.recordDelete e).2 := by
  have hrecords := b.recordsDelete e
  generalize b.recordDelete e = out at hrecords
  cases hrecords with
  | idle | unknown | gone | unread => exact refl b
  | recorded recording _ _ seen =>
    refine addEntries recording fun u hu => ?_
    rcases List.mem_cons.mp hu with rfl | hu
    · simp [UndoEntry.before]
    · obtain ⟨s, hbefore, _⟩ := exists_text_of_mem_snapshots seen hu
      simp [hbefore]

theorem sound_ensureBaseline {o o' : OpenOperation P} {e : Entity}
    (h : b.ensureBaseline o e = .ok o') (ho : o.Sound) : o'.Sound := by
  have henrolls := b.enrolls o e
  rw [h] at henrolls
  cases henrolls with
  | present => exact ho
  | added _ _ _ seen =>
    refine ⟨ho.entries, fun u hu => ?_⟩
    rcases List.mem_append.mp hu with hu | hu
    · exact ho.baseline u hu
    · obtain ⟨s, hbefore, hafter⟩ := exists_text_of_mem_snapshots seen hu
      exact ⟨by simp [hbefore], by simp [hafter]⟩

/-- Recording goes on with an operation that the open one has become, if that is sound
    when the one whose baseline is prepared is. -/
theorem record {e : Entity} {name : String} {p : Param P} {o o' o'' : OpenOperation P}
    (ready : b.Prepares e name p o o') (h : o'.Sound → o''.Sound) :
    b.KeepsStacks (b.setRecording (some o'')) := by
  refine setRecording b fun hb x hx => ?_
  rw [← Option.some.inj hx]
  exact h (sound_ensureBaseline ready.baseline (hb o (recording?_eq_some ready.recording)))

theorem recordBefore (b : Book P) (e : Entity) (name : String) :
    b.KeepsStacks (b.recordBefore e name).2 := by
  have hrecords := b.recordsBefore e name
  generalize b.recordBefore e name = out at hrecords
  cases hrecords with
  | idle | unknown | unprepared => exact refl b
  | again ready | gone ready | unread ready => exact record ready fun h => h
  | first ready _ _ seen =>
    refine record ready fun hsound => ⟨fun u hu => ?_, hsound.baseline⟩
    rcases List.mem_append.mp hu with hu | hu
    · exact hsound.entries u hu
    · obtain ⟨s, hbefore, _⟩ := exists_text_of_mem_snapshots seen hu
      simp [hbefore]

theorem recordAfter (b : Book P) (e : Entity) (name : String) :
    b.KeepsStacks (b.recordAfter e name).2 := by
  have hrecords := b.recordsAfter e name
  generalize b.recordAfter e name = out at hrecords
  cases hrecords with
  | idle | unknown | unprepared => exact refl b
  | gone ready | unread ready => exact record ready fun h => h
  | filled ready =>
    refine record ready fun hsound => ⟨fun u hu => ?_, hsound.baseline⟩
    obtain ⟨v, hv, rfl⟩ := List.mem_map.mp hu
    rw [before_refresh]
    rcases List.mem_append.mp hv with hv | hv
    · exact hsound.entries v hv
    · obtain ⟨_, _, _, hnew⟩ := mem_watchedSlots hv
      simp [before_newSlots hnew]
  | unannounced ready =>
    refine record ready fun hsound => ⟨fun u hu => ?_, hsound.baseline⟩
    rcases List.mem_append.mp hu with hu | hu
    · exact hsound.entries u hu
    · exact before_unannounced hu

theorem writeText (b : Book P) (e : Entity) (name s : String) :
    b.KeepsStacks (b.writeText e name s).2 := by
  unfold Book.writeText
  split
  · exact refl b
  · exact of_keeps (.tryEdit b e _)

theorem modify (b : Book P) (e : Entity) (name s : String) :
    b.KeepsStacks (b.modify e name s).2 := by
  have hbefore := recordBefore b e name
  have hwrite := hbefore.trans (writeText _ e name s)
  have hmodifies := b.modifies e name s
  generalize b.modify e name s = out at hmodifies
  cases hmodifies with
  | unrecorded => exact hbefore
  | unwritten => exact hwrite
  | written => exact hwrite.trans (recordAfter _ e name)

/-! #### Replay -/

theorem restore (b : Book P) (c : Change P) (seen : Capture) :
    b.KeepsStacks (b.restore c seen) := by
  unfold Book.restore
  repeat' split
  · exact refl b
  · exact refl b
  · exact refl b
  · exact of_keeps (.tryEdit b c.entity _)
  · exact of_keeps (.edit b c.entity _)
  · exact refl b
  · exact of_keeps (.edit b c.entity _)

theorem instantiate (b : Book P) (e : Entity) : b.KeepsStacks (b.instantiate e) := by
  unfold Book.instantiate
  split
  · exact refl b
  · rcases create_cases b e.typeTag e.guid with heq | ⟨i, _, heq⟩
    · rw [heq]
      exact refl b
    · rw [heq]
      exact of_eq rfl rfl

theorem destroy (b : Book P) (e : Entity) : b.KeepsStacks (b.destroy e) := by
  unfold Book.destroy
  split
  · exact of_keeps (.delete b e)
  · exact refl b

/-- A replay adds nothing to the log. -/
theorem replay (b : Book P) (entries : List (UndoEntry P)) (d : Direction) :
    b.KeepsStacks (b.replay entries d) := by
  rw [replay_eq]
  have hstart : b.KeepsStacks b.suspend := of_eq rfl rfl
  have hmade := hstart.trans (foldl instantiate (entitiesOf entries d.made) b.suspend)
  have hrestored := hmade.trans
    (foldl (fun b c => restore b c (d.side c)) (changesOf entries d) _)
  have hremoved := hrestored.trans (foldl destroy (entitiesOf entries d.removed) _)
  exact hremoved.trans (of_eq rfl rfl)

/-! #### Other calls -/

theorem write (b : Book P) (e : Entity) (name : String) (v : ParamValue) :
    b.KeepsStacks (b.write e name v).2 := by
  unfold Book.write
  split
  · exact refl b
  · exact of_keeps (.tryEdit b e _)

theorem register (b : Book P) (c : ObjectClass P) (unique : c.WellFormed) :
    b.KeepsStacks (b.call (.register c unique)) := by
  cases hr : b.registry.register c with
  | error err =>
    simp only [call, hr]
    exact refl b
  | ok r =>
    simp only [call, hr]
    exact of_eq rfl rfl

end KeepsStacks

/-! ### What a call does to the stacks -/

/-- The operations that the end of the open operation commits, if anything was recorded. -/
def committed? (b : Book P) : Option (List (UndoOperation P)) :=
  match b.undo.recording with
  | none => none
  | some o =>
    let entries := (b.addNewSlots o.entries o.watched).map b.close
    if entries.isEmpty then none else some (o.operations b.config.baselineLabel entries)

/-- What a call does to the two stacks of the log. -/
def shift (b : Book P) : Call P → Shift P
  | .endOperation =>
    match b.committed? with
    | some operations => .commit operations
    | none => .stay
  | .undo => .undo
  | .redo => .redo
  | .clearUndo => .clear
  | _ => .stay

/-- What the calls of a run do to them, one after the other. -/
def shifts (b : Book P) : List (Call P) → List (Shift P)
  | [] => []
  | c :: rest => b.shift c :: (b.call c).shifts rest

/-- What one call is shown to do to a log. -/
structure Shifts (b : Book P) (s : Shift P) (b' : Book P) : Prop where
  config : b'.config = b.config
  zipper : b'.undo.zipper = b.undo.zipper.shift b.config.undoLimit s
  sound : b'.undo.Sound b'.config.undoLimit

theorem KeepsStacks.shifts {b b' : Book P} (h : b.KeepsStacks b')
    (hb : b.undo.Sound b.config.undoLimit) : b.Shifts .stay b' :=
  ⟨h.config, h.zipper, h.sound hb⟩

section Shifts

variable {b : Book P}

/-- Ending an operation commits what was recorded. -/
theorem shifts_endOperation (hb : b.undo.Sound b.config.undoLimit) :
    b.Shifts (b.shift .endOperation) b.endOperation.2 ∧
      (b.endOperation.1 = true ↔ ∃ ops, b.shift .endOperation = .commit ops) := by
  cases ho : b.undo.recording with
  | none =>
    have hshift : b.shift .endOperation = .stay := by simp [shift, committed?, ho]
    rw [endOperation_of_closed ho, hshift]
    exact ⟨(KeepsStacks.refl b).shifts hb, by simp⟩
  | some o =>
    by_cases hnil : b.addNewSlots o.entries o.watched = []
    · have hshift : b.shift .endOperation = .stay := by simp [shift, committed?, ho, hnil]
      have hclosed : b.KeepsStacks (b.setRecording none) :=
        .setRecording b fun _ o' ho' => (nomatch ho')
      rw [endOperation_of_nil ho hnil, hshift]
      exact ⟨hclosed.shifts hb, by simp⟩
    · have hshift : b.shift .endOperation = .commit (o.operations b.config.baselineLabel
          ((b.addNewSlots o.entries o.watched).map b.close)) := by
        simp [shift, committed?, ho, hnil]
      rw [endOperation_of_ne_nil ho hnil, hshift]
      refine ⟨⟨rfl, zipper_committedLog .., sound_committedLog hb (hb.recording o ho) ?_⟩, by simp⟩
      intro u hu
      obtain ⟨v, hv, rfl⟩ := List.mem_map.mp hu
      exact seen_close b (before_addNewSlots (hb.recording o ho).entries o.watched v hv)

/-- Undo takes the last applied operation back, if there is one. -/
theorem shifts_undoLast (hb : b.undo.Sound b.config.undoLimit) :
    b.Shifts .undo b.undoLast.2 ∧ (b.undoLast.1 = true ↔ b.undo.past ≠ []) ∧
      (b.undoLast.1 = false → b.undoLast.2 = b) := by
  have hlast := UndoLog.lastApplied?_eq hb.cursor_le
  cases hop : b.undo.lastApplied? with
  | none =>
    have hpast : b.undo.past = [] := List.getLast?_eq_none_iff.mp (hlast.symm.trans hop)
    rw [undoLast_of_none hop]
    exact ⟨⟨rfl, (Zipper.shift_undo_of_nil hpast).symm, hb⟩, by simp [hpast], fun _ => rfl⟩
  | some op =>
    have hpast : b.undo.past ≠ [] := by
      intro hnil
      rw [hop, hnil] at hlast
      cases hlast
    have hmoved : UndoLog.Sound b.config.undoLimit
        ((b.setRecording none).setCursor (b.undo.cursor - 1)).undo :=
      ⟨(Nat.sub_le ..).trans hb.cursor_le, hb.length_le, hb.seen, fun o ho => (nomatch ho)⟩
    have hreplay := KeepsStacks.replay ((b.setRecording none).setCursor (b.undo.cursor - 1))
      op.entries .undo
    rw [undoLast_of_some hop]
    refine ⟨⟨hreplay.config, ?_, hreplay.sound hmoved⟩, by simp [hpast], fun h => (nomatch h)⟩
    rw [hreplay.zipper]
    exact UndoLog.zipper_back hb.cursor_le hop _

/-- Redo applies the next undone operation again, if there is one. -/
theorem shifts_redoNext (hb : b.undo.Sound b.config.undoLimit) :
    b.Shifts .redo b.redoNext.2 ∧ (b.redoNext.1 = true ↔ b.undo.future ≠ []) ∧
      (b.redoNext.1 = false → b.redoNext.2 = b) := by
  have hnext := UndoLog.nextUndone?_eq b.undo
  cases hop : b.undo.nextUndone? with
  | none =>
    have hfuture : b.undo.future = [] := List.head?_eq_none_iff.mp (hnext.symm.trans hop)
    rw [redoNext_of_none hop]
    exact ⟨⟨rfl, (Zipper.shift_redo_of_nil hfuture).symm, hb⟩, by simp [hfuture], fun _ => rfl⟩
  | some op =>
    have hreplay := KeepsStacks.replay (b.setRecording none) op.entries .redo
    have hredo : b.redoNext = (true, ((b.setRecording none).replay op.entries .redo).setCursor
        (b.undo.cursor + 1)) := by
      rw [redoNext_of_some hop, hreplay.cursor]
      rfl
    have hfuture : b.undo.future ≠ [] := by
      intro hnil
      rw [hop, hnil] at hnext
      cases hnext
    obtain ⟨hlt, _⟩ := List.getElem?_eq_some_iff.mp hop
    -- The replay ran on the log as it was, but for the open operation.
    have hclosed : UndoLog.Sound b.config.undoLimit (b.setRecording none).undo :=
      ⟨hb.cursor_le, hb.length_le, hb.seen, fun o ho => (nomatch ho)⟩
    have hreplayed := hreplay.sound hclosed
    rw [hredo]
    refine ⟨⟨hreplay.config, ?_, ⟨?_, hreplayed.length_le, hreplayed.seen,
      hreplayed.recording⟩⟩, by simp [hfuture], fun h => (nomatch h)⟩
    · have hzipper := UndoLog.zipper_forth hop b.config.undoLimit
      rw [← hzipper]
      unfold UndoLog.zipper UndoLog.past UndoLog.future
      show Zipper.mk (List.take _ ((b.setRecording none).replay op.entries .redo).undo.operations)
        (List.drop _ ((b.setRecording none).replay op.entries .redo).undo.operations) = _
      rw [hreplay.operations]
      rfl
    · show b.undo.cursor + 1 ≤ ((b.setRecording none).replay op.entries .redo).undo.operations.length
      rw [hreplay.operations]
      exact hlt

/-- Every call does to the stacks what is said of it. -/
theorem shifts_call (hw : b.WellFormed) (hb : b.undo.Sound b.config.undoLimit) (c : Call P) :
    b.Shifts (b.shift c) (b.call c) := by
  have hrest (hk : b.KeepsStacks (b.call c)) : b.Shifts .stay (b.call c) := hk.shifts hb
  cases hc : c.isReplication with
  | true =>
    obtain ⟨hsetup, hundo⟩ := (exchanges_call b hc).setup hw
    have hstay := hrest (.of_eq hsetup.config hundo)
    cases c with
    | create | delete | beginEdit | commitEdit | resolvePending | copyEntity | copyList
    | copyCollection | copyRecursive | copyCollectionRecursive => exact hstay
    | _ => cases hc
  | false =>
    cases c with
    | create | delete | beginEdit | commitEdit | resolvePending | copyEntity | copyList
    | copyCollection | copyRecursive | copyCollectionRecursive => cases hc
    | endOperation => exact (shifts_endOperation hb).1
    | undo => exact (shifts_undoLast hb).1
    | redo => exact (shifts_redoNext hb).1
    | clearUndo =>
      exact ⟨rfl, rfl, Nat.le_refl _, Nat.zero_le _, fun op hop => (nomatch hop),
        fun o ho => (nomatch ho)⟩
    | edit e change => exact hrest (.of_keeps (.edit b e _))
    | write e name v => exact hrest (.write b e name v)
    | writeText e name s => exact hrest (.writeText b e name s)
    | modify e name s => exact hrest (.modify b e name s)
    | link r => exact hrest (.of_keeps (.tryEdit b r.source _))
    | startOperation label => exact hrest (.startOperation b label)
    | recordCreate e => exact hrest (.recordCreate b e)
    | recordDelete e => exact hrest (.recordDelete b e)
    | recordBefore e name => exact hrest (.recordBefore b e name)
    | recordAfter e name => exact hrest (.recordAfter b e name)
    | register c unique => exact hrest (.register b c unique)
    | pushPending | takePending | subscribe | unsubscribe | suspend | resume | setBackend
    | markClean => exact hrest (.of_eq rfl rfl)

end Shifts

/-! ### Runs -/

theorem Reachable.sound {b : Book P} (h : b.Reachable) : b.undo.Sound b.config.undoLimit := by
  induction h with
  | blank id config unique =>
    exact ⟨Nat.le_refl _, Nat.zero_le _, fun op hop => (nomatch hop), fun o ho => (nomatch ho)⟩
  | @call b h c ih => exact (shifts_call h.wellFormed ih c).sound

theorem Reachable.zipper_run {b : Book P} (h : b.Reachable) (calls : List (Call P)) :
    (b.run calls).config = b.config ∧
      (b.run calls).undo.zipper =
        (b.shifts calls).foldl (Zipper.shift b.config.undoLimit) b.undo.zipper := by
  induction calls generalizing b with
  | nil => exact ⟨rfl, rfl⟩
  | cons c rest ih =>
    have hfirst := shifts_call h.wellFormed h.sound c
    obtain ⟨hconfig, hzipper⟩ := ih (h.call c)
    refine ⟨hconfig.trans hfirst.config, ?_⟩
    show ((b.call c).run rest).undo.zipper = ((b.call c).shifts rest).foldl
      (Zipper.shift b.config.undoLimit) (b.undo.zipper.shift b.config.undoLimit (b.shift c))
    rw [hzipper, hfirst.config, hfirst.zipper]

/-- The undo log of a book is a zipper that keeps at most as many operations as the
    settings allow, under every run of calls: the end of an operation commits it behind
    its baseline and empties the future, undo and redo move one operation, forgetting
    empties both stacks, and nothing else moves them. So the cursor and the number of
    operations stay in bounds, everything that is kept was seen before and after, the
    answers tell which stack is empty, and each operation that is replayed is there. -/
theorem undo_log_is_zipper {b : Book P} (h : b.Reachable) :
    (∀ calls, (b.run calls).undo.zipper =
      (b.shifts calls).foldl (Zipper.shift b.config.undoLimit) b.undo.zipper) ∧
    b.undo.Sound b.config.undoLimit ∧
    (b.endOperation.1 = true ↔ ∃ operations, b.shift .endOperation = .commit operations) ∧
    ((b.undoLast.1 = true ↔ b.undo.past ≠ []) ∧ (b.undoLast.1 = false → b.undoLast.2 = b)) ∧
    ((b.redoNext.1 = true ↔ b.undo.future ≠ []) ∧ (b.redoNext.1 = false → b.redoNext.2 = b)) ∧
    ((b.undo.canUndo = true ↔ b.undo.past ≠ []) ∧
      (b.undo.canUndo = true → b.undo.cursor - 1 < b.undo.operations.length)) ∧
    ((b.undo.canRedo = true ↔ b.undo.future ≠ []) ∧
      (b.undo.canRedo = true → b.undo.cursor < b.undo.operations.length)) := by
  have hsound := h.sound
  have hcursor := hsound.cursor_le
  have hundo := UndoLog.canUndo_iff hcursor
  have hredo := UndoLog.canRedo_iff b.undo
  refine ⟨fun calls => (h.zipper_run calls).2, hsound, (shifts_endOperation hsound).2,
    (shifts_undoLast hsound).2, (shifts_redoNext hsound).2, ⟨hundo, fun hcan => ?_⟩,
    hredo, fun hcan => ?_⟩
  · have hlength := UndoLog.length_past hcursor
    have hpos := List.length_pos_iff.mpr (hundo.mp hcan)
    omega
  · simpa [UndoLog.canRedo] using hcan

end Book

/-! ### A log that keeps one operation -/

/-- Two changes of a node are recorded, a third one is not brought to an end. -/
def Bag.changeCalls : List (Call bags) :=
  [.create "node" (node 1).guid, .startOperation "a", .modify (node 1) "label" "x", .endOperation,
    .startOperation "b", .modify (node 1) "label" "y", .endOperation,
    .startOperation "c", .recordDelete (node 2), .modify (node 1) "label" "z", .undo]

theorem Book.one_operation_kept :
    let b := (blank ⟨1⟩ Bag.nodes { undoLimit := 1 }).run Bag.changeCalls
    b.undo.past.map UndoOperation.label = [] ∧ b.undo.future.map UndoOperation.label = ["b"] ∧
    b.undo.Sound 1 ∧ b.undoLast.2 = b ∧ b.redoNext.1 = true ∧
    (b.run [.redo, .clearUndo]).undo.zipper = {} := by
  intro b
  have hreach : b.Reachable := (Reachable.blank ⟨1⟩ { undoLimit := 1 } Bag.wellFormed_nodes).run _
  have hpast : b.undo.past.map UndoOperation.label = [] := by decide +kernel
  have hfuture : b.undo.future.map UndoOperation.label = ["b"] := by decide +kernel
  have hlimit : b.config.undoLimit = 1 := by decide +kernel
  obtain ⟨hrun, hsound, _, ⟨hundo, hsame⟩, ⟨hredo, _⟩, _⟩ := undo_log_is_zipper hreach
  have hundone : b.undoLast.1 = false := by
    rw [Bool.eq_false_iff]
    exact fun hdone => hundo.mp hdone (List.map_eq_nil_iff.mp hpast)
  have hredone : b.redoNext.1 = true := by
    refine hredo.mpr fun hnil => ?_
    simp [hnil] at hfuture
  exact ⟨hpast, hfuture, hlimit ▸ hsound, hsame hundone, hredone, hrun [.redo, .clearUndo]⟩

end EntityBook
