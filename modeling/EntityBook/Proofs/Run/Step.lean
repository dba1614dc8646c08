import EntityBook.Copy.Basic
import EntityBook.Proofs.Undo.Calls
import Mathlib.Logic.Relation

/-! # Steps

  Whatever is done to a book is done in small steps: an entity is created, an edit
  is opened or closed, the values of an instance under edit are changed, events
  are held back or let go, and the undo log and the waiting references are replaced.
  `Step` lists them. A `Move` is a step, or several that open an edit and close it
  again. Each operation of the library is shown to be a sequence of moves, except
  those with which callers open and close edits themselves, so a property of all
  operations only has to be proved of a step, or of a move.
-/

namespace EntityBook

variable {P : PayloadFamily}

namespace Instance

/-! ### Access to values -/

/-- One instance is another after access to its values: what changed is marked. -/
structure Touches (i j : Instance P) : Prop extends i.Rewrites j where
  marked : j = i ∨ j.dirty = true

namespace Touches

theorem refl (i : Instance P) : i.Touches i := ⟨.refl i, Or.inl rfl⟩

theorem withSlots (i : Instance P) (f : Frame) : i.Touches (i.withSlots f) :=
  ⟨.withSlots i f, Or.inr rfl⟩

theorem withPayload {i : Instance P} {q : Payload P} (h : q.type = i.payload.type) :
    i.Touches (i.withPayload q) := ⟨.withPayload h, Or.inr rfl⟩

end Touches

section Writing

variable {i j : Instance P} {p : Param P}

theorem touches_write {v : ParamValue} (h : i.write p v = .ok j) : i.Touches j := by
  rcases write_cases h with ⟨f, _, _, rfl⟩ | ⟨q, hq, _, rfl⟩
  · exact .withSlots i f
  · exact .withPayload hq

theorem touches_writeText {s : String} (h : i.writeText p s = .ok j) : i.Touches j := by
  obtain ⟨_, v, _, hw⟩ := writeText_cases h
  exact touches_write hw

theorem touches_link {t : Entity} (h : i.link p t = .ok j) : i.Touches j := by
  unfold link at h
  split at h
  · exact touches_write h
  · exact touches_write h
  -- A member that is there already is not added, and nothing is marked.
  · split at h
    · cases h
    · split at h
      · cases h
        exact .refl _
      · exact touches_write h
  · cases h

theorem touches_copyParam {source : Instance P} {t : Transfer}
    (h : source.copyParam i p = .ok (t, j)) : i.Touches j := by
  unfold copyParam at h
  split at h
  · cases h
    exact .refl _
  · cases h
    exact .withSlots _ _
  · split at h
    · cases h
      exact .refl _
    · split at h
      · cases h
      · next v _ =>
        cases hw : i.write p v with
        | error e => simp [hw, Except.map] at h
        | ok k =>
          simp only [hw, Except.map, Except.ok.injEq, Prod.mk.injEq] at h
          exact h.2 ▸ touches_write hw
  · cases hr : source.references p with
    | error e => simp [hr, Except.map] at h
    | ok ts =>
      simp only [hr, Except.map, Except.ok.injEq, Prod.mk.injEq] at h
      exact h.2 ▸ .refl _

end Writing

end Instance

namespace Book

/-! ### Single steps -/

/-- One step that an operation takes. -/
inductive Step : Book P → Book P → Prop where
  | create (b : Book P) (tag : TypeTag) (guid : Guid) : Step b (b.create tag guid).2
  | beginEdit (b : Book P) (e : Entity) : Step b (b.beginEdit e).2
  | touch {b : Book P} {e : Entity} {i j : Instance P} (live : b.get? e = some i)
      (editing : 0 < i.level) (touches : i.Touches j) : Step b (b.put e j)
  | markDeleting {b : Book P} {e : Entity} {i : Instance P} (live : b.get? e = some i)
      (editing : 0 < i.level) : Step b (b.put e i.markDeleting)
  | commitEdit (b : Book P) (e : Entity) : Step b (b.commitEdit e).2
  | suspend (b : Book P) : Step b b.suspend
  | resume (b : Book P) : Step b b.resume
  | subscribe (b : Book P) : Step b b.subscribe.2
  | unsubscribe (b : Book P) (id : HandlerId) : Step b (b.unsubscribe id).2
  | setBackend (b : Book P) (backend : Backend P) : Step b (b.setBackend backend)
  | markClean (b : Book P) : Step b b.markClean
  | register {b : Book P} {c : ObjectClass P} {r : Registry P} (unique : c.WellFormed)
      (added : b.registry.register c = .ok r) : Step b { b with registry := r }
  | log (b : Book P) (undo : UndoLog P) : Step b { b with undo }
  | pushPending (b : Book P) (rs : List (ReferenceRecord P)) : Step b (b.pushPending rs)
  | takePending (b : Book P) : Step b b.takePending.2

/-- Any number of steps. -/
abbrev Steps : Book P → Book P → Prop := Relation.ReflTransGen Step

theorem get?_beginEdit_self {b : Book P} {e : Entity} {i : Instance P} (h : b.get? e = some i) :
    (b.beginEdit e).2.get? e = some i.enter := by
  unfold beginEdit
  simp only [h]
  split
  · exact get?_put_self b e _
  · exact get?_put_self b e _

/-! ### Steps under one backend -/

/-- A step at which the backend stays, and remembers what it heard before. -/
def Attended (b b' : Book P) : Prop := Step b b' ∧ b.calls <+: b'.calls

theorem calls_beginEdit (b : Book P) (e : Entity) : b.calls <+: (b.beginEdit e).2.calls := by
  unfold beginEdit
  split
  · exact List.prefix_rfl
  · dsimp only
    split
    · exact List.prefix_append ..
    · exact List.prefix_rfl

theorem calls_settle (b : Book P) (e : Entity) (i : Instance P) :
    b.calls <+: (b.settle e i).2.calls := by
  unfold settle
  dsimp only
  cases b.backend.refusal b.calls i <;> cases i.dirty <;> exact List.prefix_append ..

theorem calls_commitEdit (b : Book P) (e : Entity) : b.calls <+: (b.commitEdit e).2.calls := by
  have hcommits := b.commits e
  generalize b.commitEdit e = out at hcommits ⊢
  cases hcommits with
  | missing | idle | inner | removed => exact List.prefix_rfl
  | settled => exact calls_settle (b.put e _) e _

/-- An edit opens, changes what it is for, and closes. -/
theorem edit_chain {R : Book P → Book P → Prop} {α : Type} (b : Book P) (e : Entity)
    {change : Instance P → α × Instance P} (opened : R b (b.beginEdit e).2)
    (changed : ∀ i, (b.beginEdit e).2.get? e = some i → 0 < i.level →
      R (b.beginEdit e).2 ((b.beginEdit e).2.put e (change i).2))
    (closed : ∀ b : Book P, R b (b.commitEdit e).2) :
    Relation.ReflTransGen R b (b.edit e change).2 := by
  unfold Book.edit
  cases hi : b.get? e with
  | none => exact .refl
  | some i =>
    have hopen : Relation.ReflTransGen R b (b.beginEdit e).2 := .single opened
    have hmade := hopen.tail (changed i.enter (get?_beginEdit_self hi) (Nat.succ_pos _))
    exact hmade.tail (closed _)

theorem attended_edit {α : Type} (b : Book P) (e : Entity) {change : Instance P → α × Instance P}
    (h : ∀ i, (b.beginEdit e).2.get? e = some i → 0 < i.level →
      Step (b.beginEdit e).2 ((b.beginEdit e).2.put e (change i).2)) :
    Relation.ReflTransGen Attended b (b.edit e change).2 :=
  edit_chain b e ⟨.beginEdit b e, calls_beginEdit b e⟩
    (fun i live editing => ⟨h i live editing, List.prefix_rfl⟩)
    fun b => ⟨.commitEdit b e, calls_commitEdit b e⟩

/-! ### Moves -/

/-- One step, or the steps of one edit. -/
inductive Move : Book P → Book P → Prop where
  | create (b : Book P) (tag : TypeTag) (guid : Guid) : Move b (b.create tag guid).2
  | edit {α : Type} (b : Book P) (e : Entity) {change : Instance P → α × Instance P}
      (touches : ∀ i : Instance P, i.Touches (change i).2) : Move b (b.edit e change).2
  | delete (b : Book P) (e : Entity) : Move b (b.delete e).2
  | suspend (b : Book P) : Move b b.suspend
  | resume (b : Book P) : Move b b.resume
  | subscribe (b : Book P) : Move b b.subscribe.2
  | unsubscribe (b : Book P) (id : HandlerId) : Move b (b.unsubscribe id).2
  | markClean (b : Book P) : Move b b.markClean
  | register {b : Book P} {c : ObjectClass P} {r : Registry P} (unique : c.WellFormed)
      (added : b.registry.register c = .ok r) : Move b { b with registry := r }
  | log (b : Book P) (undo : UndoLog P) : Move b { b with undo }
  | pushPending (b : Book P) (rs : List (ReferenceRecord P)) : Move b (b.pushPending rs)
  | takePending (b : Book P) : Move b b.takePending.2

/-- Any number of moves. -/
abbrev Moves : Book P → Book P → Prop := Relation.ReflTransGen Move

theorem calls_create (b : Book P) (tag : TypeTag) (guid : Guid) :
    (b.create tag guid).2.calls = b.calls := by
  cases hc : b.create tag guid with
  | mk r b' =>
    cases r with
    | error err => exact congrArg Book.calls (create_eq_error hc)
    | ok e =>
      obtain ⟨_, _, _, _, _, _, _, rfl⟩ := create_eq_ok.mp hc
      rfl

theorem Move.attended {b b' : Book P} (h : Move b b') : Relation.ReflTransGen Attended b b' := by
  -- Most moves are single steps of which no backend hears.
  have unheard {b'' : Book P} (hs : Step b b'') (hc : b''.calls = b.calls) :
      Relation.ReflTransGen Attended b b'' := .single ⟨hs, hc ▸ List.prefix_rfl⟩
  cases h with
  | create _ tag guid => exact unheard (.create b tag guid) (calls_create b tag guid)
  | edit _ e touches =>
    exact attended_edit b e fun i live editing => .touch live editing (touches i)
  | delete _ e =>
    rw [delete_snd]
    exact attended_edit b e fun _ live editing => .markDeleting live editing
  | suspend => exact unheard (.suspend b) rfl
  | resume => exact unheard (.resume b) rfl
  | subscribe => exact unheard (.subscribe b) rfl
  | unsubscribe _ id => exact unheard (.unsubscribe b id) rfl
  | markClean => exact unheard (.markClean b) rfl
  | register unique added => exact unheard (.register unique added) rfl
  | log _ undo => exact unheard (.log b undo) rfl
  | pushPending _ rs => exact unheard (.pushPending b rs) rfl
  | takePending => exact unheard (.takePending b) rfl

namespace Moves

theorem attended {b b' : Book P} (h : Moves b b') : Relation.ReflTransGen Attended b b' := by
  induction h with
  | refl => exact .refl
  | tail _ hmove ih => exact ih.trans hmove.attended

theorem steps {b b' : Book P} (h : Moves b b') : Steps b b' :=
  Relation.ReflTransGen.mono (fun _ _ hs => hs.1) _ _ h.attended

end Moves

/-! ### Acts -/

/-- A move of which the bus hears nothing but the events that it raises. -/
inductive Act : Book P → Book P → Prop where
  | create (b : Book P) (tag : TypeTag) (guid : Guid) : Act b (b.create tag guid).2
  | edit {α : Type} (b : Book P) (e : Entity) {change : Instance P → α × Instance P}
      (touches : ∀ i : Instance P, i.Touches (change i).2) : Act b (b.edit e change).2
  | delete (b : Book P) (e : Entity) : Act b (b.delete e).2
  | log (b : Book P) (undo : UndoLog P) : Act b { b with undo }
  | pushPending (b : Book P) (rs : List (ReferenceRecord P)) : Act b (b.pushPending rs)
  | takePending (b : Book P) : Act b b.takePending.2

/-- Any number of acts. -/
abbrev Acts : Book P → Book P → Prop := Relation.ReflTransGen Act

theorem Act.move {b b' : Book P} (h : Act b b') : Move b b' := by
  cases h with
  | create _ tag guid => exact .create b tag guid
  | edit _ e touches => exact .edit b e touches
  | delete _ e => exact .delete b e
  | log _ undo => exact .log b undo
  | pushPending _ rs => exact .pushPending b rs
  | takePending => exact .takePending b

namespace Acts

variable {b b' : Book P}

theorem moves (h : Acts b b') : Moves b b' :=
  Relation.ReflTransGen.mono (fun _ _ ha => ha.move) _ _ h

theorem steps (h : Acts b b') : Steps b b' := h.moves.steps

/-! ### Edits -/

theorem edit {α : Type} (b : Book P) (e : Entity) {change : Instance P → α × Instance P}
    (h : ∀ i : Instance P, i.Touches (change i).2) : Acts b (b.edit e change).2 :=
  .single (.edit b e h)

theorem attempt {α : Type} (b : Book P) (e : Entity)
    {change : Instance P → Except StoreError (α × Instance P)}
    (h : ∀ i a j, change i = .ok (a, j) → i.Touches j) :
    Acts b (b.edit e (Book.attempt change)).2 := by
  refine edit b e fun i => ?_
  cases hc : change i with
  | error err =>
    rw [attempt_of_error hc]
    exact .refl i
  | ok r =>
    obtain ⟨a, j⟩ := r
    rw [attempt_of_ok hc]
    exact h i a j hc

theorem tryEdit (b : Book P) (e : Entity) {change : Instance P → Except StoreError (Instance P)}
    (h : ∀ i j, change i = .ok j → i.Touches j) : Acts b (b.tryEdit e change).2 := by
  rw [tryEdit_snd]
  refine attempt b e fun i a j hj => ?_
  cases hc : change i with
  | error err => simp [hc, Except.map] at hj
  | ok k =>
    simp only [hc, Except.map, Except.ok.injEq, Prod.mk.injEq] at hj
    exact hj.2 ▸ h i k hc

theorem delete (b : Book P) (e : Entity) : Acts b (b.delete e).2 := .single (.delete b e)

theorem write (b : Book P) (e : Entity) (name : String) (v : ParamValue) :
    Acts b (b.write e name v).2 := by
  unfold Book.write
  split
  · exact .refl
  · exact tryEdit b e fun _ _ h => Instance.touches_write h

theorem writeText (b : Book P) (e : Entity) (name s : String) :
    Acts b (b.writeText e name s).2 := by
  unfold Book.writeText
  split
  · exact .refl
  · exact tryEdit b e fun _ _ h => Instance.touches_writeText h

theorem link (b : Book P) (r : ReferenceRecord P) : Acts b (b.link r).2 :=
  tryEdit b r.source fun _ _ h => Instance.touches_link h

theorem setUndo (b : Book P) (l : UndoLog P) : Acts b { b with undo := l } := .single (.log b l)

/-! ### Loops -/

/-- A loop whose rounds are moves, on a state that holds a book. -/
theorem foldl {σ ι : Type} (book : σ → Book P) {round : σ → ι → σ}
    (h : ∀ s x, Acts (book s) (book (round s x))) (xs : List ι) (s : σ) :
    Acts (book s) (book (xs.foldl round s)) := by
  induction xs generalizing s with
  | nil => exact .refl
  | cons x rest ih => exact (h s x).trans (ih (round s x))

/-- The same, when the state is the book. -/
theorem each {ι : Type} {round : Book P → ι → Book P} (h : ∀ b x, Acts b (round b x))
    (xs : List ι) (b : Book P) : Acts b (xs.foldl round b) := foldl (fun b => b) h xs b

theorem pass (s : Pass P) (r : ReferenceRecord P) : Acts s.book (s.step r).book := by
  unfold Pass.step
  dsimp only
  split
  · exact .refl
  · split
    · exact .refl
    · have hl := link s.book r
      cases h : s.book.link r with
      | mk result b' =>
        rw [h] at hl
        cases result with
        | ok _ => exact hl
        | error _ => exact hl

theorem resolvePending (b : Book P) : Acts b b.resolvePending.2 := by
  have htaken : Acts b b.takePending.2 := .single (.takePending b)
  exact (htaken.trans (foldl Pass.book pass b.pending { book := b.takePending.2 })).tail
    (.pushPending _ _)

/-! ### Recording -/

theorem startOperation (b : Book P) (label : String) : Acts b (b.startOperation label) := by
  unfold Book.startOperation
  split
  · exact setUndo b _
  · exact .refl

theorem endOperation (b : Book P) : Acts b b.endOperation.2 := by
  obtain ⟨l, hl⟩ := b.exists_endOperation_eq
  rw [hl]
  exact setUndo b l

theorem recordCreate (b : Book P) (e : Entity) : Acts b (b.recordCreate e) := by
  obtain ⟨r, hr⟩ := b.exists_recordCreate_eq e
  rw [hr]
  exact setUndo b _

theorem recordDelete (b : Book P) (e : Entity) : Acts b (b.recordDelete e).2 := by
  obtain ⟨r, hr⟩ := b.exists_recordDelete_eq e
  rw [hr]
  exact setUndo b _

theorem recordBefore (b : Book P) (e : Entity) (name : String) :
    Acts b (b.recordBefore e name).2 := by
  obtain ⟨r, hr⟩ := b.exists_recordBefore_eq e name
  rw [hr]
  exact setUndo b _

theorem recordAfter (b : Book P) (e : Entity) (name : String) :
    Acts b (b.recordAfter e name).2 := by
  obtain ⟨r, hr⟩ := b.exists_recordAfter_eq e name
  rw [hr]
  exact setUndo b _

theorem modify (b : Book P) (e : Entity) (name s : String) : Acts b (b.modify e name s).2 := by
  have hbefore := recordBefore b e name
  have hwrite := hbefore.trans (writeText _ e name s)
  have hmodifies := b.modifies e name s
  generalize b.modify e name s = out at hmodifies
  cases hmodifies with
  | unrecorded => exact hbefore
  | unwritten => exact hwrite
  | written => exact hwrite.trans (recordAfter _ e name)

/-! ### Replay -/

theorem restore (b : Book P) (c : Change P) (seen : Capture) : Acts b (b.restore c seen) := by
  unfold Book.restore
  repeat' split
  · exact .refl
  · exact .refl
  · exact .refl
  · exact tryEdit b c.entity fun _ _ h => Instance.touches_writeText h
  · exact edit b c.entity fun i => .withSlots i _
  · exact .refl
  -- Setting a slot may fail, but the table counts as changed all the same.
  · refine edit b c.entity fun i => ?_
    split
    · exact .withSlots i _
    · exact .withSlots i _

theorem instantiate (b : Book P) (e : Entity) : Acts b (b.instantiate e) := by
  unfold Book.instantiate
  split
  · exact .refl
  · exact .single (.create b e.typeTag e.guid)

theorem destroy (b : Book P) (e : Entity) : Acts b (b.destroy e) := by
  unfold Book.destroy
  split
  · exact delete b e
  · exact .refl

/-! ### Copies -/

theorem parameter (source : Instance P) (s : Progress P) (p : Param P) :
    Acts s.book (s.step source p).book :=
  attempt s.book source.entity fun _ _ _ h => Instance.touches_copyParam h

theorem copyOne (b : Book P) (source : Instance P) : Acts b (b.copyOne source).2 := by
  unfold Book.copyOne
  dsimp only
  split
  · exact .refl
  · split
    · exact .refl
    · next c _ =>
      have hcreate : Acts b (b.create source.entity.typeTag source.entity.guid).2 :=
        .single (.create b _ _)
      cases hc : b.create source.entity.typeTag source.entity.guid with
      | mk result made =>
        rw [hc] at hcreate
        cases result with
        | error _ => exact hcreate
        | ok _ =>
          have hparams := foldl Progress.book (parameter source) c.copyable { book := made }
          have hqueued := (hcreate.trans hparams).tail (.pushPending _
            (c.copyable.foldl (Progress.step source) { book := made }).deferred)
          dsimp only
          split
          · exact hqueued
          · exact hqueued

theorem copy (s : Batch P) (source : Instance P) : Acts s.book (s.copy source).book :=
  copyOne s.book source

theorem copies (b : Book P) (report : Report) (sources : List (Instance P)) :
    Acts b (sources.foldl Batch.copy { book := b, report }).book :=
  foldl Batch.book copy sources { book := b, report }

theorem follow (source : Book P) (s : Batch P) (e : Entity) :
    Acts s.book (s.follow source e).book := by
  unfold Batch.follow
  split
  · exact .refl
  · split
    · exact copy s _
    · exact .refl

theorem walk (source : Book P) (hops : Nat) (seen frontier : List Entity) (s : Batch P) :
    Acts s.book (s.walk source hops seen frontier).book := by
  induction hops generalizing seen frontier s with
  | zero => exact .refl
  | succ hops ih => exact (foldl Batch.book (follow source) _ s).trans (ih _ _ _)

end Acts

/-! ### Calls that hold their events back -/

/-- A call does nothing, or it holds events back, acts, and lets the events go. -/
inductive Held (b : Book P) : Book P → Prop where
  | idle : Held b b
  | acted {b' : Book P} (acts : Acts b.suspend b') : Held b b'.resume

namespace Held

theorem moves {b b' : Book P} (h : Held b b') : Moves b b' := by
  cases h with
  | idle => exact .refl
  | acted acts =>
    have hstart : Moves b b.suspend := .single (.suspend b)
    exact (hstart.trans acts.moves).tail (.resume _)

theorem replayed (b : Book P) (entries : List (UndoEntry P)) (d : Direction) :
    ∃ b', Acts b.suspend b' ∧ b.replay entries d = b'.resume := by
  have hmade := Acts.each Acts.instantiate (entitiesOf entries d.made) b.suspend
  have hrestored := hmade.trans
    (Acts.each (fun b c => Acts.restore b c (d.side c)) (changesOf entries d) _)
  have hremoved := hrestored.trans (Acts.each Acts.destroy (entitiesOf entries d.removed) _)
  exact ⟨_, hremoved, replay_eq b entries d⟩

theorem undoLast (b : Book P) : Held b b.undoLast.2 := by
  cases hop : b.undo.lastApplied? with
  | none =>
    rw [undoLast_of_none hop]
    exact .idle
  -- The log is set before the events are held back; the order does not matter.
  | some op =>
    obtain ⟨b', hacts, heq⟩ :=
      replayed ((b.setRecording none).setCursor (b.undo.cursor - 1)) op.entries .undo
    have hmoved : Acts b.suspend ((b.setRecording none).setCursor (b.undo.cursor - 1)).suspend :=
      Acts.setUndo b.suspend _
    rw [undoLast_of_some hop]
    dsimp only
    rw [heq]
    exact .acted (hmoved.trans hacts)

theorem redoNext (b : Book P) : Held b b.redoNext.2 := by
  cases hop : b.undo.nextUndone? with
  | none =>
    rw [redoNext_of_none hop]
    exact .idle
  | some op =>
    obtain ⟨b', hacts, heq⟩ := replayed (b.setRecording none) op.entries .redo
    have hclosed : Acts b.suspend (b.setRecording none).suspend := Acts.setUndo b.suspend _
    have hmoved : Acts b' (b'.setCursor (b'.undo.cursor + 1)) := Acts.setUndo b' _
    rw [redoNext_of_some hop]
    dsimp only
    rw [heq]
    exact .acted ((hclosed.trans hacts).trans hmoved)

theorem copyEntity (b : Book P) (source : Instance P) : Held b (b.copyEntity source).2 :=
  .acted ((Acts.copyOne b.suspend source).trans (Acts.resolvePending _))

theorem finish {b : Book P} {s : Batch P} (h : Acts b.suspend s.book) : Held b s.finish.2 :=
  .acted (h.trans (Acts.resolvePending s.book))

theorem copyList (b : Book P) (sources : List (Instance P)) : Held b (b.copyList sources).2 :=
  finish (Acts.copies b.suspend _ sources)

theorem copyCollection (b : Book P) (sources : List (Instance P)) :
    Held b (b.copyCollection sources).2 := finish (Acts.copies b.suspend _ sources)

theorem copyRecursive (b source : Book P) (e : Entity) : Held b (b.copyRecursive source e).2 := by
  unfold Book.copyRecursive
  dsimp only
  refine finish (.trans ?_ (Acts.walk source maxHops [e] [e] _))
  split
  · next i _ => exact Acts.copy { book := b.suspend } i
  · exact .refl

theorem copyCollectionRecursive (b source : Book P) (tag : TypeTag) :
    Held b (b.copyCollectionRecursive source tag).2 := by
  unfold Book.copyCollectionRecursive
  split
  · exact .idle
  · exact finish ((Acts.copies b.suspend _ _).trans (Acts.walk source _ _ _ _))

end Held

end Book

end EntityBook
