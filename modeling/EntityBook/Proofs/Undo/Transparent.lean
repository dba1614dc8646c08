import EntityBook.Proofs.Payload.Bag
import EntityBook.Proofs.Run.Invariant
import EntityBook.Proofs.Undo.Steps

/-! # Recording is transparent

  Before a recorded write all values of the entity may be read for the baseline, and
  the value of the parameter is read before the write and after it. A failure to read
  one of them would fail the write. It cannot happen: a live entity of a reachable
  book has a value at every parameter that is recorded. So a recorded write is a
  write, and only the open operation tells one from the other.
-/

namespace EntityBook

variable {P : PayloadFamily}

namespace Book

/-! ### Edits do not concern the open operation -/

section Commutes

variable (b : Book P) (o : Option (OpenOperation P)) (e : Entity)

theorem beginEdit_setRecording :
    (b.setRecording o).beginEdit e = ((b.beginEdit e).1, (b.beginEdit e).2.setRecording o) := by
  have hget : (b.setRecording o).get? e = b.get? e := rfl
  unfold beginEdit
  rw [hget]
  cases b.get? e with
  | none => rfl
  | some i =>
    dsimp only
    split <;> rfl

theorem settle_setRecording (i : Instance P) :
    (b.setRecording o).settle e i = ((b.settle e i).1, (b.settle e i).2.setRecording o) := by
  have hrefusal : (b.setRecording o).backend.refusal (b.setRecording o).calls i =
      b.backend.refusal b.calls i := rfl
  unfold settle
  rw [hrefusal]
  cases b.backend.refusal b.calls i <;> cases i.dirty <;> rfl

theorem commitEdit_setRecording :
    (b.setRecording o).commitEdit e = ((b.commitEdit e).1, (b.commitEdit e).2.setRecording o) := by
  have hget : (b.setRecording o).get? e = b.get? e := rfl
  unfold commitEdit
  rw [hget]
  cases b.get? e with
  | none => rfl
  | some i =>
    dsimp only
    cases i.leave? with
    | none => rfl
    | some j =>
      dsimp only
      split
      · rfl
      · split
        · rfl
        · exact settle_setRecording (b.put e j) o e j

theorem edit_setRecording {α : Type} (change : Instance P → α × Instance P) :
    (b.setRecording o).edit e change =
      ((b.edit e change).1, (b.edit e change).2.setRecording o) := by
  have hget : (b.setRecording o).get? e = b.get? e := rfl
  unfold edit
  rw [hget, beginEdit_setRecording]
  cases b.get? e with
  | none => rfl
  | some i =>
    have hput (c : Book P) (j : Instance P) :
        (c.setRecording o).put e j = (c.put e j).setRecording o := rfl
    dsimp only
    rw [hput, commitEdit_setRecording]

theorem tryEdit_setRecording (change : Instance P → Except StoreError (Instance P)) :
    (b.setRecording o).tryEdit e change =
      ((b.tryEdit e change).1, (b.tryEdit e change).2.setRecording o) := by
  unfold tryEdit
  rw [edit_setRecording]

theorem writeText_setRecording (name s : String) :
    (b.setRecording o).writeText e name s =
      ((b.writeText e name s).1, (b.writeText e name s).2.setRecording o) := by
  have hparam : (b.setRecording o).param? e name = b.param? e name := rfl
  unfold writeText
  rw [hparam]
  cases b.param? e name with
  | error err => rfl
  | ok p => exact tryEdit_setRecording b o e _

end Commutes

/-! ### Recording succeeds -/

section Records

variable {b : Book P} {e : Entity} {name : String} {p : Param P}

/-- All that is read of a live entity for a record can be read. -/
theorem exists_readings (hb : b.WellFormed) (hlive : b.contains e = true)
    (hp : b.undoableParam e name = .ok p) (o : OpenOperation P) :
    ∃ i baseline current entries, b.get? e = some i ∧
      b.ensureBaseline o e = .ok { o with baseline } ∧ snapshot i p = .ok current ∧
      snapshots e i (fun _ => .pending) [p] = .ok entries := by
  obtain ⟨i, hi⟩ := Option.isSome_iff_exists.mp hlive
  obtain ⟨baseline, hbaseline⟩ := exists_ensureBaseline hb o hi
  obtain ⟨cl, hcl, hmem, _⟩ := undoableParam_eq_ok.mp hp
  have hvalue := hb.exists_value hi hcl hmem
  exact ⟨i, baseline, _, _, hi, hbaseline, snapshot_eq hvalue, snapshots_singleton e _ hvalue⟩

theorem exists_recordBefore (hb : b.WellFormed) (hlive : b.contains e = true)
    (hp : b.undoableParam e name = .ok p) :
    ∃ o, b.recordBefore e name = (.ok (), b.setRecording o) := by
  cases ho : b.recording? with
  | none => exact ⟨b.undo.recording, recordBefore_of_idle ho e name⟩
  | some o =>
    obtain ⟨i, baseline, _, entries, hi, hbaseline, _, hentries⟩ := exists_readings hb hlive hp o
    have hready : b.Prepares e name p o { o with baseline } := ⟨ho, hp, hbaseline⟩
    by_cases hknown : (o.entries.any fun u => u.targets e name) = true
    · exact ⟨_, hready.recordBefore_again hknown⟩
    · exact ⟨_, hready.recordBefore_first hknown hi hentries⟩

theorem exists_recordAfter (hb : b.WellFormed) (hlive : b.contains e = true)
    (hp : b.undoableParam e name = .ok p) :
    ∃ o, b.recordAfter e name = (.ok (), b.setRecording o) := by
  cases ho : b.recording? with
  | none => exact ⟨b.undo.recording, recordAfter_of_idle ho e name⟩
  | some o =>
    obtain ⟨i, baseline, current, _, hi, hbaseline, hcurrent, _⟩ := exists_readings hb hlive hp o
    have hready : b.Prepares e name p o { o with baseline } := ⟨ho, hp, hbaseline⟩
    by_cases hknown : (o.entries.any fun u => u.targets e name) = true
    · exact ⟨_, hready.recordAfter_filled hknown⟩
    · exact ⟨_, hready.recordAfter_unannounced hknown hi hcurrent⟩

theorem undoableParam_of_writable (hp : b.param? e name = .ok p) (hw : p.isReadOnly = false) :
    b.undoableParam e name = .ok p := by
  have hcopyable : p.isCopyable = true := by
    unfold Param.isCopyable
    rw [hw]
    rfl
  unfold undoableParam
  rw [hp]
  dsimp only
  rw [if_pos hcopyable]

/-! ### A recorded write -/

/-- A recorded write is a write, but for what is recorded. -/
theorem modify_eq_writeText (hb : b.WellFormed) (hlive : b.contains e = true)
    (hp : b.undoableParam e name = .ok p) (s : String) :
    ∃ o, b.modify e name s =
      ((b.writeText e name s).1, (b.writeText e name s).2.setRecording o) := by
  obtain ⟨o₁, hbefore⟩ := exists_recordBefore hb hlive hp
  have hrev := Revises.writeText hb e name s
  -- The entity outlives the write, so its value can be read once more.
  have hstays : (b.writeText e name s).2.contains e = true := by
    obtain ⟨i, hi⟩ := Option.isSome_iff_exists.mp hlive
    obtain ⟨j, hj, _⟩ := hrev.live hi
    exact contains_of_some hj
  have hwritten : ((b.writeText e name s).2.setRecording o₁).WellFormed :=
    (hrev.wellFormed hb).of_eq rfl rfl rfl rfl
  obtain ⟨o₂, hafter⟩ := exists_recordAfter hwritten hstays
    ((undoableParam_congr hrev.registry e name).trans hp)
  have hmodifies := b.modifies e name s
  generalize b.modify e name s = out at hmodifies ⊢
  cases hmodifies with
  | unrecorded before =>
    rw [hbefore] at before
    cases before
  | unwritten _ write =>
    rw [hbefore, writeText_setRecording] at write ⊢
    exact ⟨o₁, Prod.ext write.symm rfl⟩
  | written _ write =>
    rw [hbefore, writeText_setRecording] at write ⊢
    exact ⟨o₂, hafter.trans (Prod.ext write.symm rfl)⟩

/-- With no operation open it is a write altogether. -/
theorem modify_of_idle (hb : b.WellFormed) (h : b.undo.recording = none) (e : Entity)
    (name s : String) :
    b.modify e name s = b.writeText e name s := by
  have hbefore := recordBefore_of_idle (recording?_of_closed h) e name
  have hundo : (b.writeText e name s).2.undo = b.undo := (Revises.writeText hb e name s).undo
  have hmodifies := b.modifies e name s
  generalize b.modify e name s = out at hmodifies ⊢
  cases hmodifies with
  | unrecorded before =>
    rw [hbefore] at before
    cases before
  | unwritten _ write =>
    rw [hbefore] at write ⊢
    exact Prod.ext write.symm rfl
  | written _ write =>
    rw [hbefore] at write ⊢
    rw [recordAfter_of_idle (recording?_of_closed (hundo ▸ h))]
    exact Prod.ext write.symm rfl

/-- Whatever an open operation has recorded, a write of a parameter has the same result
    as with none open, and leaves the same book but for that operation: the same
    instances, events and calls to the backend. -/
theorem recording_is_transparent (h : b.Reachable) (hlive : b.contains e = true)
    (hp : b.param? e name = .ok p) (hw : p.isReadOnly = false) (o : OpenOperation P) (s : String) :
    ((b.setRecording (some o)).modify e name s).1 = ((b.setRecording none).modify e name s).1 ∧
    ((b.setRecording (some o)).modify e name s).2.setRecording none =
      ((b.setRecording none).modify e name s).2 := by
  have hb (r : Option (OpenOperation P)) : (b.setRecording r).WellFormed :=
    h.wellFormed.of_eq rfl rfl rfl rfl
  have hundoable : (b.setRecording (some o)).undoableParam e name = .ok p :=
    undoableParam_of_writable hp hw
  obtain ⟨_, hmodify⟩ := modify_eq_writeText (hb (some o)) hlive hundoable s
  have hidle := modify_of_idle (hb none) rfl e name s
  rw [hmodify, hidle, writeText_setRecording, writeText_setRecording]
  exact ⟨rfl, rfl⟩

end Records

end Book

/-! ### A label written twice in one operation -/

/-- A node whose label was written once in an operation that is still open, after its
    values were kept in the baseline. -/
def Bag.drafted : Book bags :=
  (Book.blank ⟨1⟩ nodes {}).run [.create "node" (node 1).guid, .subscribe, .startOperation "draft",
    .modify (node 1) "label" "a"]

theorem Book.second_draft_is_transparent :
    let b := Bag.drafted
    let o := b.undo.recording.getD { label := "" }
    (o.entries.length = 1 ∧ o.baseline.length = 3) ∧ b.contains (Bag.node 1) = true ∧
    ((b.setRecording (some o)).modify (Bag.node 1) "label" "b").1 =
      ((b.setRecording none).modify (Bag.node 1) "label" "b").1 ∧
    ((b.setRecording (some o)).modify (Bag.node 1) "label" "b").2.setRecording none =
      ((b.setRecording none).modify (Bag.node 1) "label" "b").2 := by
  intro b o
  have hreach : b.Reachable := (Reachable.blank ⟨1⟩ {} Bag.wellFormed_nodes).run _
  have hlive : b.contains (Bag.node 1) = true := by decide +kernel
  have hparam : b.param? (Bag.node 1) "label" = .ok Bag.nodeLabel := rfl
  exact ⟨by decide +kernel, hlive, recording_is_transparent hreach hlive hparam rfl o "b"⟩

end EntityBook
