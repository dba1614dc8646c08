import EntityBook.Proofs.Undo.Replay

/-! # What the calls of undo come to

  A call that records looks up what it needs, one thing after the other, and stops at the
  first that fails. What each call can come to is said here once, with the facts that
  make it so. Whatever it comes to, at most the open operation is another one. Closing an
  operation, undo and redo go one of two ways.
-/

namespace EntityBook

variable {P : PayloadFamily}

namespace Book

variable {b : Book P} {e : Entity} {name : String} {p : Param P} {o o' : OpenOperation P}

/-! ### The open operation -/

/-- An operation is only recording while it is open. -/
theorem recording?_eq_some (h : b.recording? = some o) : b.undo.recording = some o := by
  unfold recording? at h
  split at h
  · exact h
  · cases h

theorem recording?_of_closed (h : b.undo.recording = none) : b.recording? = none := by
  unfold recording?
  split
  · exact h
  · rfl

/-- Recording what is recorded already changes nothing. -/
theorem setRecording_self (h : b.recording? = some o) : b.setRecording (some o) = b := by
  unfold setRecording
  rw [← recording?_eq_some h]

/-! ### Looking up -/

theorem instance?_eq {i : Instance P} (h : b.get? e = some i) : b.instance? e = .ok i := by
  unfold instance?
  rw [h]

theorem instance?_of_none (h : b.get? e = none) : b.instance? e = .error (.entityNotFound e) := by
  unfold instance?
  rw [h]

/-! ### The baseline -/

/-- The baseline of an operation needs nothing more of an entity: it is there already, or
    operations are applied, and those tell of the values before. -/
def Enrolled (b : Book P) (o : OpenOperation P) (e : Entity) : Prop :=
  0 < b.undo.cursor ∨ ∃ u ∈ o.baseline, u.entity = e

theorem enrolled_iff :
    (0 < b.undo.cursor || o.baseline.any fun u => u.entity == e) = true ↔ b.Enrolled o e := by
  simp [Enrolled]

/-- The ways in which adding an entity to the baseline can go. -/
inductive Enrolls (b : Book P) (o : OpenOperation P) (e : Entity) :
    Except StoreError (OpenOperation P) → Prop where
  | present (done : b.Enrolled o e) : Enrolls b o e (.ok o)
  | unknown {err : StoreError} (unknown : b.registry.class? e.typeTag = .error err) :
    Enrolls b o e (.error err)
  | gone (gone : b.get? e = none) : Enrolls b o e (.error (.entityNotFound e))
  | unread {c : ObjectClass P} {i : Instance P} {err : StoreError}
    (known : b.registry.class? e.typeTag = .ok c) (live : b.get? e = some i)
    (unseen : snapshots e i (fun seen => seen) c.copyable = .error err) : Enrolls b o e (.error err)
  | added {c : ObjectClass P} {i : Instance P} {entries : List (UndoEntry P)}
    (fresh : ¬ b.Enrolled o e) (known : b.registry.class? e.typeTag = .ok c)
    (live : b.get? e = some i)
    (seen : snapshots e i (fun seen => seen) c.copyable = .ok entries) :
    Enrolls b o e (.ok { o with baseline := o.baseline ++ entries })

theorem ensureBaseline_of_enrolled (h : b.Enrolled o e) : b.ensureBaseline o e = .ok o := by
  unfold ensureBaseline
  rw [if_pos (enrolled_iff.mpr h)]

theorem ensureBaseline_of_seen (h : ¬ b.Enrolled o e) {c : ObjectClass P} {i : Instance P}
    {entries : List (UndoEntry P)} (hc : b.registry.class? e.typeTag = .ok c)
    (hi : b.get? e = some i) (hs : snapshots e i (fun seen => seen) c.copyable = .ok entries) :
    b.ensureBaseline o e = .ok { o with baseline := o.baseline ++ entries } := by
  unfold ensureBaseline
  rw [if_neg (mt enrolled_iff.mp h), hc, instance?_eq hi]
  dsimp only
  rw [hs]

theorem enrolls (b : Book P) (o : OpenOperation P) (e : Entity) :
    b.Enrolls o e (b.ensureBaseline o e) := by
  unfold ensureBaseline
  split
  · next hdone => exact .present (enrolled_iff.mp hdone)
  · next hfresh =>
    cases hc : b.registry.class? e.typeTag with
    | error err => exact .unknown hc
    | ok c =>
      cases hi : b.get? e with
      | none =>
        rw [instance?_of_none hi]
        exact .gone hi
      | some i =>
        rw [instance?_eq hi]
        dsimp only
        split
        · next hs => exact .unread hc hi hs
        · next hs => exact .added (mt enrolled_iff.mpr hfresh) hc hi hs

/-- What is known of the operation apart from its baseline stays. -/
theorem exists_baseline (h : b.ensureBaseline o e = .ok o') :
    ∃ baseline, o' = { o with baseline } := by
  have henrolls := b.enrolls o e
  rw [h] at henrolls
  cases henrolls with
  | present => exact ⟨o.baseline, rfl⟩
  | added => exact ⟨_, rfl⟩

/-- Nothing is added of an entity that is not there. -/
theorem eq_of_ensureBaseline (h : b.ensureBaseline o e = .ok o') (hi : b.get? e = none) :
    o' = o := by
  have henrolls := b.enrolls o e
  rw [h] at henrolls
  cases henrolls with
  | present => rfl
  | added _ _ live =>
    rw [hi] at live
    cases live

/-! ### Creations and deletions -/

theorem recordCreate_of_none (h : b.recording? = none) (e : Entity) : b.recordCreate e = b := by
  unfold recordCreate
  rw [h]

theorem recordCreate_of_some (h : b.recording? = some o) (e : Entity) :
    b.recordCreate e = b.addEntries o [.created e] := by
  unfold recordCreate
  rw [h]

/-- The ways in which recording a deletion can go. -/
inductive RecordsDelete (b : Book P) (e : Entity) : Except StoreError Unit × Book P → Prop where
  | idle (closed : b.recording? = none) : RecordsDelete b e (.ok (), b)
  | unknown {err : StoreError} (unknown : b.registry.class? e.typeTag = .error err) :
    RecordsDelete b e (.error err, b)
  | gone (gone : b.get? e = none) : RecordsDelete b e (.error (.entityNotFound e), b)
  | unread {c : ObjectClass P} {i : Instance P} {err : StoreError}
    (known : b.registry.class? e.typeTag = .ok c) (live : b.get? e = some i)
    (unseen : snapshots e i (fun _ => .absent) c.copyable = .error err) :
    RecordsDelete b e (.error err, b)
  | recorded {o : OpenOperation P} {c : ObjectClass P} {i : Instance P}
    {entries : List (UndoEntry P)} (recording : b.recording? = some o)
    (known : b.registry.class? e.typeTag = .ok c) (live : b.get? e = some i)
    (seen : snapshots e i (fun _ => .absent) c.copyable = .ok entries) :
    RecordsDelete b e (.ok (), b.addEntries o (.deleted e :: entries))

theorem recordsDelete (b : Book P) (e : Entity) : b.RecordsDelete e (b.recordDelete e) := by
  unfold recordDelete
  cases ho : b.recording? with
  | none => exact .idle ho
  | some o =>
    cases hc : b.registry.class? e.typeTag with
    | error err => exact .unknown hc
    | ok c =>
      cases hi : b.get? e with
      | none =>
        rw [instance?_of_none hi]
        exact .gone hi
      | some i =>
        rw [instance?_eq hi]
        dsimp only
        split
        · next hs => exact .unread hc hi hs
        · next hs => exact .recorded ho hc hi hs

/-- A deletion that can be recorded is. -/
theorem recordDelete_of_seen (ho : b.recording? = some o) {c : ObjectClass P} {i : Instance P}
    {entries : List (UndoEntry P)} (hc : b.registry.class? e.typeTag = .ok c)
    (hi : b.get? e = some i) (hs : snapshots e i (fun _ => .absent) c.copyable = .ok entries) :
    b.recordDelete e = (.ok (), b.addEntries o (.deleted e :: entries)) := by
  unfold recordDelete
  rw [ho, hc, instance?_eq hi]
  dsimp only
  rw [hs]

/-- A deletion of what is not there is not recorded. -/
theorem recordDelete_of_none (hi : b.get? e = none) : (b.recordDelete e).2 = b := by
  have hrecords := b.recordsDelete e
  generalize b.recordDelete e = out at hrecords
  cases hrecords with
  | idle | unknown | gone | unread => rfl
  | recorded _ _ live =>
    rw [hi] at live
    cases live

/-! ### Values -/

/-- A call finds the open operation and the parameter that it is about, and the entity is
    in the baseline from then on. -/
structure Prepares (b : Book P) (e : Entity) (name : String) (p : Param P)
    (o o' : OpenOperation P) : Prop where
  recording : b.recording? = some o
  param : b.undoableParam e name = .ok p
  baseline : b.ensureBaseline o e = .ok o'

/-- The ways in which recording the value before a change can go. -/
inductive RecordsBefore (b : Book P) (e : Entity) (name : String) :
    Except StoreError Unit × Book P → Prop where
  | idle (closed : b.recording? = none) : RecordsBefore b e name (.ok (), b)
  | unknown {err : StoreError} (unknown : b.undoableParam e name = .error err) :
    RecordsBefore b e name (.error err, b)
  | unprepared {o : OpenOperation P} {err : StoreError}
    (unprepared : b.ensureBaseline o e = .error err) : RecordsBefore b e name (.error err, b)
  /-- There are entries already. -/
  | again {p : Param P} {o o' : OpenOperation P} (ready : b.Prepares e name p o o')
    (known : (o'.entries.any fun u => u.targets e name) = true) :
    RecordsBefore b e name (.ok (), b.setRecording (some o'))
  | gone {p : Param P} {o o' : OpenOperation P} (ready : b.Prepares e name p o o')
    (gone : b.get? e = none) :
    RecordsBefore b e name (.error (.entityNotFound e), b.setRecording (some o'))
  | unread {p : Param P} {o o' : OpenOperation P} {i : Instance P} {err : StoreError}
    (ready : b.Prepares e name p o o') (live : b.get? e = some i)
    (unseen : snapshots e i (fun _ => .pending) [p] = .error err) :
    RecordsBefore b e name (.error err, b.setRecording (some o'))
  | first {p : Param P} {o o' : OpenOperation P} {i : Instance P} {entries : List (UndoEntry P)}
    (ready : b.Prepares e name p o o')
    (fresh : ¬ (o'.entries.any fun u => u.targets e name) = true) (live : b.get? e = some i)
    (seen : snapshots e i (fun _ => .pending) [p] = .ok entries) :
    RecordsBefore b e name (.ok (), b.setRecording (some { o' with
      entries := o'.entries ++ entries
      watched := o'.watched ++ if p.isSlots then [(e, p)] else [] }))

/-- The entries for the new slots of a table, if it is watched. -/
def watchedSlots (b : Book P) (o : OpenOperation P) (e : Entity) (name : String) :
    List (UndoEntry P) :=
  match o.watched.find? fun w => w.1 == e && w.2.name == name with
  | some (e, p) => b.newSlots o.entries e p
  | none => []

theorem mem_watchedSlots {u : UndoEntry P} (h : u ∈ b.watchedSlots o e name) :
    ∃ p, (e, p) ∈ o.watched ∧ p.name = name ∧ u ∈ b.newSlots o.entries e p := by
  unfold watchedSlots at h
  split at h
  · next x p hfind =>
    have hown := List.find?_some hfind
    obtain ⟨hx, hname⟩ := Bool.and_eq_true_iff.mp hown
    have hx : x = e := by simpa using hx
    subst hx
    exact ⟨p, List.mem_of_find?_eq_some hfind, by simpa using hname, h⟩
  · cases h

/-- The operation after the present values of a parameter were filled in. -/
def fillIn (b : Book P) (o : OpenOperation P) (e : Entity) (p : Param P) (name : String) :
    OpenOperation P :=
  { o with
    entries := (o.entries ++ b.watchedSlots o e name).map (b.refresh e p name)
    watched := o.watched.eraseP fun w => w.1 == e && w.2.name == name }

/-- Nothing but the entries changes if the parameter is not watched. -/
theorem fillIn_of_unwatched (h : ∀ w ∈ o.watched, ¬ (w.1 == e && w.2.name == name) = true)
    (b : Book P) (p : Param P) :
    b.fillIn o e p name = { o with entries := o.entries.map (b.refresh e p name) } := by
  unfold fillIn watchedSlots
  rw [List.find?_eq_none.mpr h, List.eraseP_of_forall_not h]
  dsimp only
  rw [List.append_nil]

/-- The ways in which recording the value after a change can go. -/
inductive RecordsAfter (b : Book P) (e : Entity) (name : String) :
    Except StoreError Unit × Book P → Prop where
  | idle (closed : b.recording? = none) : RecordsAfter b e name (.ok (), b)
  | unknown {err : StoreError} (unknown : b.undoableParam e name = .error err) :
    RecordsAfter b e name (.error err, b)
  | unprepared {o : OpenOperation P} {err : StoreError}
    (unprepared : b.ensureBaseline o e = .error err) : RecordsAfter b e name (.error err, b)
  | filled {p : Param P} {o o' : OpenOperation P} (ready : b.Prepares e name p o o')
    (known : (o'.entries.any fun u => u.targets e name) = true) :
    RecordsAfter b e name (.ok (), b.setRecording (some (b.fillIn o' e p name)))
  | gone {p : Param P} {o o' : OpenOperation P} (ready : b.Prepares e name p o o')
    (gone : b.get? e = none) :
    RecordsAfter b e name (.error (.entityNotFound e), b.setRecording (some o'))
  | unread {p : Param P} {o o' : OpenOperation P} {i : Instance P} {err : StoreError}
    (ready : b.Prepares e name p o o') (live : b.get? e = some i)
    (unseen : snapshot i p = .error err) :
    RecordsAfter b e name (.error err, b.setRecording (some o'))
  /-- The value before was not recorded. -/
  | unannounced {p : Param P} {o o' : OpenOperation P} {i : Instance P}
    {current : List (Option String × Capture)} (ready : b.Prepares e name p o o')
    (fresh : ¬ (o'.entries.any fun u => u.targets e name) = true) (live : b.get? e = some i)
    (seen : snapshot i p = .ok current) :
    RecordsAfter b e name (.ok (), b.setRecording (some { o' with
      entries := o'.entries ++ b.unannounced e p name current }))

namespace Prepares

variable (h : b.Prepares e name p o o')

include h

theorem recordBefore_eq : b.recordBefore e name =
    if o'.entries.any fun u => u.targets e name then (.ok (), b.setRecording (some o'))
    else
      match b.instance? e with
      | .error err => (.error err, b.setRecording (some o'))
      | .ok i =>
        match snapshots e i (fun _ => .pending) [p] with
        | .error err => (.error err, b.setRecording (some o'))
        | .ok entries => (.ok (), b.setRecording (some { o' with
            entries := o'.entries ++ entries
            watched := o'.watched ++ if p.isSlots then [(e, p)] else [] })) := by
  unfold recordBefore
  rw [h.recording]
  dsimp only
  rw [h.param]
  dsimp only
  rw [h.baseline]
  rfl

theorem recordBefore_again (known : (o'.entries.any fun u => u.targets e name) = true) :
    b.recordBefore e name = (.ok (), b.setRecording (some o')) := by
  rw [h.recordBefore_eq, if_pos known]

theorem recordBefore_first (fresh : ¬ (o'.entries.any fun u => u.targets e name) = true)
    {i : Instance P} (live : b.get? e = some i) {entries : List (UndoEntry P)}
    (seen : snapshots e i (fun _ => .pending) [p] = .ok entries) :
    b.recordBefore e name = (.ok (), b.setRecording (some { o' with
      entries := o'.entries ++ entries
      watched := o'.watched ++ if p.isSlots then [(e, p)] else [] })) := by
  rw [h.recordBefore_eq, if_neg fresh, instance?_eq live]
  dsimp only
  rw [seen]

theorem recordAfter_eq : b.recordAfter e name =
    if o'.entries.any fun u => u.targets e name then
      (.ok (), b.setRecording (some (b.fillIn o' e p name)))
    else
      match b.instance? e with
      | .error err => (.error err, b.setRecording (some o'))
      | .ok i =>
        match snapshot i p with
        | .error err => (.error err, b.setRecording (some o'))
        | .ok current => (.ok (), b.setRecording (some { o' with
            entries := o'.entries ++ b.unannounced e p name current })) := by
  unfold recordAfter
  rw [h.recording]
  dsimp only
  rw [h.param]
  dsimp only
  rw [h.baseline]
  rfl

theorem recordAfter_filled (known : (o'.entries.any fun u => u.targets e name) = true) :
    b.recordAfter e name = (.ok (), b.setRecording (some (b.fillIn o' e p name))) := by
  rw [h.recordAfter_eq, if_pos known]

theorem recordAfter_unannounced (fresh : ¬ (o'.entries.any fun u => u.targets e name) = true)
    {i : Instance P} (live : b.get? e = some i) {current : List (Option String × Capture)}
    (seen : snapshot i p = .ok current) :
    b.recordAfter e name = (.ok (), b.setRecording (some { o' with
      entries := o'.entries ++ b.unannounced e p name current })) := by
  rw [h.recordAfter_eq, if_neg fresh, instance?_eq live]
  dsimp only
  rw [seen]

end Prepares

theorem recordBefore_of_idle (h : b.recording? = none) (e : Entity) (name : String) :
    b.recordBefore e name = (.ok (), b) := by
  unfold recordBefore
  rw [h]

theorem recordAfter_of_idle (h : b.recording? = none) (e : Entity) (name : String) :
    b.recordAfter e name = (.ok (), b) := by
  unfold recordAfter
  rw [h]

theorem recordBefore_of_unknown (ho : b.recording? = some o) {err : StoreError}
    (hp : b.undoableParam e name = .error err) : b.recordBefore e name = (.error err, b) := by
  unfold recordBefore
  rw [ho]
  dsimp only
  rw [hp]

theorem recordsBefore (b : Book P) (e : Entity) (name : String) :
    b.RecordsBefore e name (b.recordBefore e name) := by
  cases ho : b.recording? with
  | none =>
    rw [recordBefore_of_idle ho]
    exact .idle ho
  | some o =>
    cases hp : b.undoableParam e name with
    | error err =>
      rw [recordBefore_of_unknown ho hp]
      exact .unknown hp
    | ok p =>
      cases hbase : b.ensureBaseline o e with
      | error err =>
        unfold recordBefore
        rw [ho]
        dsimp only
        rw [hp]
        dsimp only
        rw [hbase]
        exact .unprepared hbase
      | ok o' =>
        have hready : b.Prepares e name p o o' := ⟨ho, hp, hbase⟩
        rw [hready.recordBefore_eq]
        split
        · next hknown => exact .again hready hknown
        · next hfresh =>
          cases hi : b.get? e with
          | none =>
            rw [instance?_of_none hi]
            exact .gone hready hi
          | some i =>
            rw [instance?_eq hi]
            dsimp only
            split
            · next hs => exact .unread hready hi hs
            · next hs => exact .first hready hfresh hi hs

theorem recordsAfter (b : Book P) (e : Entity) (name : String) :
    b.RecordsAfter e name (b.recordAfter e name) := by
  cases ho : b.recording? with
  | none =>
    rw [recordAfter_of_idle ho]
    exact .idle ho
  | some o =>
    cases hp : b.undoableParam e name with
    | error err =>
      unfold recordAfter
      rw [ho]
      dsimp only
      rw [hp]
      exact .unknown hp
    | ok p =>
      cases hbase : b.ensureBaseline o e with
      | error err =>
        unfold recordAfter
        rw [ho]
        dsimp only
        rw [hp]
        dsimp only
        rw [hbase]
        exact .unprepared hbase
      | ok o' =>
        have hready : b.Prepares e name p o o' := ⟨ho, hp, hbase⟩
        rw [hready.recordAfter_eq]
        split
        · next hknown => exact .filled hready hknown
        · next hfresh =>
          cases hi : b.get? e with
          | none =>
            rw [instance?_of_none hi]
            exact .gone hready hi
          | some i =>
            rw [instance?_eq hi]
            dsimp only
            split
            · next hs => exact .unread hready hi hs
            · next hs => exact .unannounced hready hfresh hi hs

/-- Of an entity that is not there nothing is recorded. -/
theorem recordBefore_of_none (hi : b.get? e = none) (name : String) :
    (b.recordBefore e name).2 = b := by
  have hrecords := b.recordsBefore e name
  generalize b.recordBefore e name = out at hrecords
  cases hrecords with
  | idle | unknown | unprepared => rfl
  | again ready | gone ready =>
    cases eq_of_ensureBaseline ready.baseline hi
    exact setRecording_self ready.recording
  | unread _ live | first _ _ live =>
    rw [hi] at live
    cases live

/-! ### Recorded writes -/

/-- The ways in which a recorded write can go: it records, writes and records again, up to
    the first of these that fails. -/
inductive Modifies (b : Book P) (e : Entity) (name s : String) :
    Except StoreError Unit × Book P → Prop where
  | unrecorded {err : StoreError} (before : (b.recordBefore e name).1 = .error err) :
    Modifies b e name s (.error err, (b.recordBefore e name).2)
  | unwritten {err : StoreError} (before : (b.recordBefore e name).1 = .ok ())
    (write : ((b.recordBefore e name).2.writeText e name s).1 = .error err) :
    Modifies b e name s (.error err, ((b.recordBefore e name).2.writeText e name s).2)
  | written (before : (b.recordBefore e name).1 = .ok ())
    (write : ((b.recordBefore e name).2.writeText e name s).1 = .ok ()) :
    Modifies b e name s (((b.recordBefore e name).2.writeText e name s).2.recordAfter e name)

theorem modifies (b : Book P) (e : Entity) (name s : String) :
    b.Modifies e name s (b.modify e name s) := by
  unfold modify
  split
  · next err b₁ hbefore =>
    cases congrArg Prod.snd hbefore
    exact .unrecorded (congrArg Prod.fst hbefore)
  · next u b₁ hbefore =>
    cases congrArg Prod.snd hbefore
    split
    · next err b₂ hwrite =>
      cases congrArg Prod.snd hwrite
      exact .unwritten (congrArg Prod.fst hbefore) (congrArg Prod.fst hwrite)
    · next u b₂ hwrite =>
      cases congrArg Prod.snd hwrite
      exact .written (congrArg Prod.fst hbefore) (congrArg Prod.fst hwrite)

/-! ### What recording leaves alone -/

section Leaves

variable (b : Book P) (e : Entity) (name : String)

theorem exists_recordCreate_eq : ∃ r, b.recordCreate e = b.setRecording r := by
  cases ho : b.recording? with
  | none =>
    rw [recordCreate_of_none ho]
    exact ⟨b.undo.recording, rfl⟩
  | some o =>
    rw [recordCreate_of_some ho]
    exact ⟨_, rfl⟩

theorem exists_recordDelete_eq : ∃ r, (b.recordDelete e).2 = b.setRecording r := by
  have hrecords := b.recordsDelete e
  generalize b.recordDelete e = out at hrecords
  cases hrecords with
  | recorded => exact ⟨_, rfl⟩
  | _ => exact ⟨b.undo.recording, rfl⟩

theorem exists_recordBefore_eq : ∃ r, (b.recordBefore e name).2 = b.setRecording r := by
  have hrecords := b.recordsBefore e name
  generalize b.recordBefore e name = out at hrecords
  cases hrecords with
  | idle | unknown | unprepared => exact ⟨b.undo.recording, rfl⟩
  | again | gone | unread | first => exact ⟨_, rfl⟩

theorem exists_recordAfter_eq : ∃ r, (b.recordAfter e name).2 = b.setRecording r := by
  have hrecords := b.recordsAfter e name
  generalize b.recordAfter e name = out at hrecords
  cases hrecords with
  | idle | unknown | unprepared => exact ⟨b.undo.recording, rfl⟩
  | filled | gone | unread | unannounced => exact ⟨_, rfl⟩

theorem get?_recordAfter (x : Entity) : (b.recordAfter e name).2.get? x = b.get? x := by
  obtain ⟨r, hr⟩ := b.exists_recordAfter_eq e name
  rw [hr]
  rfl

end Leaves

/-! ### Closing, undo and redo -/

section Log

variable {op : UndoOperation P}

theorem endOperation_of_closed (h : b.undo.recording = none) : b.endOperation = (false, b) := by
  unfold endOperation
  rw [h]

/-- Closing an operation concerns the log only. -/
theorem exists_endOperation_eq (b : Book P) : ∃ l, b.endOperation.2 = { b with undo := l } := by
  unfold endOperation
  split
  · exact ⟨b.undo, rfl⟩
  · dsimp only
    split <;> exact ⟨_, rfl⟩

theorem undoLast_of_none (h : b.undo.lastApplied? = none) : b.undoLast = (false, b) := by
  unfold undoLast
  rw [h]

theorem undoLast_of_some (h : b.undo.lastApplied? = some op) :
    b.undoLast = (true, ((b.setRecording none).setCursor (b.undo.cursor - 1)).replay
      op.entries .undo) := by
  unfold undoLast
  rw [h]

theorem redoNext_of_none (h : b.undo.nextUndone? = none) : b.redoNext = (false, b) := by
  unfold redoNext
  rw [h]

theorem redoNext_of_some (h : b.undo.nextUndone? = some op) :
    b.redoNext = (true, ((b.setRecording none).replay op.entries .redo).setCursor
      (((b.setRecording none).replay op.entries .redo).undo.cursor + 1)) := by
  unfold redoNext
  rw [h]

end Log

end Book

end EntityBook
