import EntityBook.Proofs.Run.Invariant
import EntityBook.Proofs.Undo.Log
import EntityBook.Proofs.Undo.Recording

/-! # Calls aside from an entity

  While an operation is open, a program may do other things than change and record one
  entity. `Call.isAside` lists calls that are about other entities, or that open and close
  edits. Such a call leaves what the entity holds as it is, and of the open operation it
  leaves alone what is about the entity.
-/

namespace EntityBook

variable {P : PayloadFamily}

/-- Calls that neither make, delete, change nor record an entity. They may open and close
    edits of it. -/
def Call.isAside (e : Entity) : Call P → Bool
  | .beginEdit _ | .commitEdit _ | .pushPending _ | .takePending | .subscribe | .unsubscribe _
    | .suspend | .resume | .markClean => true
  | .create tag guid => (⟨tag, guid⟩ : Entity) != e
  | .link r => r.source != e
  | .delete x | .edit x _ | .write x _ _ | .writeText x _ _ | .modify x _ _ | .recordCreate x
    | .recordDelete x | .recordBefore x _ | .recordAfter x _ => x != e
  | _ => false

/-! ### What an operation holds of an entity -/

/-- The part of an open operation that is about an entity. -/
def OpenOperation.about (o : OpenOperation P) (e : Entity) : OpenOperation P where
  label := o.label
  entries := o.entries.filter fun u => u.entity == e
  watched := o.watched.filter fun w => w.1 == e
  baseline := o.baseline.filter fun u => u.entity == e

/-- Entries are about other entities. -/
def Elsewhere (e : Entity) (entries : List (UndoEntry P)) : Prop := ∀ u ∈ entries, u.entity ≠ e

section About

variable {e x : Entity} {entries more : List (UndoEntry P)}

theorem Elsewhere.filter_eq_nil (h : Elsewhere e entries) :
    (entries.filter fun u => u.entity == e) = [] := by
  refine List.filter_eq_nil_iff.mpr ?_
  intro u hu
  simpa using h u hu

theorem Elsewhere.filter_append (h : Elsewhere e more) :
    ((entries ++ more).filter fun u => u.entity == e) = entries.filter fun u => u.entity == e := by
  rw [List.filter_append, h.filter_eq_nil, List.append_nil]

/-- Entries that keep their entity under a map have parts that are mapped. -/
theorem filter_entity_map {f : UndoEntry P → UndoEntry P} (hf : ∀ u, (f u).entity = u.entity)
    (entries : List (UndoEntry P)) :
    ((entries.map f).filter fun u => u.entity == e) =
      (entries.filter fun u => u.entity == e).map f := by
  rw [List.filter_map]
  refine congrArg (List.map f) (List.filter_congr ?_)
  intro u _
  show ((f u).entity == e) = (u.entity == e)
  rw [hf]

theorem filter_eraseP {α : Type} {p q : α → Bool} (h : ∀ a, p a = true → q a = false)
    (xs : List α) : (xs.eraseP p).filter q = xs.filter q := by
  induction xs with
  | nil => rfl
  | cons a rest ih =>
    cases hp : p a with
    | true => rw [List.eraseP_cons_of_pos hp, List.filter_cons_of_neg (by simp [h a hp])]
    | false =>
      rw [List.eraseP_cons_of_neg (by simp [hp]), List.filter_cons, List.filter_cons, ih]

end About

namespace Book

/-! ### Records of other entities -/

section Records

variable {b : Book P} {e x : Entity} {p : Param P} {o o' : OpenOperation P} {name : String}

theorem entity_of_mem_snapshots {i : Instance P} {after : Capture → Capture} {ps : List (Param P)}
    {entries : List (UndoEntry P)} (h : snapshots x i after ps = .ok entries) :
    ∀ u ∈ entries, u.entity = x := by
  induction ps generalizing entries with
  | nil =>
    intro u hu
    cases h
    cases hu
  | cons p rest ih =>
    unfold snapshots at h
    split at h
    · cases h
    · dsimp only at h
      split at h
      · cases h
      · next more hmore =>
        cases h
        intro u hu
        rcases List.mem_append.mp hu with hu | hu
        · obtain ⟨y, _, rfl⟩ := List.mem_map.mp hu
          rfl
        · exact ih hmore u hu

theorem elsewhere_snapshots (hx : x ≠ e) {i : Instance P} {after : Capture → Capture}
    {ps : List (Param P)} {entries : List (UndoEntry P)}
    (h : snapshots x i after ps = .ok entries) : Elsewhere e entries := by
  intro u hu
  rw [entity_of_mem_snapshots h u hu]
  exact hx

theorem elsewhere_newSlots (hx : x ≠ e) (b : Book P) (entries : List (UndoEntry P)) (p : Param P) :
    Elsewhere e (b.newSlots entries x p) := by
  intro u hu
  unfold newSlots at hu
  split at hu
  · cases hu
  · obtain ⟨y, _, rfl⟩ := List.mem_map.mp hu
    exact hx

theorem elsewhere_unannounced (hx : x ≠ e) (b : Book P) (p : Param P) (name : String)
    (current : List (Option String × Capture)) :
    Elsewhere e (b.unannounced x p name current) := by
  intro u hu
  obtain ⟨path, _, rfl⟩ := List.mem_map.mp hu
  exact hx

theorem entity_refresh (b : Book P) (x : Entity) (p : Param P) (name : String) (u : UndoEntry P) :
    (b.refresh x p name u).entity = u.entity := by
  unfold refresh
  split
  · split
    · rfl
    · rfl
  · rfl

/-- Filling in values of one entity leaves the entries of another one alone. -/
theorem filter_refresh (hx : x ≠ e) (b : Book P) (p : Param P) (name : String)
    (entries : List (UndoEntry P)) :
    ((entries.map (b.refresh x p name)).filter fun u => u.entity == e) =
      entries.filter fun u => u.entity == e := by
  rw [filter_entity_map (entity_refresh b x p name)]
  refine (List.map_congr_left ?_).trans (List.map_id _)
  intro u hu
  have he : u.entity = e := by simpa using (List.mem_filter.mp hu).2
  cases u with
  | created _ | deleted _ => rfl
  | changed c =>
    have hne : (UndoEntry.changed c).targets x name = false := by
      have hc : c.entity ≠ x := by
        intro hc
        exact hx (hc.symm.trans he)
      simp [UndoEntry.targets, hc]
    unfold refresh
    simp [hne]

theorem about_ensureBaseline (hx : x ≠ e) (h : b.ensureBaseline o x = .ok o') :
    o'.about e = o.about e := by
  have henrolls := b.enrolls o x
  rw [h] at henrolls
  cases henrolls with
  | present => rfl
  | added _ _ _ seen =>
    unfold OpenOperation.about
    rw [(elsewhere_snapshots hx seen).filter_append]

theorem about_append (h : Elsewhere e (entries : List (UndoEntry P))) :
    { o with entries := o.entries ++ entries }.about e = o.about e := by
  unfold OpenOperation.about
  rw [h.filter_append]

theorem elsewhere_watchedSlots (hx : x ≠ e) (b : Book P) (o : OpenOperation P) (name : String) :
    Elsewhere e (b.watchedSlots o x name) := by
  intro u hu
  obtain ⟨p, _, _, hnew⟩ := mem_watchedSlots hu
  exact elsewhere_newSlots hx b o.entries p u hnew

/-- So does the end of a change of another entity, which adds entries about its new slots
    first and ends its watch. -/
theorem about_fillIn (hx : x ≠ e) (b : Book P) (o : OpenOperation P) (p : Param P)
    (name : String) : (b.fillIn o x p name).about e = o.about e := by
  have herase : ((o.watched.eraseP fun w => w.1 == x && w.2.name == name).filter
      fun w => w.1 == e) = o.watched.filter fun w => w.1 == e := by
    refine filter_eraseP ?_ o.watched
    intro w hw
    simp only [Bool.and_eq_true, beq_iff_eq] at hw
    simpa [hw.1] using hx
  unfold fillIn OpenOperation.about
  dsimp only
  rw [filter_refresh hx, (elsewhere_watchedSlots hx b o name).filter_append, herase]

/-- Watched side-tables add nothing about an entity unless they have new slots that are
    its own. -/
theorem filter_addNewSlots (b : Book P) {entries : List (UndoEntry P)}
    {watched : List (Entity × Param P)}
    (h : ∀ w ∈ watched, ∀ more, Elsewhere e (b.newSlots (entries ++ more) w.1 w.2)) :
    ((b.addNewSlots entries watched).filter fun u => u.entity == e) =
      entries.filter fun u => u.entity == e := by
  induction watched generalizing entries with
  | nil => rfl
  | cons w rest ih =>
    obtain ⟨x, p⟩ := w
    have hnew : Elsewhere e (b.newSlots entries x p) := by
      simpa using h (x, p) List.mem_cons_self []
    show ((b.addNewSlots (entries ++ b.newSlots entries x p) rest).filter _) = _
    rw [ih, hnew.filter_append]
    intro w hw more
    rw [List.append_assoc]
    exact h w (List.mem_cons_of_mem _ hw) _

theorem entity_close (b : Book P) (u : UndoEntry P) : (b.close u).entity = u.entity := by
  cases u <;> rfl

end Records

/-! ### Books aside from an entity -/

/-- The entity is live, and nobody has asked for its removal. -/
def Secure (b : Book P) (e : Entity) : Prop := ∃ i, b.get? e = some i ∧ i.deleting = false

/-- What a book is to an entity, and to what is recorded of it, the other one is too. -/
structure Aside (e : Entity) (b b' : Book P) : Prop where
  setup : b.SameSetup b'
  log : b'.undo = { b.undo with recording := b'.undo.recording }
  about : b'.undo.recording.map (fun o => o.about e) = b.undo.recording.map fun o => o.about e
  /-- Open edits may be closed, so that an entity that is to be removed may be gone. -/
  held : ∀ j, b'.get? e = some j → ∃ i, b.get? e = some i ∧ i.Same j ∧ j.deleting = i.deleting
  secure : b.Secure e → b'.Secure e

namespace Aside

variable {b b' b'' : Book P} {e x : Entity} {o : OpenOperation P}

theorem refl (b : Book P) (e : Entity) : Aside e b b :=
  ⟨.refl b, rfl, rfl, fun j hj => ⟨j, hj, .refl j, rfl⟩, fun h => h⟩

theorem trans (h : Aside e b b') (h' : Aside e b' b'') : Aside e b b'' where
  setup := h.setup.trans h'.setup
  log := by
    rw [h'.log, h.log]
  about := h'.about.trans h.about
  held := by
    intro k hk
    obtain ⟨j, hj, hjk, hdk⟩ := h'.held k hk
    obtain ⟨i, hi, hij, hdj⟩ := h.held j hj
    exact ⟨i, hi, hij.trans hjk, hdk.trans hdj⟩
  secure hs := h'.secure (h.secure hs)

theorem gone (h : Aside e b b') (hn : b.get? e = none) : b'.get? e = none := by
  cases hj : b'.get? e with
  | none => rfl
  | some j =>
    obtain ⟨i, hi, _⟩ := h.held j hj
    exact absurd (hn.symm.trans hi) (by simp)

/-- With no operation open the log does not change at all. -/
theorem undo_eq (h : Aside e b b') (hr : b.undo.recording = none) : b'.undo = b.undo := by
  have hr' : b'.undo.recording = none := by
    have habout := h.about
    rw [hr] at habout
    exact Option.map_eq_none_iff.mp habout
  have hlog := h.log
  rw [hr', ← hr] at hlog
  exact hlog

theorem recording (h : Aside e b b') (hr : b.undo.recording = some o) :
    ∃ o', b'.undo = { b.undo with recording := some o' } ∧ o'.about e = o.about e := by
  have habout := h.about
  rw [hr, Option.map_some] at habout
  obtain ⟨o', ho', heq⟩ := Option.map_eq_some_iff.mp habout
  exact ⟨o', ho' ▸ h.log, heq⟩

/-! ### Steps -/

/-- Steps that keep the instance. -/
theorem of_get?_eq (setup : b.SameSetup b') (undo : b'.undo = b.undo)
    (get : b'.get? e = b.get? e) : Aside e b b' where
  setup := setup
  log := by rw [undo]
  about := by rw [undo]
  held := by
    intro j hj
    exact ⟨j, get ▸ hj, .refl j, rfl⟩
  secure := by
    intro hs
    unfold Secure
    rw [get]
    exact hs

/-- Steps that only change what is recorded, about others. -/
theorem setRecording (hr : b.undo.recording = some o) {o' : OpenOperation P}
    (h : o'.about e = o.about e) : Aside e b (b.setRecording (some o')) where
  setup := ⟨rfl, rfl, rfl, rfl⟩
  log := rfl
  about := by
    show some (o'.about e) = _
    rw [hr, h]
    rfl
  held j hj := ⟨j, hj, .refl j, rfl⟩
  secure hs := hs

theorem of_keeps (h : b.Keeps b') (get : b'.get? e = b.get? e) : Aside e b b' :=
  of_get?_eq ⟨h.id, h.registry, h.config, h.backend⟩ h.undo get

theorem edit {α : Type} (hx : x ≠ e) (b : Book P) (change : Instance P → α × Instance P) :
    Aside e b (b.edit x change).2 := of_keeps (.edit b x change) (get?_edit_of_ne hx.symm)

theorem tryEdit (hx : x ≠ e) (b : Book P) (change : Instance P → Except StoreError (Instance P)) :
    Aside e b (b.tryEdit x change).2 := of_keeps (.tryEdit b x change) (get?_tryEdit_of_ne hx.symm)

theorem delete (hx : x ≠ e) (b : Book P) : Aside e b (b.delete x).2 :=
  of_keeps (.delete b x) (get?_delete_of_ne b hx.symm)

theorem write (hx : x ≠ e) (b : Book P) (name : String) (v : ParamValue) :
    Aside e b (b.write x name v).2 := by
  unfold Book.write
  split
  · exact refl b e
  · exact tryEdit hx b _

theorem writeText (hx : x ≠ e) (b : Book P) (name s : String) :
    Aside e b (b.writeText x name s).2 := by
  unfold Book.writeText
  split
  · exact refl b e
  · exact tryEdit hx b _

theorem create {tag : TypeTag} {guid : Guid} (hx : (⟨tag, guid⟩ : Entity) ≠ e) (b : Book P) :
    Aside e b (b.create tag guid).2 := by
  cases hc : b.create tag guid with
  | mk r b' =>
    cases r with
    | error err =>
      rw [create_eq_error hc]
      exact refl b e
    | ok x =>
      obtain ⟨_, _, _, _, _, _, _, rfl⟩ := create_eq_ok.mp hc
      exact of_get?_eq ⟨rfl, rfl, rfl, rfl⟩ rfl (get?_adopt_of_ne b hx.symm)

theorem beginEdit (b : Book P) (x e : Entity) : Aside e b (b.beginEdit x).2 := by
  have hk := Keeps.beginEdit b x
  by_cases hx : x = e
  · subst hx
    cases hi : b.get? x with
    | none =>
      rw [beginEdit_of_none hi]
      exact refl b x
    | some i =>
      have hopen := get?_beginEdit_self hi
      refine ⟨⟨hk.id, hk.registry, hk.config, hk.backend⟩, by rw [hk.undo], by rw [hk.undo], ?_, ?_⟩
      · intro j hj
        cases hopen.symm.trans hj
        exact ⟨i, hi, .enter i, rfl⟩
      · intro hs
        obtain ⟨j, hj, hd⟩ := hs
        cases hi.symm.trans hj
        exact ⟨i.enter, hopen, hd⟩
  · exact of_keeps hk (get?_beginEdit_of_ne b (Ne.symm hx))

theorem commitEdit (b : Book P) (x e : Entity) : Aside e b (b.commitEdit x).2 := by
  have hk := Keeps.commitEdit b x
  by_cases hx : x = e
  · subst hx
    have hsetup : b.SameSetup (b.commitEdit x).2 := ⟨hk.id, hk.registry, hk.config, hk.backend⟩
    have hclosed := closed_commitEdit b x
    generalize (b.commitEdit x).2 = b' at hclosed hk hsetup
    cases hclosed with
    | refused => exact refl b x
    | @inner i live level =>
      refine ⟨hsetup, rfl, rfl, ?_, ?_⟩
      · intro j hj
        cases (get?_put_self b x i.leave).symm.trans hj
        exact ⟨i, live, .leave i, rfl⟩
      · intro hs
        obtain ⟨j, hj, hd⟩ := hs
        cases live.symm.trans hj
        exact ⟨i.leave, get?_put_self b x _, hd⟩
    | @removed i live level deleting =>
      refine ⟨hsetup, rfl, rfl, ?_, ?_⟩
      · intro j hj
        exact absurd ((get?_remove_self _ x).symm.trans hj) (by simp)
      · intro hs
        obtain ⟨j, hj, hd⟩ := hs
        cases live.symm.trans hj
        exact absurd (deleting.symm.trans hd) (by simp)
    | @settled i live level kept accepted =>
      obtain ⟨j, hj, hclean⟩ := get?_settledAs_self (get?_put_self b x i.leave) accepted
      have hsame : i.Same j :=
        (Instance.Same.leave i).trans (Instance.Same.of_markClean hclean).symm
      have hdeleting : j.deleting = i.leave.deleting := Instance.deleting_of_markClean hclean
      refine ⟨hsetup, by rw [hk.undo], by rw [hk.undo], ?_, ?_⟩
      · intro k hjk
        cases hj.symm.trans hjk
        exact ⟨i, live, hsame, hdeleting⟩
      · intro _
        exact ⟨j, hj, hdeleting.trans kept⟩
  · exact of_keeps hk (get?_commitEdit_of_ne b (Ne.symm hx))

/-! ### Recording others -/

theorem recordCreate (hx : x ≠ e) (b : Book P) : Aside e b (b.recordCreate x) := by
  cases ho : b.recording? with
  | none =>
    rw [recordCreate_of_none ho]
    exact refl b e
  | some o =>
    rw [recordCreate_of_some ho]
    refine setRecording (recording?_eq_some ho) (about_append ?_)
    intro u hu
    rw [List.mem_singleton.mp hu]
    exact hx

theorem recordDelete (hx : x ≠ e) (b : Book P) : Aside e b (b.recordDelete x).2 := by
  have hrecords := b.recordsDelete x
  generalize b.recordDelete x = out at hrecords
  cases hrecords with
  | idle | unknown | gone | unread => exact refl b e
  | recorded recording _ _ seen =>
    refine setRecording (recording?_eq_some recording) (about_append ?_)
    intro u hu
    rcases List.mem_cons.mp hu with rfl | hu
    · exact hx
    · exact elsewhere_snapshots hx seen u hu

/-- Recording goes on with an operation that says the same of the entity as the one whose
    baseline is prepared. -/
theorem record {q : Param P} {o o' o'' : OpenOperation P} (hx : x ≠ e)
    (ready : b.Prepares x name q o o') (h : o''.about e = o'.about e) :
    Aside e b (b.setRecording (some o'')) :=
  setRecording (recording?_eq_some ready.recording)
    (h.trans (about_ensureBaseline hx ready.baseline))

theorem recordBefore (hx : x ≠ e) (b : Book P) (name : String) :
    Aside e b (b.recordBefore x name).2 := by
  have hrecords := b.recordsBefore x name
  generalize b.recordBefore x name = out at hrecords
  cases hrecords with
  | idle | unknown | unprepared => exact refl b e
  | again ready | gone ready | unread ready => exact record hx ready rfl
  | @first q _ _ _ _ ready _ _ seen =>
    -- The side-table that is watched from now on is one of the other entity.
    have hwatched : ((if q.isSlots then [(x, q)] else []).filter
        fun w : Entity × Param P => w.1 == e) = [] := by
      split
      · exact List.filter_eq_nil_iff.mpr (by simpa using hx)
      · rfl
    refine record hx ready ?_
    unfold OpenOperation.about
    dsimp only
    rw [(elsewhere_snapshots hx seen).filter_append, List.filter_append, hwatched, List.append_nil]

theorem recordAfter (hx : x ≠ e) (b : Book P) (name : String) :
    Aside e b (b.recordAfter x name).2 := by
  have hrecords := b.recordsAfter x name
  generalize b.recordAfter x name = out at hrecords
  cases hrecords with
  | idle | unknown | unprepared => exact refl b e
  | gone ready | unread ready => exact record hx ready rfl
  | filled ready => exact record hx ready (about_fillIn hx b _ _ name)
  | unannounced ready => exact record hx ready (about_append (elsewhere_unannounced hx _ _ _ _))

theorem modify (hx : x ≠ e) (b : Book P) (name s : String) : Aside e b (b.modify x name s).2 := by
  have hbefore := recordBefore hx b name
  have hwrite := hbefore.trans (writeText hx _ name s)
  have hmodifies := b.modifies x name s
  generalize b.modify x name s = out at hmodifies
  cases hmodifies with
  | unrecorded => exact hbefore
  | unwritten => exact hwrite
  | written => exact hwrite.trans (recordAfter hx _ name)

/-! ### Calls and runs -/

theorem call (b : Book P) {c : Call P} (hc : c.isAside e = true) : Aside e b (b.call c) := by
  cases c with
  | beginEdit x => exact beginEdit b x e
  | commitEdit x => exact commitEdit b x e
  | create tag guid => exact create (bne_iff_ne.mp hc) b
  | delete x => exact delete (bne_iff_ne.mp hc) b
  | edit x change => exact edit (bne_iff_ne.mp hc) b _
  | write x name v => exact write (bne_iff_ne.mp hc) b name v
  | writeText x name s => exact writeText (bne_iff_ne.mp hc) b name s
  | modify x name s => exact modify (bne_iff_ne.mp hc) b name s
  | link r => exact tryEdit (bne_iff_ne.mp hc) b _
  | recordCreate x => exact recordCreate (bne_iff_ne.mp hc) b
  | recordDelete x => exact recordDelete (bne_iff_ne.mp hc) b
  | recordBefore x name => exact recordBefore (bne_iff_ne.mp hc) b name
  | recordAfter x name => exact recordAfter (bne_iff_ne.mp hc) b name
  | pushPending | takePending | subscribe | unsubscribe | suspend | resume | markClean =>
    exact of_get?_eq ⟨rfl, rfl, rfl, rfl⟩ rfl rfl
  | _ => cases hc

theorem run (b : Book P) {calls : List (Call P)} (h : ∀ c ∈ calls, c.isAside e = true) :
    Aside e b (b.run calls) := by
  induction calls generalizing b with
  | nil => exact refl b e
  | cons c rest ih =>
    exact (call b (h c List.mem_cons_self)).trans
      (ih (b.call c) fun c' hc' => h c' (List.mem_cons_of_mem c hc'))

end Aside

end Book

end EntityBook
