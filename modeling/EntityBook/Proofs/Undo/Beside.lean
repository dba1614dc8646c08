import EntityBook.Proofs.Undo.SlotRecord

/-! # What is done beside a side-table

  While an operation works on a side-table, it may do other things: work on other
  entities, open and close edits, and change and record other parameters of the entity.
  All of these leave the table and its record alone.
-/

namespace EntityBook

variable {P : PayloadFamily}

/-- The parameter that a call writes or records. -/
def Call.param? : Call P → Option (Entity × String)
  | .write e name _ | .writeText e name _ | .modify e name _ | .recordBefore e name
    | .recordAfter e name => some (e, name)
  | _ => none

/-- Calls that leave the side-table of an entity and what is recorded of it alone. -/
inductive Call.SparesSlots (b : Book P) (e : Entity) : Call P → Prop where
  /-- Calls that are aside from the entity. -/
  | aside {c : Call P} (h : c.isAside e = true) : c.SparesSlots b e
  /-- Calls about a parameter of the entity that is no side-table. -/
  | value {c : Call P} {name : String} {q : Param P} (h : c.param? = some (e, name))
      (found : b.param? e name = .ok q) (value : q.isSlots = false) : c.SparesSlots b e
  /-- Edits that leave the side-table as it is. -/
  | edit (change : Mutation P) (h : ∀ i, (change.apply i).slots = i.slots) :
      (Call.edit e change).SparesSlots b e

namespace Book

/-- What a book is to a side-table, and to what is recorded of it, the other one is too. -/
structure Beside (e : Entity) (p : Param P) (b b' : Book P) : Prop where
  setup : b.SameSetup b'
  log : b'.undo = { b.undo with recording := b'.undo.recording }
  holds : ∀ {o : OpenOperation P} {r : SlotRecord}, b.undo.recording = some o → r.Holds o e p →
    ∃ o', b'.undo.recording = some o' ∧ r.Holds o' e p
  /-- No operation is opened. -/
  idle : b.undo.recording = none → b'.undo.recording = none
  table : ∀ {g : Frame}, b'.table? e = some g → b.table? e = some g

/-! ### Holding a record -/

section Holds

variable {b : Book P} {e : Entity} {p q : Param P} {o o' : OpenOperation P} {r : SlotRecord}
  {name : String}

/-- Only what is about the entity matters. -/
theorem holds_of_about (h : r.Holds o e p) (habout : o'.about e = o.about e) : r.Holds o' e p where
  cell := by
    have hentries : (o'.entries.filter fun u => u.entity == e) =
        o.entries.filter fun u => u.entity == e := congrArg OpenOperation.entries habout
    rw [← cell_filter_entity, hentries, cell_filter_entity]
    exact h.cell
  values := by
    intro u hu hue
    have hmem : u ∈ (o'.about e).entries := List.mem_filter.mpr ⟨hu, by simpa using hue⟩
    rw [habout] at hmem
    exact h.values u (List.mem_filter.mp hmem).1 hue
  watched := (congrArg OpenOperation.watched habout).trans h.watched

/-- So do entries about values of other parameters not matter. -/
theorem holds_append (h : r.Holds o e p) {more : List (UndoEntry P)}
    (hmore : ∀ u ∈ more, ∃ c, u = .changed c ∧ c.entity = e ∧ c.param = q ∧ c.path = none)
    (hq : q.isSlots = false) (hne : q.name ≠ p.name) :
    r.Holds { o with entries := o.entries ++ more } e p where
  cell := by
    have hnone : cell more e p.name = [] := by
      refine List.eq_nil_iff_forall_not_mem.mpr ?_
      intro c hc
      obtain ⟨hm, _, hname⟩ := mem_cell.mp hc
      obtain ⟨d, heq, _, hparam, _⟩ := hmore _ hm
      cases heq
      exact hne (hparam ▸ hname)
    show cell (o.entries ++ more) e p.name = _
    rw [cell_append, hnone, List.append_nil]
    exact h.cell
  values := by
    intro u hu hue
    rcases List.mem_append.mp hu with hu | hu
    · exact h.values u hu hue
    · obtain ⟨c, rfl, _, hparam, hpath⟩ := hmore u hu
      exact ⟨c, rfl, Or.inr ⟨hpath, hparam ▸ hq⟩⟩
  watched := h.watched

theorem holds_baseline (h : r.Holds o e p) (baseline : List (UndoEntry P)) :
    r.Holds { o with baseline } e p := ⟨h.cell, h.values, h.watched⟩

/-- A value of its own is all there is of a parameter that is no side-table. -/
theorem snapshot_value {i : Instance P} (hq : q.isSlots = false)
    {current : List (Option String × Capture)} (h : snapshot i q = .ok current) :
    ∃ s, current = [(none, .value s)] := by
  unfold snapshot at h
  rw [hq, if_neg Bool.false_ne_true] at h
  split at h
  · next s _ =>
    cases h
    exact ⟨s, rfl⟩
  · cases h

theorem mem_snapshots_value {i : Instance P} {after : Capture → Capture} (hq : q.isSlots = false)
    {more : List (UndoEntry P)} (h : snapshots e i after [q] = .ok more) :
    ∀ u ∈ more, ∃ c, u = .changed c ∧ c.entity = e ∧ c.param = q ∧ c.path = none := by
  unfold snapshots at h
  split at h
  · cases h
  · next current hcurrent =>
    obtain ⟨s, rfl⟩ := snapshot_value hq hcurrent
    cases h
    intro u hu
    cases List.mem_singleton.mp hu
    exact ⟨_, rfl, rfl, rfl, rfl⟩

theorem mem_unannounced_value {i : Instance P} (hq : q.isSlots = false)
    {current : List (Option String × Capture)} (h : snapshot i q = .ok current) :
    ∀ u ∈ b.unannounced e q name current,
      ∃ c, u = .changed c ∧ c.entity = e ∧ c.param = q ∧ c.path = none := by
  obtain ⟨s, rfl⟩ := snapshot_value hq h
  intro u hu
  unfold unannounced at hu
  rw [hq] at hu
  cases List.mem_singleton.mp hu
  exact ⟨_, rfl, rfl, rfl, rfl⟩

theorem name_of_param (h : b.param? e name = .ok q) : q.name = name := by
  obtain ⟨cl, _, hq⟩ := Registry.param?_eq_ok.mp h
  exact ObjectClass.name_of_param? hq

/-- Parameters that differ in what they are differ in their names. -/
theorem name_ne_of_value (hp : b.undoableParam e p.name = .ok p) (hslots : p.isSlots = true)
    (found : b.param? e name = .ok q) (hq : q.isSlots = false) : q.name ≠ p.name := by
  intro hname
  obtain ⟨cl, hcl, _, hpname⟩ := undoableParam_eq_ok.mp hp
  obtain ⟨cl', hcl', hqname⟩ := Registry.param?_eq_ok.mp found
  cases hcl.symm.trans hcl'
  rw [← name_of_param found, hname, hpname] at hqname
  cases hqname
  rw [hslots] at hq
  cases hq

end Holds

namespace Beside

variable {b b' b'' : Book P} {e : Entity} {p q : Param P} {name : String}

theorem refl (b : Book P) (e : Entity) (p : Param P) : Beside e p b b :=
  ⟨.refl b, rfl, fun ho hr => ⟨_, ho, hr⟩, fun h => h, fun ht => ht⟩

theorem trans (h : Beside e p b b') (h' : Beside e p b' b'') : Beside e p b b'' where
  setup := h.setup.trans h'.setup
  log := by
    rw [h'.log, h.log]
  holds := by
    intro o r ho hr
    obtain ⟨o', ho', hr'⟩ := h.holds ho hr
    exact h'.holds ho' hr'
  idle hr := h'.idle (h.idle hr)
  table ht := h.table (h'.table ht)

theorem of_aside (h : Aside e b b') : Beside e p b b' where
  setup := h.setup
  log := h.log
  holds := by
    intro o r ho hr
    obtain ⟨o', ho', habout⟩ := h.recording ho
    exact ⟨o', by rw [ho'], holds_of_about hr habout⟩
  idle hr := (congrArg UndoLog.recording (h.undo_eq hr)).trans hr
  table := by
    intro g ht
    obtain ⟨j, hj, hslots⟩ := Option.map_eq_some_iff.mp ht
    obtain ⟨i, hi, hij, _⟩ := h.held j hj
    unfold table?
    rw [hi, Option.map_some, hij.slots, hslots]

/-- An edit that leaves the side-table as it is. -/
theorem edit {α : Type} (hb : b.WellFormed) {change : Instance P → α × Instance P}
    (hc : ∀ i : Instance P, i.Rewrites (change i).2) (hs : ∀ i, (change i).2.slots = i.slots) :
    Beside e p b (b.edit e change).2 := by
  have hrev : b.Revises (b.edit e change).2 := .edit hb hc
  refine ⟨.of_revises hrev, by rw [hrev.undo], ?_, ?_, ?_⟩
  · intro o r ho hr
    exact ⟨o, hrev.undo ▸ ho, hr⟩
  · intro hr
    exact hrev.undo ▸ hr
  · intro g ht
    cases hi : b.get? e with
    | none =>
      unfold table? at ht
      rw [hrev.gone hi] at ht
      cases ht
    | some i =>
      obtain ⟨j, hj, hclean⟩ := get?_edit_self hi (hc i.enter) (hb.fits e i hi).deleting
      have hslots : j.slots = i.slots := (Instance.slots_of_markClean hclean).trans (hs i.enter)
      unfold table? at ht ⊢
      rw [hj, Option.map_some, hslots] at ht
      rw [hi, Option.map_some]
      exact ht

theorem tryEdit (hb : b.WellFormed) {change : Instance P → Except StoreError (Instance P)}
    (hc : ∀ i j, change i = .ok j → i.Rewrites j ∧ j.slots = i.slots) :
    Beside e p b (b.tryEdit e change).2 := by
  rw [tryEdit_snd]
  refine edit hb (fun i => rewrites_tryChange fun j hj => (hc i j hj).1) ?_
  intro i
  cases hi : change i with
  | error err =>
    have hfailed : (change i).map (fun j => ((), j)) = .error err := by simp [hi, Except.map]
    rw [attempt_of_error hfailed]
  | ok j =>
    rw [attempt_of_ok (a := ()) (j := j) (by simp [hi, Except.map])]
    exact (hc i j hi).2

/-- Steps that only change what is recorded. -/
theorem setRecording {o : OpenOperation P} (ho : b.undo.recording = some o)
    {o' : OpenOperation P} (h : ∀ {r : SlotRecord}, r.Holds o e p → r.Holds o' e p) :
    Beside e p b (b.setRecording (some o')) where
  setup := ⟨rfl, rfl, rfl, rfl⟩
  log := rfl
  holds := by
    intro o₁ r ho₁ hr
    cases ho.symm.trans ho₁
    exact ⟨o', rfl, h hr⟩
  idle hr := absurd (ho.symm.trans hr) (by simp)
  table ht := ht

/-- Recording goes on with an operation that holds what the one whose baseline is prepared
    holds. -/
theorem record {o o' o'' : OpenOperation P} (ready : b.Prepares e name q o o')
    (h : ∀ {r : SlotRecord}, r.Holds o' e p → r.Holds o'' e p) :
    Beside e p b (b.setRecording (some o'')) := by
  obtain ⟨base, rfl⟩ := exists_baseline ready.baseline
  exact setRecording (recording?_eq_some ready.recording) fun hr => h (holds_baseline hr base)

/-- A parameter that can be recorded is the one that has the name. -/
theorem param_of_undoable (h : b.undoableParam e name = .ok q) : b.param? e name = .ok q := by
  obtain ⟨cl, hcl, _, hq⟩ := undoableParam_eq_ok.mp h
  exact Registry.param?_eq_ok.mpr ⟨cl, hcl, hq⟩

theorem eq_of_prepares (found : b.param? e name = .ok q) {q' : Param P} {o o' : OpenOperation P}
    (ready : b.Prepares e name q' o o') : q' = q :=
  Except.ok.inj ((param_of_undoable ready.param).symm.trans found)

section Value

variable (hb : b.WellFormed) (found : b.param? e name = .ok q) (hq : q.isSlots = false)
  (hne : q.name ≠ p.name)
include found hq

include hb in
theorem write (v : ParamValue) : Beside e p b (b.write e name v).2 := by
  unfold Book.write
  rw [found]
  refine tryEdit hb ?_
  intro i j hj
  exact ⟨Instance.rewrites_write hj, Instance.slots_write hq hj⟩

include hb in
theorem writeText (s : String) : Beside e p b (b.writeText e name s).2 := by
  unfold Book.writeText
  rw [found]
  refine tryEdit hb ?_
  intro i j hj
  exact ⟨Instance.rewrites_writeText hj, Instance.slots_writeText hq hj⟩

include hne

theorem recordBefore : Beside e p b (b.recordBefore e name).2 := by
  have hrecords := b.recordsBefore e name
  generalize b.recordBefore e name = out at hrecords
  cases hrecords with
  | idle | unknown | unprepared => exact refl b e p
  | again ready | gone ready | unread ready => exact record ready fun hr => hr
  | first ready _ _ seen =>
    cases eq_of_prepares found ready
    rw [hq, if_neg Bool.false_ne_true, List.append_nil]
    exact record ready fun hr => holds_append hr (mem_snapshots_value hq seen) hq hne

omit hq in
/-- The watch of the table is not the parameter's. -/
theorem watched_of_ne {watched : List (Entity × Param P)} {n : Nat}
    (hw : (watched.filter fun w => w.1 == e) = List.replicate n (e, p)) :
    ∀ w ∈ watched, ¬ (w.1 == e && w.2.name == name) = true := by
  intro w hmem hown
  obtain ⟨hwe, hname⟩ := Bool.and_eq_true_iff.mp hown
  have hm : w ∈ watched.filter fun w => w.1 == e := List.mem_filter.mpr ⟨hmem, hwe⟩
  rw [hw] at hm
  cases List.eq_of_mem_replicate hm
  exact hne ((name_of_param found).trans (eq_of_beq hname).symm)

omit hq in
/-- Filling in the values of the parameter. -/
theorem holds_fillIn {o : OpenOperation P} {r : SlotRecord} (hr : r.Holds o e p) :
    r.Holds (b.fillIn o e q name) e p := by
  rw [fillIn_of_unwatched (watched_of_ne found hne hr.watched)]
  refine ⟨?_, ?_, hr.watched⟩
  · refine (Recorded.cell_refresh_of_ne _ _ _ ?_).trans hr.cell
    intro hboth
    exact hne ((name_of_param found).trans hboth.2.symm)
  · intro u hu hue
    obtain ⟨v, hv, rfl⟩ := List.mem_map.mp hu
    rw [entity_refresh] at hue
    exact HasTable.ofValue_refresh (hr.values v hv hue) _ _

theorem recordAfter : Beside e p b (b.recordAfter e name).2 := by
  have hrecords := b.recordsAfter e name
  generalize b.recordAfter e name = out at hrecords
  cases hrecords with
  | idle | unknown | unprepared => exact refl b e p
  | gone ready | unread ready => exact record ready fun hr => hr
  | filled ready =>
    cases eq_of_prepares found ready
    exact record ready fun hr => holds_fillIn found hne hr
  | unannounced ready _ _ seen =>
    cases eq_of_prepares found ready
    exact record ready fun hr => holds_append hr (mem_unannounced_value hq seen) hq hne

include hb in
theorem modify (s : String) : Beside e p b (b.modify e name s).2 := by
  have hregistry {b' : Book P} (h : Beside e p b b') : b'.param? e name = .ok q := by
    unfold param?
    rw [h.setup.registry]
    exact found
  have hwf := (Acts.recordBefore b e name).steps.wellFormed hb
  have hbefore := recordBefore found hq hne
  have hwrite := hbefore.trans (writeText hwf (hregistry hbefore) hq s)
  have hmodifies := b.modifies e name s
  generalize b.modify e name s = out at hmodifies
  cases hmodifies with
  | unrecorded => exact hbefore
  | unwritten => exact hwrite
  | written => exact hwrite.trans (recordAfter (hregistry hwrite) hq hne)

end Value

theorem call (h : b.undoableParam e p.name = .ok p) (hslots : p.isSlots = true) (hb : b.WellFormed)
    {c : Call P} (hc : c.SparesSlots b e) : Beside e p b (b.call c) := by
  cases hc with
  | aside hc => exact of_aside (.call b hc)
  | edit change hs => exact edit hb (fun i => (change.touches i).toRewrites) hs
  | value hc found hq =>
    have hne := name_ne_of_value h hslots found hq
    cases c with
    | write x name v =>
      cases hc
      exact write hb found hq v
    | writeText x name s =>
      cases hc
      exact writeText hb found hq s
    | modify x name s =>
      cases hc
      exact modify hb found hq hne s
    | recordBefore x name =>
      cases hc
      exact recordBefore found hq hne
    | recordAfter x name =>
      cases hc
      exact recordAfter found hq hne
    | _ => cases hc

end Beside

theorem sparesSlots_congr {b b' : Book P} {e : Entity} {c : Call P} (h : c.SparesSlots b e)
    (hset : b.SameSetup b') : c.SparesSlots b' e := by
  cases h with
  | aside h => exact .aside h
  | edit change h => exact .edit change h
  | value h found value =>
    refine .value h ?_ value
    unfold param?
    rw [hset.registry]
    exact found

theorem Beside.run {b : Book P} {e : Entity} {p : Param P} {calls : List (Call P)}
    (hp : b.undoableParam e p.name = .ok p) (hslots : p.isSlots = true) (hb : b.WellFormed)
    (hcalls : ∀ c ∈ calls, c.SparesSlots b e) : Beside e p b (b.run calls) := by
  induction calls generalizing b with
  | nil => exact .refl b e p
  | cons c rest ih =>
    have hone : Beside e p b (b.call c) := .call hp hslots hb (hcalls c List.mem_cons_self)
    refine hone.trans (ih ?_ ((Steps.call b c).wellFormed hb) ?_)
    · exact (undoableParam_congr hone.setup.registry e p.name).trans hp
    · intro c' hc'
      exact sparesSlots_congr (hcalls c' (List.mem_cons_of_mem c hc')) hone.setup

end Book

end EntityBook
