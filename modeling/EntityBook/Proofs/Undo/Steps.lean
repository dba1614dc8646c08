import EntityBook.Proofs.Undo.Recording

/-! # Steps of an operation

  The three things that a user does inside an operation: making an entity,
  changing a parameter and deleting an entity, each with what is recorded of it.
  Each of them preserves `Recorded`, whether it succeeds or fails.
-/

namespace EntityBook

variable {P : PayloadFamily}

namespace Book

/-- A step of an operation. -/
inductive Action where
  /-- Makes an entity and records it. -/
  | create (tag : TypeTag) (guid : Guid)
  /-- Writes a parameter from a text, which is recorded. -/
  | modify (entity : Entity) (name : String) (text : String)
  /-- Records an entity and deletes it. -/
  | delete (entity : Entity)

/-- Does one step. -/
def perform (b : Book P) : Action → Book P
  | .create tag g =>
    match b.create tag g with
    | (.ok e, b) => b.recordCreate e
    | (.error _, b) => b
  | .modify e name s => (b.modify e name s).2
  | .delete e => ((b.recordDelete e).2.delete e).2

/-- What is asked of a step. No entity is made again that the operation deleted;
    side-tables are not written as a whole; and all values that are captured are
    restored from what is captured of them: the value before and after a change,
    all values of an entity that is deleted, and those of an entity that is
    changed while no operation is applied. -/
def Faithful (b : Book P) : Action → Prop
  | .create tag g => ∀ o e, b.undo.recording = some o → (b.create tag g).1 = .ok e →
    UndoEntry.deleted e ∉ o.entries
  | .modify e name s => ∀ p, b.undoableParam e name = .ok p →
    p.isSlots = false ∧ b.Restorable e p ∧ (b.modify e name s).2.Restorable e p ∧
      (b.undo.cursor = 0 → b.RestorableAll e)
  | .delete e => b.RestorableAll e

variable {b₀ b : Book P} {o : OpenOperation P}

namespace Recorded

/-! ### Making an entity -/

/-- The life of an entity that is made. -/
theorem life_create (h : Recorded b₀ b o) {b' : Book P} {e : Entity} (hnone : b.get? e = none)
    (hnotGone : UndoEntry.deleted e ∉ o.entries) {cl : ObjectClass P} {payload : Payload P}
    (hmakes : b₀.Makes e cl payload) (hget : b'.get? e = some (b₀.newborn e payload)) :
    Life b₀ b' (o.entries ++ [.created e]) e := by
  cases h.life e with
  | live _ _ _ now =>
    rw [hnone] at now
    cases now
  | gone _ _ _ _ isGone | passed _ _ _ isGone => exact absurd isGone hnotGone
  | absent before _ notMade notGone unseen =>
    have hisMade : UndoEntry.created e ∈ o.entries ++ [.created e] :=
      List.mem_append_right _ List.mem_cons_self
    -- A newborn counts as live from the start, with the values of its class.
    refine .live (b₀.newborn e payload) _ (.new cl payload before hisMade hmakes) hget ?_ ?_
    · intro hm
      rcases List.mem_append.mp hm with hm | hm
      · exact notGone hm
      · cases List.mem_singleton.mp hm
    · intro cl' _ p _ v₀ v hv₀ hv
      rw [cell_append, unseen]
      exact .untouched (Option.some.inj (hv.symm.trans hv₀))

theorem create (h : Recorded b₀ b o) (tag : TypeTag) (g : Guid)
    (hf : b.Faithful (.create tag g)) : ∃ o', Recorded b₀ (b.perform (.create tag g)) o' := by
  unfold perform
  dsimp only
  cases hc : b.create tag g with
  | mk r b' =>
    cases r with
    | error err =>
      have hsame := create_eq_error hc
      subst hsame
      exact ⟨o, h⟩
    | ok e =>
      obtain ⟨he, hg, hfree, cl, payload, hcl, hp, hb'⟩ := create_eq_ok.mp hc
      have hnone : b.get? e = none := by
        rw [he]
        simpa [contains] using hfree
      obtain ⟨hsteady, hsetup, hundo⟩ := h.steady.create tag g
      rw [hc] at hsteady hsetup hundo
      have hsetup : b.SameSetup b' := hsetup
      have hundo : b'.undo = b.undo := hundo
      -- A faithful step makes no entity again that the operation has deleted.
      have hnotGone : UndoEntry.deleted e ∉ o.entries := by
        refine hf o e ?_ ?_
        · rw [h.log]
        · rw [hc]
      have hrec : b'.recording? = some o := by
        unfold recording?
        rw [hsetup.config, hundo]
        exact h.recording?_eq
      have hmakes : b₀.Makes e cl payload := by
        rw [he]
        exact ⟨hg, h.registry_eq ▸ hcl, hp⟩
      have hget : b'.get? e = some (b₀.newborn e payload) := by
        rw [hb', he, ← h.setup.newborn]
        exact get?_adopt_self b (b.newborn ⟨tag, g⟩ payload)
      refine ⟨{ o with entries := o.entries ++ [.created e] }, ?_⟩
      show Recorded b₀ (b'.recordCreate e) _
      rw [recordCreate_of_some hrec]
      refine ⟨h.initial, h.lawful, h.enabled, h.accepting, hsteady.setRecording _,
        h.setup.trans (hsetup.trans ⟨rfl, rfl, rfl, rfl⟩), ?_, h.unwatched, ?_, ?_, ?_⟩
      · unfold addEntries setRecording
        rw [hundo, h.log]
      · intro c hm
        rcases List.mem_append.mp hm with hm | hm
        · exact h.fits c hm
        · cases List.mem_singleton.mp hm
      · intro e'
        -- Only the entity that is made gains an entry.
        by_cases hee : e' = e
        · rw [hee]
          exact h.life_create hnone hnotGone hmakes hget
        · have hother : (b'.addEntries o [.created e]).get? e' = b.get? e' := by
            show b'.get? e' = b.get? e'
            rw [hb']
            refine get?_adopt_of_ne b ?_
            rw [entity_newborn, ← he]
            exact hee
          refine (h.life e').append hother ?_ ?_ ?_
          · intro hm
            exact hee (UndoEntry.created.inj (List.mem_singleton.mp hm))
          · intro hm
            cases List.mem_singleton.mp hm
          · intro name
            rw [cell_created, cell_nil]
      · refine h.baseline.withEntries ?_
        intro _ e' name hgone hcell
        rw [cell_append, cell_created, cell_nil, List.append_nil] at hcell
        exact Or.inr ⟨fun hm => hgone (List.mem_append_left _ hm), hcell⟩

/-! ### Deleting an entity -/

/-- What is recorded of an entity that is about to be deleted. -/
def deletion (e : Entity) (i : Instance P) (cl : ObjectClass P) : List (UndoEntry P) :=
  .deleted e :: snapshotOf e (fun _ => .absent) (valueOf i) cl.copyable

theorem not_mem_deletion {e : Entity} {i : Instance P} {cl : ObjectClass P} {u : UndoEntry P}
    (hu : ∀ c, u ≠ .changed c) (hne : u ≠ .deleted e) : u ∉ deletion e i cl := by
  intro hm
  rcases List.mem_cons.mp hm with hm | hm
  · exact hne hm
  · obtain ⟨_, _, c, _, hc⟩ := mem_snapshotOf hm
    exact hu c hc

theorem cell_deletion_self {e : Entity} {i : Instance P} {cl : ObjectClass P} (hcl : cl.WellFormed)
    {p : Param P} (hp : p ∈ cl.copyable) :
    cell (deletion e i cl) e p.name = captured e p (fun _ => .absent) (valueOf i p) := by
  unfold deletion
  rw [cell_deleted, cell_snapshotOf_self _ _ _ (ObjectClass.nodup_copyable hcl) hp]

theorem cell_deletion_of_ne {e e' : Entity} (he : e' ≠ e) (i : Instance P) (cl : ObjectClass P)
    (name : String) : cell (deletion e i cl) e' name = [] := by
  unfold deletion
  rw [cell_deleted, cell_snapshotOf_of_ne he]

theorem fitEntries_deletion {b : Book P} (hb : b.WellFormed) {e : Entity} {i : Instance P}
    (hi : b.get? e = some i) {cl : ObjectClass P}
    (hcl : b.registry.find? e.typeTag = some cl) : b.FitEntries (deletion e i cl) := by
  intro c hc
  rcases List.mem_cons.mp hc with hc | hc
  · cases hc
  · exact hb.fitEntries_snapshotOf hi hcl _ c hc

theorem recordDelete_of_live {b : Book P} (hb : b.WellFormed) {o : OpenOperation P}
    (ho : b.recording? = some o) {e : Entity} {i : Instance P} (hi : b.get? e = some i)
    {cl : ObjectClass P} (hcl : b.registry.find? e.typeTag = some cl) :
    b.recordDelete e = (.ok (), b.addEntries o (deletion e i cl)) := by
  have hvalues : ∀ p ∈ cl.copyable, i.value? p.accessor = some (valueOf i p) := by
    intro p hp
    exact hb.exists_value hi hcl hp
  exact recordDelete_of_seen ho (Registry.class?_eq_ok.mpr hcl) hi (snapshots_eq e i _ hvalues)

/-- The life of an entity that is deleted. -/
theorem life_delete (h : Recorded b₀ b o) {b' : Book P} {e : Entity} {i : Instance P}
    (hi : b.get? e = some i) {cl : ObjectClass P} (hcl : b.registry.find? e.typeTag = some cl)
    (hr : b.RestorableAll e) (hgone : b'.get? e = none) :
    Life b₀ b' (o.entries ++ deletion e i cl) e := by
  have hcl₀ : b₀.registry.find? e.typeTag = some cl := h.registry_eq ▸ hcl
  have hclwf : cl.WellFormed := h.steady.wellFormed.registry.of_find? hcl
  have hisGone : UndoEntry.deleted e ∈ o.entries ++ deletion e i cl :=
    List.mem_append_right _ List.mem_cons_self
  have hmade : UndoEntry.created e ∈ o.entries ++ deletion e i cl ↔
      UndoEntry.created e ∈ o.entries := by
    refine mem_append_of_not_mem (not_mem_deletion ?_ ?_)
    · intro c hc
      cases hc
    · intro hc
      cases hc
  cases h.life e with
  | absent _ now | gone _ _ now | passed _ now =>
    rw [hi] at now
    cases now
  | live i₀ j origin now _ cells =>
    cases now.symm.trans hi
    cases origin with
    -- Made and deleted in one operation: nothing is left of it on either side.
    | new _ _ before isMade => exact .passed before hgone (hmade.mpr isMade) hisGone
    | old _ before notMade =>
      refine .gone i₀ before hgone (fun hm => notMade (hmade.mp hm)) hisGone ?_
      intro cl' hcl' p hp v₀ hv₀
      cases hcl'.symm.trans hcl₀
      have hv := h.steady.wellFormed.exists_value hi hcl hp
      rw [cell_append, cell_deletion_self hclwf hp]
      exact (cells cl hcl₀ p hp v₀ _ hv₀ hv).shut (lastSeen_captured e (hr cl hcl p hp i _ hi hv))

theorem delete (h : Recorded b₀ b o) (e : Entity) (hf : b.Faithful (.delete e)) :
    ∃ o', Recorded b₀ (b.perform (.delete e)) o' := by
  show ∃ o', Recorded b₀ ((b.recordDelete e).2.delete e).2 o'
  cases hi : b.get? e with
  | none =>
    -- Nothing is recorded and nothing is deleted.
    rw [recordDelete_of_none hi, delete_snd, edit_of_none hi]
    exact ⟨o, h⟩
  | some i =>
    obtain ⟨cl, hcl, _⟩ := (h.steady.wellFormed.fits e i hi).known
    have hsteady : (b.addEntries o (deletion e i cl)).Steady := h.steady.setRecording _
    obtain ⟨hlast, hsetup, hundo⟩ := hsteady.delete e
    have hadd : b.SameSetup (b.addEntries o (deletion e i cl)) := ⟨rfl, rfl, rfl, rfl⟩
    refine ⟨{ o with entries := o.entries ++ deletion e i cl }, ?_⟩
    rw [recordDelete_of_live h.steady.wellFormed h.recording?_eq hi hcl]
    refine ⟨h.initial, h.lawful, h.enabled, h.accepting, hlast,
      h.setup.trans (hadd.trans hsetup), ?_, h.unwatched, ?_, ?_, ?_⟩
    · rw [hundo]
      unfold addEntries setRecording
      rw [h.log]
    · intro c hm
      rcases List.mem_append.mp hm with hm | hm
      · exact h.fits c hm
      · exact (fitEntries_deletion h.steady.wellFormed hi hcl).of_setup h.setup.symm c hm
    · intro e'
      by_cases he : e' = e
      · rw [he]
        exact h.life_delete hi hcl hf (get?_delete_self hi (h.steady.quiet e i hi).1)
      · refine (h.life e').append (get?_delete_of_ne (b.addEntries o (deletion e i cl)) he) ?_ ?_
          (cell_deletion_of_ne he i cl)
        · refine not_mem_deletion ?_ ?_
          · intro c hc
            cases hc
          · intro hc
            cases hc
        · refine not_mem_deletion ?_ ?_
          · intro c hc
            cases hc
          · intro hc
            exact he (UndoEntry.deleted.inj hc)
    · refine h.baseline.withEntries ?_
      intro _ e' name hnot hcell
      have he : e' ≠ e := by
        intro he
        exact hnot (he ▸ List.mem_append_right _ List.mem_cons_self)
      rw [cell_append, cell_deletion_of_ne he, List.append_nil] at hcell
      exact Or.inr ⟨fun hm => hnot (List.mem_append_left _ hm), hcell⟩

/-! ### Changing a parameter -/

/-- What is recorded of a parameter before its first change. -/
def sighting (e : Entity) (i : Instance P) (p : Param P) : Change P :=
  { entity := e, param := p, path := none, before := .value (valueOf i p).text }

theorem cell_sighting_self (e : Entity) (i : Instance P) (p : Param P) :
    cell [.changed (sighting e i p)] e p.name = [sighting e i p] := by
  unfold cell
  simp [UndoEntry.change?, sighting]

theorem cell_sighting_of_ne {e e' : Entity} {p : Param P} {name : String}
    (hne : ¬ (e' = e ∧ name = p.name)) (i : Instance P) :
    cell [.changed (sighting e i p)] e' name = [] := by
  refine List.eq_nil_iff_forall_not_mem.mpr ?_
  intro d hd
  obtain ⟨hm, he, hn⟩ := mem_cell.mp hd
  cases List.mem_singleton.mp hm
  exact hne ⟨he.symm, hn.symm⟩

/-- A parameter that is no side-table has one snapshot. -/
theorem snapshots_sighting (hb : b.WellFormed) {e : Entity} {i : Instance P}
    (hi : b.get? e = some i) {cl : ObjectClass P} (hcl : b.registry.find? e.typeTag = some cl)
    {p : Param P} (hp : p ∈ cl.copyable) (hs : p.isSlots = false) :
    snapshots e i (fun _ => .pending) [p] = .ok [.changed (sighting e i p)] := by
  have hv := hb.exists_value hi hcl hp
  rw [snapshots_singleton e _ hv]
  unfold captured
  rw [ParamValue.captures_eq (Instance.hasKind_value hv) hs]
  rfl

/-- What recording a live parameter before it changes comes to: its value is captured
    unless it was already. -/
theorem recordBefore_of_live (hb : b.WellFormed) (hrec : b.recording? = some o) {e : Entity}
    {p : Param P} (hp : b.undoableParam e p.name = .ok p) (hs : p.isSlots = false)
    {i : Instance P} (hi : b.get? e = some i) :
    ∃ baseline more, b.recordBefore e p.name = (.ok (), b.setRecording
        (some { o with baseline, entries := o.entries ++ more })) ∧
      (more = [] ∧ cell o.entries e p.name ≠ [] ∨
        more = [.changed (sighting e i p)] ∧ cell o.entries e p.name = []) := by
  obtain ⟨baseline, hbase⟩ := exists_ensureBaseline hb o hi
  obtain ⟨cl, hcl, hmem, _⟩ := undoableParam_eq_ok.mp hp
  have hready : b.Prepares e p.name p o { o with baseline } := ⟨hrec, hp, hbase⟩
  by_cases hcell : cell o.entries e p.name = []
  · refine ⟨baseline, [.changed (sighting e i p)], ?_, Or.inr ⟨rfl, hcell⟩⟩
    rw [hready.recordBefore_first (not_any_targets.mpr hcell) hi
      (snapshots_sighting hb hi hcl hmem hs), hs, if_neg Bool.false_ne_true, List.append_nil]
  · refine ⟨baseline, [], ?_, Or.inl ⟨rfl, hcell⟩⟩
    rw [hready.recordBefore_again (any_targets.mpr hcell), List.append_nil]

theorem not_mem_sighting {e : Entity} {i : Instance P} {p : Param P} {u : UndoEntry P}
    (hu : ∀ c, u ≠ .changed c) : u ∉ [UndoEntry.changed (sighting e i p)] := by
  intro hm
  exact hu _ (List.mem_singleton.mp hm)

/-- The life of an entity of which a parameter is seen for the first time. -/
theorem life_see (h : Recorded b₀ b o) {b' : Book P} {e : Entity} {i : Instance P}
    (hi : b.get? e = some i) (hi' : b'.get? e = some i) {cl : ObjectClass P}
    (hcl : b.registry.find? e.typeTag = some cl) {p : Param P} (hp : p ∈ cl.copyable)
    (hs : p.isSlots = false) (hnew : cell o.entries e p.name = []) (hr : b.Restorable e p) :
    Life b₀ b' (o.entries ++ [.changed (sighting e i p)]) e := by
  have hcl₀ : b₀.registry.find? e.typeTag = some cl := h.registry_eq ▸ hcl
  have hclwf : cl.WellFormed := h.steady.wellFormed.registry.of_find? hcl
  have hv := h.steady.wellFormed.exists_value hi hcl hp
  have hparse : ParamValue.parse p.kind (valueOf i p).text = .ok (valueOf i p) :=
    (hr i _ hi hv).parse hs (Instance.hasKind_value hv)
  have hmade : UndoEntry.created e ∈ o.entries ++ [.changed (sighting e i p)] ↔
      UndoEntry.created e ∈ o.entries := by
    refine mem_append_of_not_mem (not_mem_sighting ?_)
    intro c hc
    cases hc
  have hgone : UndoEntry.deleted e ∈ o.entries ++ [.changed (sighting e i p)] ↔
      UndoEntry.deleted e ∈ o.entries := by
    refine mem_append_of_not_mem (not_mem_sighting ?_)
    intro c hc
    cases hc
  cases h.life e with
  | absent _ now | gone _ _ now | passed _ now =>
    rw [hi] at now
    cases now
  | live i₀ j origin now notGone cells =>
    cases now.symm.trans hi
    refine .live i₀ i (origin.congr hmade) hi' (fun hm => notGone (hgone.mp hm)) ?_
    intro cl' hcl' q hq v₀ v hv₀ hvq
    cases hcl'.symm.trans hcl₀
    have hopen := cells cl hcl₀ q hq v₀ v hv₀ hvq
    rw [cell_append]
    by_cases hn : q.name = p.name
    · -- nothing was recorded of it, so it has the value that it had at first
      have hqp : q = p := ObjectClass.eq_of_name_eq hclwf
        (ObjectClass.mem_params_of_mem_copyable hq)
        (ObjectClass.mem_params_of_mem_copyable hp) hn
      subst hqp
      cases hv.symm.trans hvq
      rw [hnew] at hopen
      cases hopen with
      | untouched same =>
        rw [hnew, List.nil_append, cell_sighting_self, ← same]
        exact .before e hparse
    · rw [cell_sighting_of_ne (fun hboth => hn hboth.2), List.append_nil]
      exact hopen

/-- Capturing the value of a parameter before its first change. -/
theorem see (h : Recorded b₀ b o) {e : Entity} {i : Instance P} (hi : b.get? e = some i)
    {cl : ObjectClass P} (hcl : b.registry.find? e.typeTag = some cl) {p : Param P}
    (hp : p ∈ cl.copyable) (hs : p.isSlots = false) (hnew : cell o.entries e p.name = [])
    (hr : b.Restorable e p)
    (hcover : b₀.undo.cursor = 0 → ∃ u ∈ o.baseline, u.entity = e) :
    Recorded b₀ (b.addEntries o [.changed (sighting e i p)])
      { o with entries := o.entries ++ [.changed (sighting e i p)] } := by
  refine ⟨h.initial, h.lawful, h.enabled, h.accepting, h.steady.setRecording _,
    h.setup.trans ⟨rfl, rfl, rfl, rfl⟩, ?_, h.unwatched, ?_, ?_, ?_⟩
  · unfold addEntries setRecording
    rw [h.log]
  · intro d hd
    rcases List.mem_append.mp hd with hd | hd
    · exact h.fits d hd
    · cases List.mem_singleton.mp hd
      exact ⟨cl, h.registry_eq ▸ hcl, hp, hs.symm⟩
  · intro e'
    have hget : (b.addEntries o [.changed (sighting e i p)]).get? e' = b.get? e' := rfl
    -- The capture concerns one parameter of one entity; everything else is as before.
    by_cases he : e' = e
    · subst he
      exact h.life_see hi (hget.trans hi) hcl hp hs hnew hr
    · refine (h.life e').append hget (not_mem_sighting ?_) (not_mem_sighting ?_) ?_
      · intro c hc
        cases hc
      · intro c hc
        cases hc
      · intro name
        exact cell_sighting_of_ne (fun hboth => he hboth.1) i
  · refine h.baseline.withEntries ?_
    intro hcursor e' name hnot hne
    by_cases he : e' = e
    · rw [he]
      exact Or.inl (hcover hcursor)
    · rw [cell_append, cell_sighting_of_ne (fun hboth => he hboth.1), List.append_nil] at hne
      exact Or.inr ⟨fun hm => hnot (List.mem_append_left _ hm), hne⟩

/-- Recording a parameter before it changes. -/
theorem recordBefore (h : Recorded b₀ b o) {e : Entity} {name : String}
    (hf : ∀ p, b.undoableParam e name = .ok p →
      p.isSlots = false ∧ b.Restorable e p ∧ (b₀.undo.cursor = 0 → b.RestorableAll e)) :
    ∃ o', Recorded b₀ (b.recordBefore e name).2 o' ∧
      (∀ e', (b.recordBefore e name).2.get? e' = b.get? e') ∧
      ((b.recordBefore e name).1 = .ok () → ∃ p, b.undoableParam e name = .ok p ∧
        cell o'.entries e name ≠ [] ∧
        (b₀.undo.cursor = 0 → ∃ u ∈ o'.baseline, u.entity = e)) := by
  have hrecords := b.recordsBefore e name
  generalize b.recordBefore e name = out at hrecords
  -- The operation that is ready, with all that is known of its parameter.
  have prepared {p : Param P} {o₁ o' : OpenOperation P} (ready : b.Prepares e name p o₁ o') :
      Recorded b₀ (b.setRecording (some o')) o' ∧
        (b₀.undo.cursor = 0 → ∃ u ∈ o'.baseline, u.entity = e) := by
    obtain ⟨cl, hcl, hp, _⟩ := undoableParam_eq_ok.mp ready.param
    obtain ⟨hs, _, hall⟩ := hf p ready.param
    cases ready.recording.symm.trans h.recording?_eq
    obtain ⟨h', _, hcover⟩ := h.ensureBaseline ready.baseline hall
    exact ⟨h', hcover cl hcl p hp hs⟩
  cases hrecords with
  | idle closed => cases closed.symm.trans h.recording?_eq
  | unknown | unprepared => exact ⟨o, h, fun _ => rfl, fun hok => nomatch hok⟩
  | gone ready | unread ready => exact ⟨_, (prepared ready).1, fun _ => rfl, fun hok => nomatch hok⟩
  | again ready known =>
    obtain ⟨h', hcover⟩ := prepared ready
    exact ⟨_, h', fun _ => rfl, fun _ => ⟨_, ready.param, any_targets.mp known, hcover⟩⟩
  | @first p _ o' i _ ready fresh live seen =>
    obtain ⟨h', hcover⟩ := prepared ready
    obtain ⟨cl, hcl, hp, hname⟩ := undoableParam_eq_ok.mp ready.param
    have hname : p.name = name := ObjectClass.name_of_param? hname
    subst hname
    obtain ⟨hs, hr, _⟩ := hf p ready.param
    have hnew : cell o'.entries e p.name = [] := not_any_targets.mp fresh
    cases (snapshots_sighting h.steady.wellFormed live hcl hp hs).symm.trans seen
    rw [hs, if_neg Bool.false_ne_true, List.append_nil]
    refine ⟨_, h'.see live hcl hp hs hnew hr hcover, fun _ => rfl, fun _ => ?_⟩
    refine ⟨p, ready.param, ?_, hcover⟩
    rw [cell_append, cell_sighting_self]
    simp

/-- What writing a text to a parameter of a live entity comes to. -/
theorem writeText_cases (h : Recorded b₀ b o) {e : Entity} {name : String} {p : Param P}
    (hp : b.undoableParam e name = .ok p) {i : Instance P} (hi : b.get? e = some i) (s : String) :
    (∃ w k, (b.writeText e name s).1 = .ok () ∧ (b.writeText e name s).2.get? e = some k ∧
      k.value? p.accessor = some w ∧
      ∀ cl, b.registry.find? e.typeTag = some cl → ∀ q ∈ cl.copyable, q.name ≠ p.name →
        k.value? q.accessor = i.value? q.accessor) ∨
    (∃ err k, (b.writeText e name s).1 = .error err ∧
      (b.writeText e name s).2.get? e = some k ∧ k.Same i) := by
  obtain ⟨cl, hcl, hmem, hname⟩ := undoableParam_eq_ok.mp hp
  have hparam : b.param? e name = .ok p := Registry.param?_eq_ok.mpr ⟨cl, hcl, hname⟩
  have hlaw : cl.IsLawful := h.lawful.of_find? (h.registry_eq ▸ hcl)
  obtain ⟨hlevel, hdeleting⟩ := h.steady.quiet e i hi
  have hidle : i.deleting = true → 0 < i.level := by
    intro hd
    rw [hdeleting] at hd
    cases hd
  unfold Book.writeText
  rw [hparam]
  dsimp only
  -- Nobody else edits the entity, so the edit around the write is settled at once.
  cases hw : i.enter.writeText p s with
  | ok j =>
    left
    have hrw := Instance.rewrites_writeText hw
    obtain ⟨k, hk, hclean⟩ := get?_tryEdit_self (f := fun i => i.writeText p s) hi hw hrw hidle
    have hok := tryEdit_fst_of_ok (f := fun i => i.writeText p s) hi hw hrw hlevel hdeleting
      (h.setup.backend ▸ h.accepting)
    have hsame : k.Same j := (Instance.Same.of_markClean hclean).trans (Instance.Same.leave j).symm
    obtain ⟨_, w, _, hwrite⟩ := Instance.writeText_cases hw
    refine ⟨w, k, hok, hk, ?_, ?_⟩
    · rw [hsame.value?]
      exact Instance.value?_write_self (hlaw.accessor p hmem) hwrite
    · intro cl' hcl' q hq hn
      cases hcl'.symm.trans hcl
      rw [hsame.value?, hlaw.independent p hmem q hq (Ne.symm hn) _ _ w hwrite]
      exact ((Instance.Same.enter i).value? _).symm
  | error err =>
    right
    obtain ⟨k, hk, hclean⟩ := get?_tryEdit_failed (f := fun i => i.writeText p s) hi hw hidle
    obtain ⟨err', herr⟩ := tryEdit_fst_of_error (f := fun i => i.writeText p s) hi hw
    exact ⟨err', k, herr, hk, .of_markClean hclean⟩

theorem get?_writeText_of_ne {e e' : Entity} (he : e' ≠ e) (name s : String) :
    (b.writeText e name s).2.get? e' = b.get? e' := by
  unfold Book.writeText
  split
  · rfl
  · exact get?_tryEdit_of_ne he

/-- A write that fails, or has nothing to write to, changes no value. -/
theorem of_failed (h : Recorded b₀ b o) {e : Entity} {name s : String} {err : StoreError}
    (hf : (b.writeText e name s).1 = .error err) (hp : ∃ p, b.undoableParam e name = .ok p) :
    Recorded b₀ (b.writeText e name s).2 o := by
  have hrev := Revises.writeText h.steady.wellFormed e name s
  refine ⟨h.initial, h.lawful, h.enabled, h.accepting, h.steady.of_revises hrev,
    h.setup.trans (.of_revises hrev), hrev.undo.trans h.log, h.unwatched, h.fits, ?_, h.baseline⟩
  intro e'
  refine (h.life e').congr ?_ hrev.gone Iff.rfl Iff.rfl fun _ => rfl
  intro i hi
  by_cases he : e' = e
  · subst he
    obtain ⟨p, hp⟩ := hp
    rcases h.writeText_cases hp hi s with ⟨_, _, hok, _⟩ | ⟨_, k, _, hk, hsame⟩
    · rw [hok] at hf
      cases hf
    · exact ⟨k, hk, hsame.value?⟩
  · exact ⟨i, (get?_writeText_of_ne he name s).trans hi, fun _ => rfl⟩

/-- What filling in the present value makes of a change. -/
def refreshed (b : Book P) (e : Entity) (p : Param P) (name : String) (c : Change P) : Change P :=
  if c.entity == e && c.param.name == name then { c with after := b.capture e p c.path } else c

theorem refreshed_entity (b : Book P) (e : Entity) (p : Param P) (name : String) (c : Change P) :
    (refreshed b e p name c).entity = c.entity := by
  unfold refreshed
  split <;> rfl

theorem refreshed_param (b : Book P) (e : Entity) (p : Param P) (name : String) (c : Change P) :
    (refreshed b e p name c).param = c.param := by
  unfold refreshed
  split <;> rfl

theorem refreshed_path (b : Book P) (e : Entity) (p : Param P) (name : String) (c : Change P) :
    (refreshed b e p name c).path = c.path := by
  unfold refreshed
  split <;> rfl

theorem refresh_changed (b : Book P) (e : Entity) (p : Param P) (name : String) (c : Change P) :
    b.refresh e p name (.changed c) = .changed (refreshed b e p name c) := by
  unfold refreshed
  show (if (c.entity == e && c.param.name == name) = true then
    UndoEntry.changed { c with after := b.capture e p c.path } else .changed c) = _
  split <;> rfl

theorem cell_refresh (b : Book P) (entries : List (UndoEntry P)) (e : Entity) (p : Param P)
    (name : String) (e' : Entity) (n : String) :
    cell (entries.map (b.refresh e p name)) e' n =
      (cell entries e' n).map (refreshed b e p name) := by
  refine cell_map ?_ (refreshed_entity b e p name) (refreshed_param b e p name) entries e' n
  intro u
  cases u with
  | created _ | deleted _ => rfl
  | changed c => rw [refresh_changed]; rfl

theorem mem_map_refresh {entries : List (UndoEntry P)} {e : Entity} {p : Param P}
    {name : String} {u : UndoEntry P} (hu : ∀ c, u ≠ .changed c) :
    u ∈ entries.map (b.refresh e p name) ↔ u ∈ entries := by
  rw [List.mem_map]
  constructor
  · intro hm
    obtain ⟨v, hv, heq⟩ := hm
    cases v with
    | created _ | deleted _ => exact heq ▸ hv
    | changed c =>
      rw [refresh_changed] at heq
      exact absurd heq.symm (hu _)
  · intro hm
    cases u with
    | created _ | deleted _ => exact ⟨_, hm, rfl⟩
    | changed c => exact absurd rfl (hu c)

/-- No other parameter has its entries refreshed. -/
theorem cell_refresh_of_ne (b : Book P) (entries : List (UndoEntry P)) {e e' : Entity} (p : Param P)
    {name n : String} (hne : ¬ (e' = e ∧ n = name)) :
    cell (entries.map (b.refresh e p name)) e' n = cell entries e' n := by
  rw [cell_refresh]
  refine (List.map_congr_left ?_).trans (List.map_id _)
  intro c hc
  obtain ⟨_, he, hn⟩ := mem_cell.mp hc
  unfold refreshed
  rw [if_neg]
  · rfl
  · intro hboth
    have hboth : c.entity = e ∧ c.param.name = name := by simpa using hboth
    exact hne ⟨he.symm.trans hboth.1, hn.symm.trans hboth.2⟩

theorem fitEntries_refresh (b : Book P) {entries : List (UndoEntry P)}
    (h : b₀.FitEntries entries) (e : Entity) (p : Param P) (name : String) :
    b₀.FitEntries (entries.map (b.refresh e p name)) := by
  intro c hc
  obtain ⟨u, hu, heq⟩ := List.mem_map.mp hc
  cases u with
  | created _ | deleted _ => cases heq
  | changed d =>
    rw [refresh_changed] at heq
    cases heq
    obtain ⟨cl, hcl, hfits⟩ := h d hu
    refine ⟨cl, ?_, ?_, ?_⟩
    · rw [refreshed_entity]
      exact hcl
    · rw [refreshed_param]
      exact hfits.param
    · rw [refreshed_path, refreshed_param]
      exact hfits.path

/-- A write that succeeds has something to write to. -/
theorem writeText_ne_ok {e : Entity} (hi : b.get? e = none) (name s : String) :
    (b.writeText e name s).1 ≠ .ok () := by
  unfold Book.writeText
  split
  · intro hbad
    cases hbad
  · unfold tryEdit
    rw [edit_of_none hi]
    intro hbad
    cases hbad

/-- Refreshing a change of a parameter captures its present value. -/
theorem refreshed_of_mem {entries : List (UndoEntry P)} {e : Entity} {k : Instance P} {p : Param P}
    {w : ParamValue} {c : Change P} (hc : c ∈ cell entries e p.name) (hpath : c.path = none)
    (hk : b.get? e = some k) (hw : k.value? p.accessor = some w) :
    refreshed b e p p.name c = { c with after := .value w.text } := by
  obtain ⟨_, hce, hcn⟩ := mem_cell.mp hc
  unfold refreshed
  rw [if_pos (by simp [hce, hcn]), hpath, capture_eq hk hw]

/-- The cell of the parameter that was written. -/
theorem openCell_written {b' : Book P} {e : Entity} {k : Instance P} {p : Param P}
    {v₀ v w : ParamValue} (hk : b'.get? e = some k) (hw : k.value? p.accessor = some w)
    (hparse : ParamValue.parse p.kind w.text = .ok w) (hcell : cell o.entries e p.name ≠ [])
    (hopen : OpenCell p v₀ v (cell o.entries e p.name)) :
    OpenCell p v₀ w (cell (o.entries.map (b'.refresh e p p.name)) e p.name) := by
  rw [cell_refresh]
  cases hcs : cell o.entries e p.name with
  | nil => exact absurd hcs hcell
  | cons c rest =>
    rw [hcs] at hopen
    cases hopen with
    -- The one capture of the cell is refreshed: it now ends with what was written.
    | seen _ hc =>
      have hin : c ∈ cell o.entries e p.name := by
        rw [hcs]
        exact List.mem_cons_self
      rw [List.map_singleton, refreshed_of_mem hin hc.path hk hw]
      exact .after (.seen c hc) hparse

/-- The life of an entity of which a parameter was written. -/
theorem life_written (h : Recorded b₀ b o) {e : Entity} {s : String} {p : Param P}
    (hp : b.undoableParam e p.name = .ok p) (hs : p.isSlots = false)
    (hcell : cell o.entries e p.name ≠ []) (hok : (b.writeText e p.name s).1 = .ok ())
    {b' : Book P} (hget : b'.get? e = (b.writeText e p.name s).2.get? e)
    (hr : b'.Restorable e p) {entries : List (UndoEntry P)}
    (hentries : entries = o.entries.map ((b.writeText e p.name s).2.refresh e p p.name)) :
    Life b₀ b' entries e := by
  subst hentries
  obtain ⟨cl, hcl, hmem, _⟩ := undoableParam_eq_ok.mp hp
  have hcl₀ : b₀.registry.find? e.typeTag = some cl := h.registry_eq ▸ hcl
  have hclwf : cl.WellFormed := h.steady.wellFormed.registry.of_find? hcl
  cases h.life e with
  | absent _ _ _ _ unseen => exact absurd (unseen p.name) hcell
  | gone _ _ now | passed _ now => exact absurd hok (writeText_ne_ok now p.name s)
  | live i₀ i origin now notGone cells =>
    rcases h.writeText_cases hp now s with ⟨w, k, _, hk, hw, hrest⟩ | ⟨err, _, hbad, _⟩
    · have hmade : UndoEntry.created e ∈
          o.entries.map ((b.writeText e p.name s).2.refresh e p p.name) ↔
            UndoEntry.created e ∈ o.entries := by
        refine mem_map_refresh ?_
        intro c hc
        cases hc
      have hgone : UndoEntry.deleted e ∈
          o.entries.map ((b.writeText e p.name s).2.refresh e p p.name) ↔
            UndoEntry.deleted e ∈ o.entries := by
        refine mem_map_refresh ?_
        intro c hc
        cases hc
      refine .live i₀ k (origin.congr hmade) (hget.trans hk) (fun hm => notGone (hgone.mp hm)) ?_
      intro cl' hcl' q hq v₀ v hv₀ hv
      cases hcl'.symm.trans hcl₀
      -- The parameter that was written, or an independent one.
      by_cases hn : q.name = p.name
      · have hqp : q = p := ObjectClass.eq_of_name_eq hclwf
          (ObjectClass.mem_params_of_mem_copyable hq)
          (ObjectClass.mem_params_of_mem_copyable hmem) hn
        subst hqp
        cases hw.symm.trans hv
        have hbefore := h.steady.wellFormed.exists_value now hcl hmem
        have hparse : ParamValue.parse q.kind w.text = .ok w :=
          (hr k w (hget.trans hk) hw).parse hs (Instance.hasKind_value hw)
        exact openCell_written hk hw hparse hcell (cells cl hcl₀ q hq v₀ _ hv₀ hbefore)
      · rw [cell_refresh_of_ne _ _ p fun hboth => hn hboth.2]
        refine cells cl hcl₀ q hq v₀ v hv₀ ?_
        rw [← hrest cl hcl q hq hn]
        exact hv
    · rw [hok] at hbad
      cases hbad

/-- Recording a parameter after it was written. -/
theorem of_written (h : Recorded b₀ b o) {e : Entity} {s : String} {p : Param P}
    (hp : b.undoableParam e p.name = .ok p) (hs : p.isSlots = false)
    (hcell : cell o.entries e p.name ≠ [])
    (hcover : b₀.undo.cursor = 0 → ∃ u ∈ o.baseline, u.entity = e)
    (hok : (b.writeText e p.name s).1 = .ok ())
    (hr : ((b.writeText e p.name s).2.recordAfter e p.name).2.Restorable e p) :
    ∃ o', Recorded b₀ ((b.writeText e p.name s).2.recordAfter e p.name).2 o' := by
  have hrev := Revises.writeText h.steady.wellFormed e p.name s
  set b' := (b.writeText e p.name s).2 with hb'
  have hlog : b'.undo = { b₀.undo with recording := some o } := hrev.undo.trans h.log
  have hrec : b'.recording? = some o := by
    unfold recording?
    rw [hrev.config, h.setup.config, if_pos h.enabled, hlog]
  have hparam : b'.undoableParam e p.name = .ok p := by
    refine undoableParam_eq_ok.mpr ?_
    rw [hrev.registry]
    exact undoableParam_eq_ok.mp hp
  -- The first change has put the entity into the baseline, if there is one.
  have hdone : b'.Enrolled o e := by
    unfold Enrolled
    rw [hlog]
    by_cases hcursor : b₀.undo.cursor = 0
    · exact Or.inr (hcover hcursor)
    · exact Or.inl (Nat.pos_of_ne_zero hcursor)
  have hready : b'.Prepares e p.name p o o := ⟨hrec, hparam, ensureBaseline_of_enrolled hdone⟩
  have hafter := congrArg Prod.snd (hready.recordAfter_filled (any_targets.mpr hcell))
  rw [fillIn_of_unwatched (by simp [h.unwatched])] at hafter
  refine ⟨{ o with entries := o.entries.map (b'.refresh e p p.name) }, ?_⟩
  rw [hafter] at hr ⊢
  refine ⟨h.initial, h.lawful, h.enabled, h.accepting, (h.steady.of_revises hrev).setRecording _,
    h.setup.trans ((SameSetup.of_revises hrev).trans ⟨rfl, rfl, rfl, rfl⟩), ?_, h.unwatched,
    fitEntries_refresh b' h.fits e p p.name, ?_, ?_⟩
  · unfold setRecording
    rw [hlog]
  · intro e'
    have hsame (o : Option (OpenOperation P)) : (b'.setRecording o).get? e' = b'.get? e' := rfl
    -- The refresh touches the cells of the written parameter only.
    by_cases he : e' = e
    · subst he
      exact h.life_written hp hs hcell hok (hsame _) hr rfl
    · have hget : b'.get? e' = b.get? e' := get?_writeText_of_ne he p.name s
      refine (h.life e').congr ?_ ?_ (mem_map_refresh ?_) (mem_map_refresh ?_) ?_
      · intro i hi
        exact ⟨i, hget.trans hi, fun _ => rfl⟩
      · intro hn
        exact hget.trans hn
      · intro c hc
        cases hc
      · intro c hc
        cases hc
      · intro n
        exact cell_refresh_of_ne b' o.entries p fun hboth => he hboth.1
  · refine h.baseline.withEntries ?_
    intro _ e' n hnot hne
    right
    refine ⟨?_, ?_⟩
    · intro hm
      refine hnot ((mem_map_refresh ?_).mpr hm)
      intro c hc
      cases hc
    · intro hnil
      refine hne ?_
      rw [cell_refresh, hnil]
      rfl

theorem modify (h : Recorded b₀ b o) (e : Entity) (name s : String)
    (hf : b.Faithful (.modify e name s)) : ∃ o', Recorded b₀ (b.perform (.modify e name s)) o' := by
  have hf' : ∀ p, b.undoableParam e name = .ok p → p.isSlots = false ∧ b.Restorable e p ∧
      (b₀.undo.cursor = 0 → b.RestorableAll e) := by
    intro p hp
    obtain ⟨hs, hr, _, hall⟩ := hf p hp
    refine ⟨hs, hr, ?_⟩
    intro hcursor
    exact hall (h.cursor_eq.trans hcursor)
  obtain ⟨o', h', _, hseen⟩ := h.recordBefore hf'
  -- What was recorded before is about the parameter, and it stays so.
  have recorded (before : (b.recordBefore e name).1 = .ok ()) :
      ∃ p, p.name = name ∧ b.undoableParam e name = .ok p ∧
        (b.recordBefore e name).2.undoableParam e name = .ok p ∧ cell o'.entries e name ≠ [] ∧
        (b₀.undo.cursor = 0 → ∃ u ∈ o'.baseline, u.entity = e) := by
    obtain ⟨p, hp, hcell, hcover⟩ := hseen before
    obtain ⟨_, _, _, hname⟩ := undoableParam_eq_ok.mp hp
    refine ⟨p, ObjectClass.name_of_param? hname, hp, ?_, hcell, hcover⟩
    exact (undoableParam_congr (h'.registry_eq.trans h.registry_eq.symm) e name).trans hp
  have hlast : ∀ p, b.undoableParam e name = .ok p → (b.modify e name s).2.Restorable e p := by
    intro p hp
    exact (hf p hp).2.2.1
  show ∃ o', Recorded b₀ (b.modify e name s).2 o'
  have hmodifies := b.modifies e name s
  generalize b.modify e name s = out at hmodifies hlast
  -- Capture, write, refresh: each part keeps what the operation knows.
  cases hmodifies with
  | unrecorded => exact ⟨o', h'⟩
  | unwritten before write =>
    obtain ⟨p, rfl, _, hp', _⟩ := recorded before
    exact ⟨o', h'.of_failed write ⟨p, hp'⟩⟩
  | written before write =>
    obtain ⟨p, rfl, hp, hp', hcell, hcover⟩ := recorded before
    exact h'.of_written hp' (hf p hp).1 hcell hcover write (hlast p hp)

/-- Every step preserves what the operation knows. -/
theorem perform (h : Recorded b₀ b o) {a : Action} (hf : b.Faithful a) :
    ∃ o', Recorded b₀ (b.perform a) o' := by
  cases a with
  | create tag g => exact h.create tag g hf
  | modify e name s => exact h.modify e name s hf
  | delete e => exact h.delete e hf

end Recorded

end Book

end EntityBook
