import EntityBook.Proofs.Undo.Revival
import EntityBook.Proofs.Undo.SlotRun

/-! # Side-tables of entities that are deleted

  An operation announces a side-table, changes it, and deletes the entity. Undo makes the
  entity again with the table that it had when it was deleted, and then takes the changes
  back: the leaves that were seen at first are written, and what else there is stays,
  because new slots are not looked for on an entity that is gone. So the table is the one
  from before if every leaf in the end is at, above or below one that was seen.

  An operation that says that the change is done before it deletes the entity looks for
  new slots then. It goes wrong only as an operation without a deletion does, on a table
  that was empty and of which the log knows a value.
-/

namespace EntityBook

variable {P : PayloadFamily}

namespace Book

variable {b₀ b c : Book P} {e : Entity} {p : Param P} {s : SlotState} {i : Instance P}
  {cl : ObjectClass P} {after outer : List (Call P)}

/-! ### What was captured for the deletion -/

theorem mem_undoPatchesOf {cs : List (Change P)} {x : Frame.Patch} :
    x ∈ undoPatchesOf cs ↔ ∃ d ∈ cs, d.kept = false ∧ ∃ path, d.path = some path ∧
      Frame.patch? path d.before = some x := by
  unfold undoPatchesOf
  rw [List.mem_filterMap]
  constructor
  · intro h
    obtain ⟨d, hd, hpatch⟩ := h
    obtain ⟨hmem, hkept⟩ := List.mem_filter.mp (List.mem_reverse.mp hd)
    obtain ⟨path, hpath, hx⟩ := Option.bind_eq_some_iff.mp hpatch
    exact ⟨d, hmem, by simpa using hkept, path, hpath, hx⟩
  · intro h
    obtain ⟨d, hmem, hkept, path, hpath, hx⟩ := h
    exact ⟨d, List.mem_reverse.mpr (List.mem_filter.mpr ⟨hmem, by simpa using hkept⟩),
      Option.bind_eq_some_iff.mpr ⟨path, hpath, hx⟩⟩

/-- A change with a path that was captured for the deletion is about a leaf. -/
theorem mem_deletion_path (hb : b.WellFormed) (hi : b.get? e = some i)
    (hcl : b.registry.find? e.typeTag = some cl) {d : Change P}
    (hd : UndoEntry.changed d ∈ Recorded.deletion e i cl) :
    d.entity = e ∧ d.kept = false ∧ d.param ∈ cl.copyable ∧ d.path.isSome = d.param.isSlots ∧
      (d.param.isSlots = true → ∃ x ∈ i.slots.leaves, d.path = some x.1 ∧
        d.before = .value x.2.text) := by
  rcases List.mem_cons.mp hd with heq | hd
  · cases heq
  · obtain ⟨q, hq, d', hd', heq⟩ := mem_snapshotOf hd
    cases heq
    obtain ⟨he, hparam, _, hkept, hcap⟩ := mem_captured hd'
    have hvalue := hb.exists_value hi hcl hq
    refine ⟨he, hkept, hparam ▸ hq, ?_, ?_⟩
    · rw [hparam]
      exact isSome_path_of_mem_captures (Instance.hasKind_value hvalue) hcap
    · intro hslots
      rw [hparam] at hslots
      rw [Instance.accessor_of_isSlots hslots] at hvalue
      rw [← Option.some.inj hvalue] at hcap
      obtain ⟨x, hx, heq⟩ := List.mem_map.mp hcap
      exact ⟨x, hx, (Prod.mk.inj heq).1.symm, (Prod.mk.inj heq).2.symm⟩

/-- Undo of the deletion writes all leaves of the table that was deleted. -/
theorem undoPatchesOf_deletion {g : Frame} (h : b.HasTable e p g) (hi : b.get? e = some i)
    (hcl : b.registry.find? e.typeTag = some cl) :
    g.WritesLeaves (undoPatchesOf ((Recorded.deletion e i cl).filterMap UndoEntry.change?)) ∧
      ∀ ns t, g.leafAt ns = some t →
        (ns, some t) ∈ undoPatchesOf ((Recorded.deletion e i cl).filterMap UndoEntry.change?) := by
  obtain ⟨j, hj, hslots⟩ := h.exists_instance
  cases hi.symm.trans hj
  have hpatch {ns : List String} {t : Slot} (hleaf : g.leafAt ns = some t) :
      Frame.patch? (Frame.pathOf ns) (.value t.text) = some (ns, some t) :=
    Frame.patch?_value (Frame.named_of_leafAt h.tidy hleaf) (h.readable ns t hleaf)
  constructor
  · intro x hx
    obtain ⟨d, hd, _, path, hpath, hpx⟩ := mem_undoPatchesOf.mp hx
    obtain ⟨_, _, _, hsome, hleaf⟩ := mem_deletion_path h.wellFormed hi hcl (mem_change?.mp hd)
    rw [hpath] at hsome
    obtain ⟨y, hy, hpath', hbefore⟩ := hleaf hsome.symm
    rw [hslots, Frame.leaves_eq] at hy
    obtain ⟨⟨ns, t⟩, hz, rfl⟩ := List.mem_map.mp hy
    have hleaf := (Frame.mem_leafList h.tidy).mp hz
    cases hpath.symm.trans hpath'
    rw [hbefore, hpatch hleaf] at hpx
    cases hpx
    exact ⟨t, rfl, hleaf⟩
  · intro ns t hleaf
    obtain ⟨cl', hcl', hmem, _⟩ := undoableParam_eq_ok.mp h.param
    cases hcl.symm.trans hcl'
    have hvalue : valueOf i p = .slots g :=
      Option.some.inj ((h.wellFormed.exists_value hi hcl hmem).symm.trans (h.value_eq hi))
    -- The leaf is among the captures of the table.
    have hcap : (some (Frame.pathOf ns), Capture.value t.text) ∈ (valueOf i p).captures := by
      rw [hvalue]
      exact List.mem_map_of_mem (Frame.mem_leaves_of_leafAt h.tidy hleaf)
    obtain ⟨d, hd, hdx⟩ := List.mem_map.mp
      ((map_before_captured e p (fun _ => .absent) (valueOf i p)).symm ▸ hcap)
    have hentry : UndoEntry.changed d ∈ Recorded.deletion e i cl :=
      List.mem_cons_of_mem _ (List.mem_flatMap.mpr ⟨p, hmem, List.mem_map_of_mem hd⟩)
    refine mem_undoPatchesOf.mpr ⟨d, mem_change?.mpr hentry, (mem_captured hd).2.2.2.1, _,
      (Prod.mk.inj hdx).1, ?_⟩
    rw [(Prod.mk.inj hdx).2]
    exact hpatch hleaf

/-! ### Undo of the whole operation -/

/-- The table when values are restored: the one that was deleted is still there, or that
    of a new instance is. -/
theorem slots_prepared {entries : List (UndoEntry P)} {payload : Payload P} (hdoomed : c.Doomed e i)
    (hmade : e ∈ entitiesOf entries Direction.undo.made) (hm : c.Makes e cl payload) :
    ∃ j, (c.prepared entries .undo).get? e = some j ∧ (j.slots = i.slots ∨ j.slots = .empty) := by
  cases hj : c.get? e with
  | some j => exact ⟨j, get?_prepared_of_some hj, Or.inl (hdoomed j hj).1.slots.symm⟩
  | none => exact ⟨_, get?_prepared_of_none hj hmade hm, Or.inr rfl⟩

/-- What is seen at the end of a table whose entity was deleted: nothing, or what was there. -/
theorem capture_of_doomed (h : c.Doomed e i) (p : Param P) (path : String) :
    c.capture e p (some path) = .absent ∨ c.capture e p (some path) = i.slots.seenAt path := by
  unfold capture
  cases hj : c.get? e with
  | none => exact Or.inl rfl
  | some j =>
    right
    rw [(h j hj).1.slots]
    rfl

/-- Undo of a deletion, and of changes that were recorded before it. -/
theorem table?_undo_deletion {g : Frame} (h : b.HasTable e p g) (hi : b.get? e = some i)
    (hcl : b.registry.find? e.typeTag = some cl) (hc : c.WellFormed) (hdoomed : c.Doomed e i)
    {payload : Payload P} (hm : c.Makes e cl payload) {entries earlier : List (UndoEntry P)}
    (hown : (entries.filter fun u => u.entity == e) = earlier ++ Recorded.deletion e i cl)
    (hvalues : ∀ u ∈ earlier, u.OfValue p)
    (hpaths : ∀ d ∈ cell earlier e p.name, d.path.isSome = true) :
    (c.replay entries .undo).table? e =
      some ((undoPatchesOf (cell earlier e p.name)).foldl Frame.apply g) := by
  have hmem (u : UndoEntry P) (hu : u.entity = e) :
      u ∈ entries ↔ u ∈ earlier ∨ u ∈ Recorded.deletion e i cl := by
    rw [← List.mem_append, ← hown, List.mem_filter]
    simp [hu]
  have hdeletion {d : Change P} (hd : UndoEntry.changed d ∈ Recorded.deletion e i cl) :=
    mem_deletion_path h.wellFormed hi hcl hd
  have hspared : UndoEntry.created e ∉ entries := by
    intro hm
    rcases (hmem _ rfl).mp hm with hm | hm
    · obtain ⟨d, hd, _⟩ := hvalues _ hm
      cases hd
    · refine Recorded.not_mem_deletion ?_ ?_ hm
      · intro d hd
        cases hd
      · intro hd
        cases hd
  have hmade : e ∈ entitiesOf entries Direction.undo.made :=
    mem_entitiesOf_create.mpr ((hmem (.deleted e) rfl).mpr (Or.inr List.mem_cons_self))
  obtain ⟨j, hj, hslots⟩ := slots_prepared hdoomed hmade hm
  -- Changes without a path are about parameters that are no side-tables.
  have hvalue {d : Change P} (hd : UndoEntry.changed d ∈ entries) (hde : d.entity = e)
      (hnone : d.path = none) : d.param.isSlots = false := by
    rcases (hmem (.changed d) hde).mp hd with hd | hd
    · exact not_isSlots_of_path (fun u hu _ => hvalues u hu) hpaths hd hde hnone
    · rw [← (hdeletion hd).2.2.2.1, hnone]
      rfl
  have hwhole : (earlier.filterMap UndoEntry.change?).filter (fun c => c.entity == e) =
      earlier.filterMap UndoEntry.change? := by
    refine List.filter_eq_self.mpr ?_
    intro d hd
    have hin : UndoEntry.changed d ∈ entries.filter fun u => u.entity == e := by
      rw [hown]
      exact List.mem_append_left _ (mem_change?.mp hd)
    exact (List.mem_filter.mp hin).2
  have hearlier : undoPatchesOf (earlier.filterMap UndoEntry.change?) =
      undoPatchesOf (cell earlier e p.name) := by
    rw [← hwhole]
    exact undoPatchesOf_about fun u hu _ => hvalues u hu
  have hback := table?_undo hc hspared hj fun d hd hde hnone => hvalue hd hde hnone
  rw [hback, ← filterMap_change?_entity, hown, List.filterMap_append, undoPatchesOf_append,
    List.foldl_append, hearlier]
  -- First the deleted table is there again.
  obtain ⟨hwrites, hall⟩ := undoPatchesOf_deletion h hi hcl
  obtain ⟨i', hi', hi's⟩ := h.exists_instance
  cases hi.symm.trans hi'
  rcases hslots with heq | heq
  · rw [heq, hi's, Frame.foldl_leaves_eq h.tidy h.tidy hwrites hall fun _ _ h => h]
  · rw [heq, Frame.foldl_leaves_eq h.tidy (show Frame.empty.Tidy from trivial) hwrites hall]
    intro ns t ht
    rw [Frame.leafAt_empty] at ht
    cases ht

/-- An operation that has recorded a table deletes the entity. Undo makes the entity
    again, with the table that was deleted, and then takes back what was recorded of it. -/
theorem undo_deleteAndEnd (h : HoldsRecord b₀ b e p s) (limit : 0 < b.config.undoLimit)
    (hafter : ∀ x ∈ after, x.isAside e = true) (houter : ∀ x ∈ outer, x.isAside e = true)
    (hi : b.get? e = some i) (hc : c = (b.deleteAndEnd e after).2.run outer) :
    (b.deleteAndEnd e after).1 = true ∧ c.undoLast.1 = true ∧ ∃ d : Book P, d.Doomed e i ∧
      c.undoLast.2.table? e = some ((undoPatchesOf ((s.record.seen.map
        (slotCell e p s.record.after)).map d.closed)).foldl Frame.apply s.table) := by
  obtain ⟨o, ho, hr⟩ := h.recording
  have hb := h.table.wellFormed
  obtain ⟨j, hj, hslots⟩ := h.table.exists_instance
  cases hi.symm.trans hj
  obtain ⟨cl, payload, hmakes, _⟩ := hb.exists_makes hi
  have hcl := hmakes.found
  obtain ⟨cl', hcl', hmem, _⟩ := undoableParam_eq_ok.mp h.table.param
  cases hcl.symm.trans hcl'
  have hwatched : ∀ w ∈ o.watched, w.1 = e → w.2 ∈ cl.copyable ∧ w.2.isSlots = true := by
    intro w hw hwe
    have hown : w ∈ o.watched.filter fun w => w.1 == e :=
      List.mem_filter.mpr ⟨hw, by simpa using hwe⟩
    rw [hr.watched] at hown
    cases List.eq_of_mem_replicate hown
    exact ⟨hmem, h.table.slots⟩
  obtain ⟨d, l, entries, hd, hset, hdoomed, hl, hown, hend⟩ :=
    deleteAndEnd_spec hb h.table.enabled (by rw [ho]) hi hcl hwatched hafter
  rw [List.map_append, map_close_deletion] at hown
  -- Nothing is recorded after the end, so undo finds the operation.
  have haside := Aside.run (b.deleteAndEnd e after).2 houter
  rw [← hc, hend] at haside
  have hlog : c.undo = l.push ⟨o.label, entries⟩ b.config.undoLimit := haside.undo_eq hl
  have hdone := undoLast_of_push hlog limit
  have hcwf : c.WellFormed := by
    rw [hc, hend]
    exact (Steps.run _ _).wellFormed (hd.withLog _)
  have hcdoomed : c.Doomed e i :=
    Doomed.aside (b := d.withLog (l.push ⟨o.label, entries⟩ b.config.undoLimit)) hdoomed haside
  have hmakes' : c.Makes e cl payload :=
    (hmakes.of_setup (hset.trans (.withLog d _))).of_setup haside.setup
  refine ⟨by rw [hend], congrArg Prod.fst hdone, d, hdoomed, ?_⟩
  rw [hdone]
  have hcell : cell ((o.entries.filter fun u => u.entity == e).map d.close) e p.name =
      (s.record.seen.map (slotCell e p s.record.after)).map d.closed := by
    rw [cell_close, cell_filter_entity, hr.cell]
  rw [← hcell]
  refine table?_undo_deletion (c := (c.setRecording none).setCursor (c.undo.cursor - 1)) h.table hi
    hcl (hcwf.of_eq rfl rfl rfl rfl) hcdoomed (hmakes'.of_setup ⟨rfl, rfl, rfl, rfl⟩) hown ?_ ?_
  · intro u hu
    obtain ⟨v, hv, rfl⟩ := List.mem_map.mp hu
    obtain ⟨hvo, hve⟩ := List.mem_filter.mp hv
    obtain ⟨x, rfl, hx⟩ := hr.values v hvo (eq_of_beq hve)
    exact ⟨d.closed x, rfl, hx⟩
  · intro x hx
    rw [hcell] at hx
    obtain ⟨y, hy, rfl⟩ := List.mem_map.mp hx
    obtain ⟨z, _, rfl⟩ := List.mem_map.mp hy
    rfl

/-! ### Which tables come back -/

/-- A table that was announced and not finished is compared when the operation ends. Undo
    writes its leaves, but for some that the deleted table has too. -/
theorem undoPatchesOf_announced {f g : Frame} (hf : f.Tidy) (hfr : f.Readable) (hg : g.Tidy)
    (hgr : g.Readable) {d : Book P} (hd : d.Doomed e i) (hslots : i.slots = g) :
    let xs := undoPatchesOf (((f.leaves.map fun x => (x.1, Capture.value x.2.text)).map
      (slotCell e p fun _ => .pending)).map d.closed)
    f.WritesLeaves xs ∧
      ∀ ns t, f.leafAt ns = some t → g.leafAt ns = some t ∨ (ns, some t) ∈ xs := by
  intro xs
  have hpatch {ns : List String} {t : Slot} (hleaf : f.leafAt ns = some t) :
      Frame.patch? (Frame.pathOf ns) (.value t.text) = some (ns, some t) :=
    Frame.patch?_value (Frame.named_of_leafAt hf hleaf) (hfr ns t hleaf)
  constructor
  · intro x hx
    obtain ⟨y, hy, _, path, hpath, hpx⟩ := mem_undoPatchesOf.mp hx
    obtain ⟨z, hz, rfl⟩ := List.mem_map.mp hy
    obtain ⟨w, hw, rfl⟩ := List.mem_map.mp hz
    obtain ⟨u, hu, rfl⟩ := List.mem_map.mp hw
    rw [Frame.leaves_eq] at hu
    obtain ⟨⟨ns, t⟩, hm, rfl⟩ := List.mem_map.mp hu
    have hleaf := (Frame.mem_leafList hf).mp hm
    cases hpath
    have hpx : Frame.patch? (Frame.pathOf ns) (.value t.text) = some x := hpx
    rw [hpatch hleaf] at hpx
    cases hpx
    exact ⟨t, rfl, hleaf⟩
  · intro ns t hleaf
    by_cases hsame : Capture.value t.text = d.capture e p (some (Frame.pathOf ns))
    -- It counts as kept only if it was seen there at the end.
    · left
      rcases capture_of_doomed hd p (Frame.pathOf ns) with hnone | hseen
      · rw [hnone] at hsame
        cases hsame
      · rw [hseen, hslots] at hsame
        exact (Frame.seenAt_eq_iff hf hfr hg hgr hleaf).mp hsame
    · right
      have hx := Frame.mem_leaves_of_leafAt hf hleaf
      have hmem := List.mem_map_of_mem (f := d.closed) (List.mem_map_of_mem
        (f := slotCell e p fun _ => .pending) (List.mem_map_of_mem
          (f := fun x : String × Slot => (x.1, Capture.value x.2.text)) hx))
      refine mem_undoPatchesOf.mpr ⟨_, hmem, ?_, Frame.pathOf ns, rfl, hpatch hleaf⟩
      exact decide_eq_false hsame

/-- A table that was finished before the deletion is restored from what was recorded. -/
theorem undoPatchesOf_finished (d : Book P) (g : Frame) (seen : List (String × Capture)) :
    undoPatchesOf ((seen.map (slotCell e p g.seenAt)).map d.closed) = g.undoPatches seen := by
  rw [← undoPatchesOf_slotChange (e := e) (p := p), List.map_map]
  refine congrArg undoPatchesOf (List.map_congr_left ?_)
  intro x _
  exact HasTable.closed_of_seen d g x

/-- An operation that does steps on a side-table in a given order and then deletes the
    entity, with other calls after that, up to an undo. -/
structure TableDeletion (b : Book P) (e : Entity) (p : Param P) (order : List Mark) where
  /-- What the user calls it. -/
  label : String
  /-- The steps, with what is done beside them. -/
  steps : List (SlotStep P)
  /-- What is done between the deletion and the end of the operation. -/
  after : List (Call P)
  /-- What is done between the end of the operation and its undo. -/
  outer : List (Call P)
  proper : ∀ t ∈ steps, t.Proper b e
  inOrder : marks steps = order
  afterAside : ∀ x ∈ after, x.isAside e = true
  outerAside : ∀ x ∈ outer, x.isAside e = true
  live : ((b.startOperation label).run (steps.map (·.call e p.name))).contains e = true

namespace TableDeletion

variable {f : Frame} {order : List Mark}

/-- The book before the deletion. -/
def changed (d : b.TableDeletion e p order) : Book P :=
  (b.startOperation d.label).run (d.steps.map (·.call e p.name))

/-- Whether the operation is committed, and the book after it. -/
def ended (d : b.TableDeletion e p order) : Bool × Book P := d.changed.deleteAndEnd e d.after

/-- The book before the undo. -/
def late (d : b.TableDeletion e p order) : Book P := d.ended.2.run d.outer

/-- Undo of such an operation, given what its steps make of the table and its record. -/
theorem undone (d : b.TableDeletion e p order) (h : b.HasTable e p f)
    (limit : 0 < b.config.undoLimit)
    (hs : ({ table := f } : SlotState).steps b.undo e p.name d.steps = s) :
    d.ended.1 = true ∧ d.late.undoLast.1 = true ∧ d.changed.HasTable e p s.table ∧
      ∃ (c : Book P) (i : Instance P), c.Doomed e i ∧ i.slots = s.table ∧
        d.late.undoLast.2.table? e = some ((undoPatchesOf ((s.record.seen.map
          (slotCell e p s.record.after)).map c.closed)).foldl Frame.apply s.table) := by
  have hrun : HoldsRecord b d.changed e p s :=
    hs ▸ (HoldsRecord.start h d.label).run d.proper d.live
  have hlimit : 0 < d.changed.config.undoLimit := by
    rw [hrun.setup.config]
    exact limit
  obtain ⟨i, hi, hslots⟩ := hrun.table.exists_instance
  obtain ⟨hcommit, hundone, c, hc, htable⟩ :=
    undo_deleteAndEnd hrun hlimit d.afterAside d.outerAside hi rfl
  exact ⟨hcommit, hundone, hrun.table, c, i, hc, hslots, htable⟩

/-- An operation that does not finish the table. What comes back is the table from before
    if and only if that one reaches the deleted one. -/
theorem announced {n : Nat} (d : b.TableDeletion e p (.before :: List.replicate n .change))
    (h : b.HasTable e p f) (limit : 0 < b.config.undoLimit) {g : Frame}
    (hg : d.changed.table? e = some g) :
    d.ended.1 = true ∧ d.late.undoLast.1 = true ∧ d.late.undoLast.2.contains e = true ∧
      (d.late.undoLast.2.table? e = some f ↔ f.Reaches g) := by
  obtain ⟨rest, hrest, _, hsteps⟩ := SlotState.steps_of_marks_before b.undo e p.name
    d.inOrder
  rw [← List.append_nil (List.replicate n Mark.change)] at hrest
  obtain ⟨g', more, hmore, hg'⟩ := SlotState.steps_of_marks_changes b.undo e p.name
    hrest { table := f, record := ({} : SlotRecord).announce f }
  have hstate := (hsteps { table := f }).trans
    (hg'.trans (SlotState.steps_of_marks_nil hmore _))
  obtain ⟨hcommit, hundone, htable, c, i, hc, hslots, hback⟩ := d.undone h limit hstate
  cases hg.symm.trans htable.table
  obtain ⟨hwrites, hall⟩ := undoPatchesOf_announced (e := e) (p := p) h.tidy h.readable htable.tidy
    htable.readable hc hslots
  refine ⟨hcommit, hundone, ?_, ?_⟩
  · obtain ⟨j, hj, _⟩ := Option.map_eq_some_iff.mp hback
    exact contains_of_some hj
  · rw [hback, Option.some.injEq]
    exact Frame.foldl_leaves_eq_iff h.tidy htable.tidy hwrites hall

/-- An operation that finishes the table before it deletes the entity. -/
theorem finished {n : Nat}
    (d : b.TableDeletion e p (.before :: (List.replicate n .change ++ [.after])))
    (h : b.HasTable e p f) (limit : 0 < b.config.undoLimit) {g : Frame}
    (hg : d.changed.HasTable e p g) :
    d.ended.1 = true ∧ d.late.undoLast.1 = true ∧ d.late.undoLast.2.table? e =
      some ((g.undoPatches (seenBefore b.undo e p.name f g)).foldl Frame.apply g) := by
  obtain ⟨rest, hrest, _, hsteps⟩ := SlotState.steps_of_marks_before b.undo e p.name
    d.inOrder
  obtain ⟨g', more, hmore, hg'⟩ := SlotState.steps_of_marks_changes b.undo e p.name
    hrest { table := f, record := ({} : SlotRecord).announce f }
  obtain ⟨last, hlast, _, hfinish⟩ := SlotState.steps_of_marks_after b.undo e p.name
    hmore
  have hstate := (hsteps { table := f }).trans
    ((hg'.trans (hfinish _)).trans (SlotState.steps_of_marks_nil hlast _))
  obtain ⟨hcommit, hundone, htable, c, i, _, _, hback⟩ := d.undone h limit hstate
  cases hg.table.symm.trans htable.table
  obtain ⟨hseen, hat⟩ := HasTable.finish_announce h.tidy b.undo e p.name g'
  have hafter : (SlotRecord.finish b.undo e p.name (({} : SlotRecord).announce f) g').after =
      g'.seenAt := by
    unfold SlotRecord.after
    rw [hat]
  refine ⟨hcommit, hundone, ?_⟩
  rw [hback]
  dsimp only
  rw [hafter, undoPatchesOf_finished, hseen]

/-- The table that was deleted. -/
theorem exists_table (d : b.TableDeletion e p order) (h : b.HasTable e p f) :
    ∃ g, d.changed.HasTable e p g :=
  ⟨_, ((HoldsRecord.start h d.label).run d.proper d.live).table⟩

/-- An operation that changes nothing before it finishes the table. -/
def unchanged (h : b.HasTable e p f) :
    b.TableDeletion e p (.before :: (List.replicate 0 .change ++ [.after])) where
  label := ""
  steps := [.before, .after]
  after := []
  outer := []
  proper := by simp [SlotStep.Proper]
  inOrder := rfl
  afterAside := by simp
  outerAside := by simp
  live := (HoldsRecord.start h "").contains_run (by simp [SlotStep.Proper])
    (by simp [SlotStep.mark?])

theorem hasTable_unchanged (h : b.HasTable e p f) : (unchanged h).changed.HasTable e p f :=
  ((HoldsRecord.start h "").run (unchanged h).proper (unchanged h).live).table

end TableDeletion

/-- A table that is announced and changed in an operation that then deletes its entity.
    Unless the operation finishes the table, undo brings the entity back with what was
    there before just if every leaf of the deleted table is at, above or below one of
    those that were there. If the operation finishes the table, undo always brings back
    what was there, unless that was nothing and the log knows a value. -/
theorem undone_deletion_restores_table_iff {f : Frame} (h : b.HasTable e p f)
    (limit : 0 < b.config.undoLimit)
    (hlog : ∀ op ∈ b.undo.past, PathsNamed op.entries e p.name)
    (hread : ∀ path s, b.undo.lastKnown e p.name (some path) = some (.value s) →
      ∃ t, Slot.parse s = .ok t) :
    (∀ n (d : b.TableDeletion e p (.before :: List.replicate n .change)) g,
      d.changed.table? e = some g →
      d.ended.1 = true ∧ d.late.undoLast.1 = true ∧ d.late.undoLast.2.contains e = true ∧
        (d.late.undoLast.2.table? e = some f ↔ f.Reaches g)) ∧
    ((∀ n (d : b.TableDeletion e p (.before :: (List.replicate n .change ++ [.after]))),
      d.ended.1 = true ∧ d.late.undoLast.1 = true ∧ d.late.undoLast.2.table? e = some f) ↔
      f ≠ .empty ∨ ∀ path s, b.undo.lastKnown e p.name (some path) ≠ some (.value s)) := by
  refine ⟨fun n d g hg => d.announced h limit hg, ?_⟩
  constructor
  · intro hall
    by_cases hne : f = .empty
    · right
      intro path s hknown
      subst hne
      -- Nothing needs to be changed to see the value come back.
      have hsame := (hall 0 (.unchanged h)).2.2
      rw [((TableDeletion.unchanged h).finished h limit (TableDeletion.hasTable_unchanged h)).2.2,
        Option.some.injEq] at hsame
      exact HasTable.known_value_spoils hlog hread hknown hsame
    · exact Or.inl hne
  · intro hcond n d
    obtain ⟨g, hg⟩ := d.exists_table h
    obtain ⟨hcommit, hundone, hback⟩ := d.finished h limit hg
    refine ⟨hcommit, hundone, hback.trans (congrArg some ?_)⟩
    cases hne : f.isEmpty with
    | false =>
      unfold seenBefore
      rw [hne]
      exact Frame.undo_announced h.tidy h.readable hg.tidy hg.readable
    | true =>
      have hf : f = .empty := Frame.isEmpty_iff.mp hne
      subst hf
      have hnone := hcond.resolve_left (not_not_intro rfl)
      exact Frame.undo_unannounced (unannounced_seenBefore hg.tidy hlog) hg.tidy
        fun x hx => absent_of_mem_seenBefore hnone hx

/-! ### A node that is changed and deleted -/

section Nodes

open Bag

/-- The node with one slot is announced, changed and deleted. -/
def deleteSketched {xs : List SlotEdit} (hxs : ∀ x ∈ xs, x.Sound) :
    sketched.TableDeletion (node 1) nodeSlots (.before :: List.replicate 1 .change) where
  label := "drop"
  steps := [.before, .change xs]
  after := []
  outer := []
  proper := by simpa [SlotStep.Proper] using hxs
  inOrder := rfl
  afterAside := by simp
  outerAside := by simp
  live := (HoldsRecord.start hasTable_sketched "drop").contains_run
    (by simpa [SlotStep.Proper] using hxs) (by simp [SlotStep.mark?])

theorem sound_setInner : ∀ x ∈ [SlotEdit.set "a/b" (.int64 2)], x.Sound := by
  intro x hx
  rw [List.mem_singleton.mp hx]
  exact ⟨trivial, by decide +kernel⟩

theorem sound_setOther : ∀ x ∈ [SlotEdit.set "b" (.int64 2)], x.Sound := by
  intro x hx
  rw [List.mem_singleton.mp hx]
  exact ⟨trivial, by decide +kernel⟩

/-- A change below the one slot is undone together with the deletion, a second slot is
    left over, and an operation that finishes the table leaves nothing. -/
theorem sketched_deletions_undone :
    let f : Frame := .cons "a" (.int64 1) .empty
    (sketched.HasTable (node 1) nodeSlots f ∧ 0 < sketched.config.undoLimit ∧
      (∀ op ∈ sketched.undo.past, PathsNamed op.entries (node 1) nodeSlots.name) ∧
      ∀ path s, sketched.undo.lastKnown (node 1) nodeSlots.name (some path) = some (.value s) →
        ∃ t, Slot.parse s = .ok t) ∧
    (deleteSketched sound_setInner).late.undoLast.2.table? (node 1) = some f ∧
    (deleteSketched sound_setOther).late.undoLast.2.table? (node 1) ≠ some f ∧
    ∀ n (d : sketched.TableDeletion (node 1) nodeSlots
        (.before :: (List.replicate n .change ++ [.after]))),
      d.late.undoLast.2.table? (node 1) = some f := by
  intro f
  have hlimit : 0 < sketched.config.undoLimit := by decide +kernel
  have hpast : sketched.undo.past = [] := List.isEmpty_iff.mp (by decide +kernel)
  obtain ⟨hlog, hnone⟩ := known_of_past_nil hpast (node 1) nodeSlots.name
  have hread : ∀ path s, sketched.undo.lastKnown (node 1) nodeSlots.name (some path) =
      some (.value s) → ∃ t, Slot.parse s = .ok t := by
    intro path s hknown
    cases (hnone (some path)).symm.trans hknown
  obtain ⟨hopen, hfinished⟩ :=
    undone_deletion_restores_table_iff hasTable_sketched hlimit hlog hread
  -- The leaves are few, so they can be compared one by one.
  have hinner := (hopen 1 (deleteSketched sound_setInner)
    (.cons "a" (.frame (.cons "b" (.int64 2) .empty)) .empty) (by decide +kernel)).2.2.2
  have hother := (hopen 1 (deleteSketched sound_setOther)
    (.cons "a" (.int64 1) (.cons "b" (.int64 2) .empty)) (by decide +kernel)).2.2.2
  refine ⟨⟨hasTable_sketched, hlimit, hlog, hread⟩, hinner.mpr (by decide +kernel), ?_, ?_⟩
  · exact fun hback => absurd (hother.mp hback) (by decide +kernel)
  · intro n d
    exact (hfinished.mpr (Or.inl (by decide +kernel)) n d).2.2

/-- A slot that is written before the node is deleted is there after the undo. -/
theorem new_slot_left_over :
    let c := sketched.run [.startOperation "drop", .recordBefore (node 1) "slots",
      SlotStep.call (node 1) "slots" (.change [.set "b" (.int64 2)]), .recordDelete (node 1),
      .delete (node 1), .endOperation]
    sketched.table? (node 1) = some (.cons "a" (.int64 1) .empty) ∧
    c.undoLabel = some "drop" ∧ c.contains (node 1) = false ∧ c.undoLast.1 = true ∧
    c.undoLast.2.table? (node 1) =
      some (.cons "a" (.int64 1) (.cons "b" (.int64 2) .empty)) := by
  decide +kernel

end Nodes

end Book

end EntityBook
