import EntityBook.Proofs.Undo.Log
import EntityBook.Proofs.Undo.Recording
import EntityBook.Proofs.Undo.SlotPatch

/-! # Operations on a side-table

  A session is an operation that announces a side-table, changes its slots and
  says when it is done. What it records depends on whether the table was empty
  when it was announced: if not, its leaves were seen then; if so, nothing was,
  and the session looks into the log for what may have been there.
-/

namespace EntityBook

variable {P : PayloadFamily}

/-! ### Changes of slots -/

/-- A change of one slot. -/
inductive SlotEdit where
  /-- Writes a slot. -/
  | set (path : String) (slot : Slot)
  /-- Deletes a slot. -/
  | delete (path : String)

namespace SlotEdit

/-- What a change makes of a table; a path without names changes nothing. -/
def apply (x : SlotEdit) (f : Frame) : Frame :=
  match x with
  | set path slot =>
    match f.set path slot with
    | .ok (_, g) => g
    | .error _ => f
  | delete path => (f.delete path).2

/-- What is asked of a change: the names inside the slot that it writes are proper
    and in order, and the text of the slot reads back. -/
def Sound : SlotEdit → Prop
  | set _ slot => slot.Tidy ∧ Slot.parse slot.text = .ok slot
  | delete _ => True

/-- What changes make of a table. -/
def applyAll (xs : List SlotEdit) (f : Frame) : Frame := xs.foldl (fun f x => x.apply f) f

theorem tidy_apply {x : SlotEdit} (hx : x.Sound) {f : Frame} (hf : f.Tidy) (hr : f.Readable) :
    (x.apply f).Tidy ∧ (x.apply f).Readable := by
  cases x with
  | set path slot =>
    obtain ⟨htidy, hparse⟩ := hx
    have hset : (set path slot).apply f = f.setAt slot (Frame.names path) :=
      Frame.set_eq f path slot
    rw [hset]
    exact ⟨hf.setAt htidy fun _ hn => Frame.properName_of_mem_names hn,
      hr.setAt (Slot.readable_of_parse_text htidy hparse) _⟩
  | delete path => exact ⟨hf.deleteAt _, hr.deleteAt _⟩

theorem tidy_applyAll {xs : List SlotEdit} (hxs : ∀ x ∈ xs, x.Sound) {f : Frame} (hf : f.Tidy)
    (hr : f.Readable) : (applyAll xs f).Tidy ∧ (applyAll xs f).Readable := by
  induction xs generalizing f with
  | nil => exact ⟨hf, hr⟩
  | cons x rest ih =>
    obtain ⟨hf', hr'⟩ := tidy_apply (hxs x List.mem_cons_self) hf hr
    exact ih (fun y hy => hxs y (List.mem_cons_of_mem x hy)) hf' hr'

end SlotEdit

namespace Book

/-- The side-table of an entity, if it is live. -/
def table? (b : Book P) (e : Entity) : Option Frame := (b.get? e).map Instance.slots

/-- Changes one slot of the side-table of an entity. -/
def editSlot (b : Book P) (e : Entity) (x : SlotEdit) : Book P :=
  (b.edit e fun i => ((), i.withSlots (x.apply i.slots))).2

/-- Changes slots of the side-table of an entity, one after the other. -/
def editSlots (b : Book P) (e : Entity) (xs : List SlotEdit) : Book P :=
  xs.foldl (fun b x => b.editSlot e x) b

/-- A whole operation on a side-table; answers whether it was committed. -/
def slotSession (b : Book P) (label : String) (e : Entity) (name : String)
    (xs : List SlotEdit) : Bool × Book P :=
  let b := ((b.startOperation label).recordBefore e name).2
  ((b.editSlots e xs).recordAfter e name).2.endOperation

/-! ### Books with a side-table -/

/-- A book in which undo is enabled has a table for an entity, under a parameter,
    whose texts all read back. -/
structure HasTable (b : Book P) (e : Entity) (p : Param P) (f : Frame) : Prop where
  wellFormed : b.WellFormed
  enabled : b.config.undoEnabled = true
  param : b.undoableParam e p.name = .ok p
  slots : p.isSlots = true
  table : b.table? e = some f
  tidy : f.Tidy
  readable : f.Readable

/-- The entries about a side-table have the paths of lists of proper names. -/
def PathsNamed (entries : List (UndoEntry P)) (e : Entity) (name : String) : Prop :=
  ∀ c ∈ cell entries e name, ∃ ns, Frame.Named ns ∧ c.path = some (Frame.pathOf ns)

theorem PathsNamed.append {xs ys : List (UndoEntry P)} {e : Entity} {name : String}
    (hxs : PathsNamed xs e name) (hys : PathsNamed ys e name) : PathsNamed (xs ++ ys) e name := by
  intro c hc
  rw [cell_append] at hc
  rcases List.mem_append.mp hc with hc | hc
  · exact hxs c hc
  · exact hys c hc

namespace HasTable

variable {b : Book P} {e : Entity} {p : Param P} {f g : Frame}

theorem exists_instance (h : b.HasTable e p f) : ∃ i, b.get? e = some i ∧ i.slots = f :=
  Option.map_eq_some_iff.mp h.table

/-- Nothing here depends on the log. -/
theorem withUndo (h : b.HasTable e p f) (l : UndoLog P) : HasTable { b with undo := l } e p f where
  wellFormed := h.wellFormed.of_eq rfl rfl rfl rfl
  enabled := h.enabled
  param := h.param
  slots := h.slots
  table := h.table
  tidy := h.tidy
  readable := h.readable

/-- The table after a step that leaves the surroundings alone. -/
theorem of_setup {b' : Book P} (h : b.HasTable e p f) (hw : b'.WellFormed) (hb : b.SameSetup b')
    (ht : b'.table? e = some g) (hg : g.Tidy) (hr : g.Readable) : b'.HasTable e p g where
  wellFormed := hw
  enabled := by
    rw [hb.config]
    exact h.enabled
  param := by
    have hparam : b'.undoableParam e p.name = b.undoableParam e p.name := by
      unfold undoableParam param?
      rw [hb.registry]
    rw [hparam]
    exact h.param
  slots := h.slots
  table := ht
  tidy := hg
  readable := hr

theorem editSlot (h : b.HasTable e p f) {x : SlotEdit} (hx : x.Sound) :
    (b.editSlot e x).HasTable e p (x.apply f) ∧ b.SameSetup (b.editSlot e x) ∧
      (b.editSlot e x).undo = b.undo := by
  obtain ⟨i, hi, hslots⟩ := h.exists_instance
  have hrev : b.Revises (b.editSlot e x) :=
    Revises.edit h.wellFormed fun i => .withSlots i (x.apply i.slots)
  have hset : b.SameSetup (b.editSlot e x) := .of_revises hrev
  obtain ⟨hf, hr⟩ := SlotEdit.tidy_apply hx h.tidy h.readable
  refine ⟨h.of_setup (hrev.wellFormed h.wellFormed) hset ?_ hf hr, hset, hrev.undo⟩
  obtain ⟨j, hj, hclean⟩ := get?_edit_self (f := fun i => ((), i.withSlots (x.apply i.slots))) hi
    (.withSlots i.enter _) (h.wellFormed.fits e i hi).deleting
  have hjs : j.slots = x.apply i.slots := Instance.slots_of_markClean hclean
  have hget : (b.editSlot e x).get? e = some j := hj
  unfold table?
  rw [hget, Option.map_some, hjs, hslots]

theorem editSlots (h : b.HasTable e p f) {xs : List SlotEdit} (hxs : ∀ x ∈ xs, x.Sound) :
    (b.editSlots e xs).HasTable e p (SlotEdit.applyAll xs f) ∧ b.SameSetup (b.editSlots e xs) ∧
      (b.editSlots e xs).undo = b.undo := by
  induction xs generalizing b f with
  | nil => exact ⟨h, .refl b, rfl⟩
  | cons x rest ih =>
    obtain ⟨hone, hset, hundo⟩ := h.editSlot (hxs x List.mem_cons_self)
    obtain ⟨hall, hset', hundo'⟩ := ih hone fun y hy => hxs y (List.mem_cons_of_mem x hy)
    exact ⟨hall, hset.trans hset', hundo'.trans hundo⟩

/-! ### What is seen of the table -/

theorem value_eq (h : b.HasTable e p f) {i : Instance P} (hi : b.get? e = some i) :
    i.value? p.accessor = some (.slots f) := by
  obtain ⟨j, hj, hslots⟩ := h.exists_instance
  cases hj.symm.trans hi
  rw [Instance.accessor_of_isSlots h.slots, ← hslots]
  rfl

theorem capture_eq (h : b.HasTable e p f) (path : String) :
    b.capture e p (some path) = f.seenAt path := by
  obtain ⟨i, hi, hslots⟩ := h.exists_instance
  unfold capture
  rw [hi]
  dsimp only
  rw [hslots]
  rfl

theorem recording?_eq (h : b.HasTable e p f) : b.recording? = b.undo.recording := by
  unfold recording?
  rw [if_pos h.enabled]

/-- A snapshot of the entity has the paths of the leaves. -/
theorem pathsNamed_snapshotOf (h : b.HasTable e p f) {i : Instance P} (hi : b.get? e = some i)
    {cl : ObjectClass P} (hcl : b.registry.find? e.typeTag = some cl) (hmem : p ∈ cl.copyable)
    (after : Capture → Capture) :
    PathsNamed (snapshotOf e after (valueOf i) cl.copyable) e p.name := by
  intro c hc
  have hnodup := ObjectClass.nodup_copyable (h.wellFormed.registry.of_find? hcl)
  rw [cell_snapshotOf_self e _ _ hnodup hmem] at hc
  have hvalue : valueOf i p = .slots f :=
    Option.some.inj ((h.wellFormed.exists_value hi hcl hmem).symm.trans (h.value_eq hi))
  obtain ⟨_, _, _, _, hcap⟩ := mem_captured hc
  rw [hvalue] at hcap
  obtain ⟨x, hx, heq⟩ := List.mem_map.mp hcap
  rw [Frame.leaves_eq] at hx
  obtain ⟨y, hy, rfl⟩ := List.mem_map.mp hx
  have hleaf := (Frame.mem_leafList h.tidy).mp hy
  exact ⟨y.1, Frame.named_of_leafAt h.tidy hleaf, (Prod.mk.inj heq).1.symm⟩

/-- What is added to the baseline has the paths of the leaves. -/
theorem ensureBaseline (h : b.HasTable e p f) (o : OpenOperation P) :
    ∃ base, PathsNamed base e p.name ∧
      b.ensureBaseline o e = .ok { o with baseline := o.baseline ++ base } := by
  obtain ⟨i, hi, _⟩ := h.exists_instance
  obtain ⟨cl, hcl, hmem, _⟩ := undoableParam_eq_ok.mp h.param
  by_cases hdone : b.Enrolled o e
  · refine ⟨[], ?_, ?_⟩
    · intro c hc
      cases hc
    · rw [ensureBaseline_of_enrolled hdone, List.append_nil]
  · exact ⟨_, h.pathsNamed_snapshotOf hi hcl hmem _,
      ensureBaseline_of_live h.wellFormed hdone hi hcl⟩

/-- All that a record of the table looks up is there. -/
theorem prepares (h : b.HasTable e p f) {o : OpenOperation P} (ho : b.undo.recording = some o) :
    ∃ base, PathsNamed base e p.name ∧
      b.Prepares e p.name p o { o with baseline := o.baseline ++ base } := by
  obtain ⟨base, hbase, hensure⟩ := h.ensureBaseline o
  exact ⟨base, hbase, h.recording?_eq.trans ho, h.param, hensure⟩

end HasTable

/-! ### Entries about slots -/

/-- An entry about a slot, with what was seen before and after. -/
def slotEntry (e : Entity) (p : Param P) (after : String → Capture) (x : String × Capture) :
    UndoEntry P :=
  .changed { entity := e, param := p, path := some x.1, before := x.2, after := after x.1 }

/-- The change of such an entry when the operation has ended with a table. -/
def slotChange (e : Entity) (p : Param P) (g : Frame) (x : String × Capture) : Change P :=
  { entity := e, param := p, path := some x.1, before := x.2, after := g.seenAt x.1
    kept := x.2 = g.seenAt x.1 }

section Entries

variable {b : Book P} {e : Entity} {p : Param P} {f g : Frame}

theorem targets_slotEntry (after : String → Capture) (x : String × Capture) :
    (slotEntry e p after x).targets e p.name = true := by
  simp [slotEntry, UndoEntry.targets]

theorem pathsIn_slotEntry (after : String → Capture) (seen : List (String × Capture)) :
    UndoLog.pathsIn (seen.map (slotEntry e p after)) e p.name = seen.map (·.1) := by
  have hall : ((seen.map (slotEntry e p after)).filter fun u => u.targets e p.name) =
      seen.map (slotEntry e p after) := by
    refine List.filter_eq_self.mpr ?_
    intro u hu
    obtain ⟨x, _, rfl⟩ := List.mem_map.mp hu
    exact targets_slotEntry after x
  unfold UndoLog.pathsIn
  rw [hall, List.filterMap_map]
  exact congrFun (List.filterMap_eq_map (f := fun x : String × Capture => x.1)) seen

/-- The captures of a table as entries. -/
theorem captured_slots (after : Capture) (f : Frame) :
    (captured e p (fun _ => after) (.slots f)).map UndoEntry.changed =
      (f.leaves.map fun x => (x.1, Capture.value x.2.text)).map (slotEntry e p fun _ => after) := by
  unfold captured
  have hcap : (ParamValue.slots f).captures =
      f.leaves.map fun x => (some x.1, .value x.2.text) := rfl
  rw [hcap, List.map_map, List.map_map, List.map_map]
  rfl

theorem HasTable.newSlots_eq (h : b.HasTable e p g) (entries : List (UndoEntry P)) :
    b.newSlots entries e p =
      ((g.leaves.filter fun x => !(UndoLog.pathsIn entries e p.name).contains x.1).map
        fun x => (x.1, Capture.absent)).map (slotEntry e p fun _ => .pending) := by
  obtain ⟨i, hi, hslots⟩ := h.exists_instance
  unfold Book.newSlots
  rw [hi]
  dsimp only
  rw [hslots, List.map_map]
  rfl

theorem HasTable.refresh_eq (h : b.HasTable e p g) (after : String → Capture)
    (seen : List (String × Capture)) :
    (seen.map (slotEntry e p after)).map (b.refresh e p p.name) =
      seen.map (slotEntry e p g.seenAt) := by
  rw [List.map_map]
  refine List.map_congr_left ?_
  intro x _
  have htargets := targets_slotEntry (e := e) (p := p) after x
  show b.refresh e p p.name (slotEntry e p after x) = slotEntry e p g.seenAt x
  unfold refresh slotEntry
  unfold slotEntry at htargets
  dsimp only
  rw [if_pos htargets, h.capture_eq]

theorem seenAt_ne_pending (g : Frame) (path : String) : g.seenAt path ≠ .pending := by
  unfold Frame.seenAt
  cases g.get path with
  | none =>
    intro h
    cases h
  | some s =>
    intro h
    cases h

theorem close_slotEntry (b : Book P) (seen : List (String × Capture)) :
    (seen.map (slotEntry e p g.seenAt)).map b.close =
      (seen.map (slotChange e p g)).map UndoEntry.changed := by
  rw [List.map_map, List.map_map]
  refine List.map_congr_left ?_
  intro x _
  show b.close (slotEntry e p g.seenAt x) = .changed (slotChange e p g x)
  unfold close slotEntry slotChange
  dsimp only
  rw [if_neg (seenAt_ne_pending g x.1)]

end Entries

/-! ### What a session records -/

/-- The paths that a session records, with what it takes to have been there before. -/
def seenBefore (l : UndoLog P) (e : Entity) (name : String) (f g : Frame) :
    List (String × Capture) :=
  if f.isEmpty then
    (UndoLog.sortPaths (g.leaves.map (·.1) ++ l.knownPaths e name)).map fun path =>
      (path, (l.lastKnown e name (some path)).getD .absent)
  else Frame.announced f g

namespace HasTable

variable {b : Book P} {e : Entity} {p : Param P} {f g : Frame} {label : String}

/-- The snapshot of the one parameter lists the leaves, with what comes after pending. -/
theorem snapshots_slots (h : b.HasTable e p f) {i : Instance P} (hi : b.get? e = some i) :
    snapshots e i (fun _ => .pending) [p] =
      .ok ((f.leaves.map fun x => (x.1, Capture.value x.2.text)).map
        (slotEntry e p fun _ => .pending)) := by
  rw [snapshots_singleton e _ (h.value_eq hi), ← captured_slots]

/-- Announcing the table captures its leaves. -/
theorem recordBefore (h : b.HasTable e p f) (label : String)
    (ho : b.undo.recording = some { label }) :
    ∃ base, PathsNamed base e p.name ∧ (b.recordBefore e p.name).2 = b.setRecording (some
      { label, watched := [(e, p)], baseline := base
        entries := (f.leaves.map fun x => (x.1, Capture.value x.2.text)).map
          (slotEntry e p fun _ => .pending) }) := by
  obtain ⟨i, hi, _⟩ := h.exists_instance
  obtain ⟨base, hbase, hready⟩ := h.prepares ho
  refine ⟨base, hbase, ?_⟩
  rw [hready.recordBefore_first (by simp) hi (h.snapshots_slots hi), h.slots]
  rfl

/-- The end of the changes of a table that was not empty when it was announced. -/
theorem recordAfter_announced (h : b.HasTable e p g) (hf : f.leaves ≠ [])
    {base : List (UndoEntry P)} (hbase : PathsNamed base e p.name)
    (ho : b.undo.recording = some
      { label, watched := [(e, p)], baseline := base
        entries := (f.leaves.map fun x => (x.1, Capture.value x.2.text)).map
          (slotEntry e p fun _ => .pending) }) :
    ∃ base', PathsNamed base' e p.name ∧ (b.recordAfter e p.name).2 = b.setRecording (some
      { label, baseline := base'
        entries := (Frame.announced f g).map (slotEntry e p g.seenAt) }) := by
  obtain ⟨more, hmore, hready⟩ := h.prepares ho
  refine ⟨base ++ more, hbase.append hmore, ?_⟩
  -- The parameter has entries, so the change counts as announced.
  have hany : (((f.leaves.map fun x => (x.1, Capture.value x.2.text)).map
      (slotEntry e p fun _ => .pending)).any fun u => u.targets e p.name) = true := by
    obtain ⟨x, hx⟩ := List.exists_mem_of_ne_nil _ hf
    refine List.any_eq_true.mpr ⟨slotEntry e p (fun _ => .pending) (x.1, .value x.2.text), ?_, ?_⟩
    · exact List.mem_map_of_mem (List.mem_map_of_mem hx)
    · exact targets_slotEntry _ _
  have hfind : ([(e, p)].find? fun (w : Entity × Param P) => w.1 == e && w.2.name == p.name) =
      some (e, p) := by simp
  have herase : ([(e, p)].eraseP fun (w : Entity × Param P) => w.1 == e && w.2.name == p.name) =
      [] := by simp
  have hold : (f.leaves.map fun x => (x.1, Capture.value x.2.text)).map (·.1) =
      f.leaves.map (·.1) := by
    rw [List.map_map]
    rfl
  rw [hready.recordAfter_filled hany]
  unfold fillIn watchedSlots
  dsimp only
  rw [hfind, herase]
  dsimp only
  rw [h.newSlots_eq, pathsIn_slotEntry, hold, ← List.map_append, h.refresh_eq]
  rfl

/-- A change that nothing announced: the paths of the leaves and those that the log knows
    are recorded, with what the log says was seen there. -/
theorem unannounced_slots (h : b.HasTable e p g) :
    b.unannounced e p p.name (ParamValue.slots g).captures =
      (seenBefore b.undo e p.name .empty g).map (slotEntry e p g.seenAt) := by
  -- All captures of a table have paths: it is recorded slot by slot.
  have hscalar : ((ParamValue.slots g).captures.any fun c => c.1.isNone) = false := by
    refine List.any_eq_false.mpr ?_
    intro c hc
    obtain ⟨x, _, rfl⟩ := List.mem_map.mp hc
    simp
  have hpaths : (ParamValue.slots g).captures.filterMap (·.1) = g.leaves.map (·.1) := by
    show (g.leaves.map fun x => (some x.1, Capture.value x.2.text)).filterMap (·.1) = _
    rw [List.filterMap_map]
    exact congrFun (List.filterMap_eq_map (f := fun x : String × Slot => x.1)) g.leaves
  unfold unannounced
  simp only [h.slots, if_true, hscalar, Bool.false_eq_true, if_false, hpaths, List.nil_append]
  unfold seenBefore
  rw [if_pos (show Frame.empty.isEmpty = true from rfl), List.map_map, List.map_map]
  refine List.map_congr_left ?_
  intro path _
  show UndoEntry.changed _ = UndoEntry.changed _
  rw [h.capture_eq]

/-- The end of the changes of a table that was empty when it was announced. -/
theorem recordAfter_unannounced (h : b.HasTable e p g) {base : List (UndoEntry P)}
    (hbase : PathsNamed base e p.name)
    (ho : b.undo.recording = some { label, watched := [(e, p)], baseline := base }) :
    ∃ base', PathsNamed base' e p.name ∧ (b.recordAfter e p.name).2 = b.setRecording (some
      { label, watched := [(e, p)], baseline := base'
        entries := (seenBefore b.undo e p.name .empty g).map (slotEntry e p g.seenAt) }) := by
  obtain ⟨i, hi, _⟩ := h.exists_instance
  obtain ⟨more, hmore, hready⟩ := h.prepares ho
  refine ⟨base ++ more, hbase.append hmore, ?_⟩
  rw [hready.recordAfter_unannounced (by simp) hi (snapshot_eq (h.value_eq hi)),
    h.unannounced_slots]
  rfl

/-! ### What a session leaves -/

theorem leaves_ne_nil (hf : f.Tidy) (hne : f.isEmpty = false) : f.leaves ≠ [] := by
  intro hnil
  cases f with
  | empty => cases hne
  | cons n s rest =>
    obtain ⟨ks, v, hleaf⟩ := Frame.exists_leaf_cons n s rest
    have hmem := (Frame.mem_leafList hf).mpr hleaf
    rw [Frame.leaves_eq, List.map_eq_nil_iff] at hnil
    rw [hnil] at hmem
    cases hmem

/-- The paths of the leaves that a table has in the end are recorded. -/
theorem leaf_seenBefore (l : UndoLog P) {x : String × Slot} (hx : x ∈ g.leaves) :
    x.1 ∈ (seenBefore l e p.name .empty g).map (·.1) := by
  have hpath : x.1 ∈ UndoLog.sortPaths (g.leaves.map (·.1) ++ l.knownPaths e p.name) := by
    refine UndoLog.mem_sortPaths.mpr (List.mem_append_left _ ?_)
    exact List.mem_map_of_mem hx
  unfold seenBefore
  rw [if_pos (show Frame.empty.isEmpty = true from rfl), List.map_map]
  exact List.mem_map.mpr ⟨x.1, hpath, rfl⟩

/-- An announcement and the changes after it leave the announcement open. -/
theorem changed (h : b.HasTable e p f) (label : String) {xs : List SlotEdit}
    (hxs : ∀ x ∈ xs, x.Sound) :
    ∃ b' base, b.slotSession label e p.name xs = (b'.recordAfter e p.name).2.endOperation ∧
      b'.HasTable e p (SlotEdit.applyAll xs f) ∧ b.SameSetup b' ∧ PathsNamed base e p.name ∧
      b'.undo = { b.undo with
        recording := some
          { label, watched := [(e, p)], baseline := base
            entries := (f.leaves.map fun x => (x.1, Capture.value x.2.text)).map
              (slotEntry e p fun _ => .pending) } } := by
  have hstart : b.startOperation label = b.setRecording (some { label }) := by
    unfold startOperation
    rw [if_pos h.enabled]
  -- The session in its steps: the start, the announcement, and the edits.
  have hone : (b.setRecording (some { label })).HasTable e p f := h.withUndo _
  obtain ⟨base, hbase, hbefore⟩ := hone.recordBefore label rfl
  have htwo : (((b.setRecording (some { label })).recordBefore e p.name).2).HasTable e p f := by
    rw [hbefore]
    exact hone.withUndo _
  obtain ⟨hthree, hset, hundo⟩ := htwo.editSlots hxs
  refine ⟨_, base, ?_, hthree, ?_, hbase, ?_⟩
  · unfold slotSession
    rw [hstart]
  · rw [hbefore] at hset ⊢
    exact ⟨hset.id, hset.registry, hset.config, hset.backend⟩
  · rw [hundo, hbefore]
    rfl

/-- A session ends an operation that has recorded what was seen before. -/
theorem records (h : b.HasTable e p f) (label : String) {xs : List SlotEdit}
    (hxs : ∀ x ∈ xs, x.Sound) :
    ∃ b' o, b.slotSession label e p.name xs = b'.endOperation ∧
      b'.HasTable e p (SlotEdit.applyAll xs f) ∧ b.SameSetup b' ∧
      b'.undo = { b.undo with recording := some o } ∧ o.label = label ∧
      PathsNamed o.baseline e p.name ∧
      b'.addNewSlots o.entries o.watched =
        (seenBefore b.undo e p.name f (SlotEdit.applyAll xs f)).map
          (slotEntry e p (SlotEdit.applyAll xs f).seenAt) := by
  obtain ⟨b', base, hsession, htable, hset, hbase, hundo⟩ := h.changed label hxs
  have hopen : b'.undo.recording = some
      { label, watched := [(e, p)], baseline := base
        entries := (f.leaves.map fun x => (x.1, Capture.value x.2.text)).map
          (slotEntry e p fun _ => .pending) } := by
    rw [hundo]
  have hlog (o : OpenOperation P) :
      (b'.setRecording (some o)).undo = { b.undo with recording := some o } := by
    unfold setRecording
    rw [hundo]
  -- An empty table gives no entries when it is announced.
  cases hne : f.isEmpty with
  | false =>
    obtain ⟨base', hbase', hafter⟩ :=
      htable.recordAfter_announced (leaves_ne_nil h.tidy hne) hbase hopen
    refine ⟨_, _, hsession.trans (congrArg endOperation hafter), htable.withUndo _,
      ⟨hset.id, hset.registry, hset.config, hset.backend⟩, hlog _, rfl, hbase', ?_⟩
    unfold seenBefore
    rw [hne]
    rfl
  | true =>
    have hnil : f = .empty := Frame.isEmpty_iff.mp hne
    subst hnil
    obtain ⟨base', hbase', hafter⟩ := htable.recordAfter_unannounced hbase hopen
    refine ⟨_, _, hsession.trans (congrArg endOperation hafter), htable.withUndo _,
      ⟨hset.id, hset.registry, hset.config, hset.backend⟩, hlog _, rfl, hbase', ?_⟩
    have hseen : seenBefore b'.undo e p.name .empty (SlotEdit.applyAll xs .empty) =
        seenBefore b.undo e p.name .empty (SlotEdit.applyAll xs .empty) := by
      rw [hundo]
      rfl
    -- The table is still watched, but all its leaves are recorded.
    have hnone : ((SlotEdit.applyAll xs .empty).leaves.filter fun x => !((seenBefore b.undo e p.name
        .empty (SlotEdit.applyAll xs .empty)).map (·.1)).contains x.1) = [] := by
      refine List.filter_eq_nil_iff.mpr ?_
      intro x hx
      have hmem := leaf_seenBefore (e := e) (p := p) b.undo hx
      rw [List.contains_iff_mem.mpr hmem]
      decide
    have hnow (o : Option (OpenOperation P)) :
        (b'.setRecording o).HasTable e p (SlotEdit.applyAll xs .empty) := htable.withUndo _
    rw [hseen]
    unfold addNewSlots addNewSlots
    rw [(hnow _).newSlots_eq, pathsIn_slotEntry, hnone]
    exact List.append_nil _

/-- What a session comes to: its changes are made, and if there was anything to
    record, the record of it is appended to the log. -/
theorem session (h : b.HasTable e p f) (label : String) {xs : List SlotEdit}
    (hxs : ∀ x ∈ xs, x.Sound) {seen : List (String × Capture)}
    (hseen : seen = seenBefore b.undo e p.name f (SlotEdit.applyAll xs f)) :
    (b.slotSession label e p.name xs).2.HasTable e p (SlotEdit.applyAll xs f) ∧
      b.SameSetup (b.slotSession label e p.name xs).2 ∧
      (seen = [] → (b.slotSession label e p.name xs).1 = false ∧
        (b.slotSession label e p.name xs).2.undo = { b.undo with recording := none }) ∧
      (seen ≠ [] → (b.slotSession label e p.name xs).1 = true ∧
        ∃ base, PathsNamed base e p.name ∧ (b.slotSession label e p.name xs).2.undo =
          committedLog b.undo b.config { label, baseline := base }
            ((seen.map (slotChange e p (SlotEdit.applyAll xs f))).map UndoEntry.changed)) := by
  subst hseen
  obtain ⟨b', o, hsession, htable, hset, hundo, hlabel, hbase, hentries⟩ := h.records label hxs
  have hopen : b'.undo.recording = some o := by rw [hundo]
  rw [hsession]
  -- An operation without entries is dropped, any other one is committed.
  by_cases hnil : seenBefore b.undo e p.name f (SlotEdit.applyAll xs f) = []
  · have hend := endOperation_of_nil hopen (by rw [hentries, hnil]; rfl)
    rw [hend]
    refine ⟨htable.withUndo _, ⟨hset.id, hset.registry, hset.config, hset.backend⟩, ?_, ?_⟩
    · intro _
      refine ⟨rfl, ?_⟩
      unfold setRecording
      rw [hundo]
    · intro hne
      exact absurd hnil hne
  · have hfull : b'.addNewSlots o.entries o.watched ≠ [] := by
      rw [hentries]
      intro hmap
      exact hnil (List.map_eq_nil_iff.mp hmap)
    have hend := endOperation_of_ne_nil hopen hfull
    rw [hend]
    refine ⟨htable.withUndo _, ⟨hset.id, hset.registry, hset.config, hset.backend⟩, ?_, ?_⟩
    · intro hn
      exact absurd hn hnil
    · intro _
      refine ⟨rfl, o.baseline, hbase, ?_⟩
      rw [undo_withLog, hentries, close_slotEntry, hset.config, hundo]
      unfold committedLog
      rw [hlabel]

end HasTable

end Book

end EntityBook
