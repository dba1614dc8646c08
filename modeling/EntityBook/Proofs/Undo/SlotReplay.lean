import EntityBook.Proofs.Undo.Operation
import EntityBook.Proofs.Undo.SlotSession

/-! # Replaying changes of slots

  A recorded change of a slot is a patch in either direction. Replaying the
  entries of a session applies the patches that its record stands for, and
  leaves everything else of the book as it is.
-/

namespace EntityBook

variable {P : PayloadFamily}

namespace Instance

/-- Restoring a capture of a slot applies its patch. -/
theorem slots_restored (i : Instance P) {c : Change P} {path : String} (hc : c.path = some path)
    (seen : Capture) : (i.restored c seen).slots = i.slots.applyIf (Frame.patch? path seen) := by
  unfold restored
  rw [hc]
  cases seen with
  | pending => rfl
  | absent => rfl
  | value s =>
    unfold Frame.patch?
    dsimp only
    cases Slot.parse s with
    | error err => rfl
    | ok slot =>
      have hset := Frame.set_eq i.slots path slot
      dsimp only [Frame.applyIf, Option.elim_some, Frame.apply]
      rw [← hset]
      cases i.slots.set path slot <;> rfl

/-- Writing to a parameter that is no side-table leaves the side-table alone. -/
theorem slots_write {i j : Instance P} {p : Param P} (hp : p.isSlots = false) {v : ParamValue}
    (h : i.write p v = .ok j) : j.slots = i.slots := by
  rcases write_cases h with ⟨_, hslots, _, _⟩ | ⟨_, _, _, rfl⟩
  · unfold Param.isSlots at hp
    rw [hslots] at hp
    cases hp
  · rfl

theorem slots_writeText {i j : Instance P} {p : Param P} (hp : p.isSlots = false) {s : String}
    (h : i.writeText p s = .ok j) : j.slots = i.slots := by
  obtain ⟨_, v, _, hw⟩ := writeText_cases h
  exact slots_write hp hw

/-- So does restoring such a parameter. -/
theorem slots_restored_of_none (i : Instance P) {c : Change P} (hc : c.path = none)
    (hp : c.param.isSlots = false) (seen : Capture) : (i.restored c seen).slots = i.slots := by
  unfold restored
  rw [hc]
  cases seen with
  | pending | absent => rfl
  | value s =>
    dsimp only
    cases hw : i.writeText c.param s with
    | error err => rfl
    | ok j => exact slots_writeText hp hw

/-- What restoring changes makes of the side-table are the patches of those that are about
    slots. -/
theorem slots_foldl_restored (side : Change P → Capture) {cs : List (Change P)}
    (h : ∀ c ∈ cs, c.path = none → c.param.isSlots = false) (i : Instance P) :
    (cs.foldl (fun i c => i.restored c (side c)) i).slots =
      (cs.filterMap fun c => c.path.bind fun path => Frame.patch? path (side c)).foldl Frame.apply
        i.slots := by
  induction cs generalizing i with
  | nil => rfl
  | cons c rest ih =>
    have hrest := ih (fun d hd => h d (List.mem_cons_of_mem c hd)) (i.restored c (side c))
    rw [List.foldl_cons, hrest, List.filterMap_cons]
    cases hpath : c.path with
    | none => rw [i.slots_restored_of_none hpath (h c List.mem_cons_self hpath), Option.bind_none]
    | some path =>
      rw [i.slots_restored hpath, Option.bind_some]
      cases Frame.patch? path (side c) with
      | none => rfl
      | some y => rfl

end Instance

namespace Book

/-- The patches of a record, for either direction. -/
def Direction.patches (d : Direction) (g : Frame) (seen : List (String × Capture)) :
    List Frame.Patch :=
  match d with
  | .undo => g.undoPatches seen
  | .redo => g.redoPatches seen

section Replay

variable {e : Entity} {p : Param P} {g : Frame}

theorem changesOf_slotChange (seen : List (String × Capture)) (d : Direction) :
    changesOf ((seen.map (slotChange e p g)).map UndoEntry.changed) d =
      match d with
      | .undo => (seen.filter fun x => !decide (x.2 = g.seenAt x.1)).reverse.map (slotChange e p g)
      | .redo => (seen.filter fun x => !decide (x.2 = g.seenAt x.1)).map (slotChange e p g) := by
  have hchanges (cs : List (Change P)) :
      (cs.map UndoEntry.changed).filterMap UndoEntry.change? = cs := by
    rw [List.filterMap_map]
    exact List.filterMap_some
  have hkept : ((seen.map (slotChange e p g)).filter fun c => !c.kept) =
      (seen.filter fun x => !decide (x.2 = g.seenAt x.1)).map (slotChange e p g) := List.filter_map
  unfold changesOf
  rw [filterMap_change?_modify, hchanges, hkept]
  cases d with
  | undo => exact List.map_reverse.symm
  | redo => rfl

/-- A record only changes values. -/
theorem changes_slotChange (e : Entity) (p : Param P) (g : Frame) (seen : List (String × Capture)) :
    ∀ u ∈ (seen.map (slotChange e p g)).map UndoEntry.changed, ∃ c, u = .changed c := by
  intro u hu
  obtain ⟨c, _, rfl⟩ := List.mem_map.mp hu
  exact ⟨c, rfl⟩

/-- Restoring the changes of a record applies its patches. -/
theorem slots_foldl_restored (d : Direction) (seen : List (String × Capture)) (i : Instance P) :
    ((changesOf ((seen.map (slotChange e p g)).map UndoEntry.changed) d).foldl
        (fun i c => i.restored c (d.side c)) i).slots =
      (d.patches g seen).foldl Frame.apply i.slots := by
  have hpaths (xs : List (String × Capture)) :
      ∀ c ∈ xs.map (slotChange e p g), c.path = none → c.param.isSlots = false := by
    intro c hc hnone
    obtain ⟨x, _, rfl⟩ := List.mem_map.mp hc
    cases hnone
  rw [changesOf_slotChange]
  cases d with
  | undo | redo =>
    rw [Instance.slots_foldl_restored _ (hpaths _), List.filterMap_map]
    rfl

/-- The table after a replay of a record. -/
theorem table?_replay {b : Book P} (hb : b.WellFormed) {f : Frame} (ht : b.table? e = some f)
    (d : Direction) (seen : List (String × Capture)) :
    (b.replay ((seen.map (slotChange e p g)).map UndoEntry.changed) d).table? e =
      some ((d.patches g seen).foldl Frame.apply f) := by
  obtain ⟨i, hi, hslots⟩ := Option.map_eq_some_iff.mp ht
  have hsus := Revises.suspend b
  obtain ⟨k, hk, hsame⟩ := get?_restoreAll (hsus.wellFormed hb) d.side
    (changesOf ((seen.map (slotChange e p g)).map UndoEntry.changed) d) hi
  -- All the changes of the record are about the one entity.
  have hown : ((changesOf ((seen.map (slotChange e p g)).map UndoEntry.changed) d).filter
      fun c => c.entity == e) =
      changesOf ((seen.map (slotChange e p g)).map UndoEntry.changed) d := by
    refine List.filter_eq_self.mpr ?_
    intro c hc
    obtain ⟨u, hu, heq⟩ := List.mem_map.mp (mem_of_mem_changesOf hc)
    obtain ⟨x, _, rfl⟩ := List.mem_map.mp hu
    cases heq
    exact beq_self_eq_true e
  have hafter := hsame.slots
  rw [hown, slots_foldl_restored, hslots] at hafter
  have hget :
      (b.replay ((seen.map (slotChange e p g)).map UndoEntry.changed) d).get? e = some k := by
    rw [replay_of_changes (changes_slotChange e p g seen)]
    exact hk
  unfold table?
  rw [hget, Option.map_some, hafter]

end Replay

/-! ### Undo of slots among other changes -/

/-- The patches that undo makes of changes, of those that are about slots. -/
def undoPatchesOf (cs : List (Change P)) : List Frame.Patch :=
  (cs.filter fun c => !c.kept).reverse.filterMap fun c =>
    c.path.bind fun path => Frame.patch? path c.before

section UndoPatches

variable {e : Entity} {p : Param P} {g : Frame}

theorem undoPatchesOf_append (xs ys : List (Change P)) :
    undoPatchesOf (xs ++ ys) = undoPatchesOf ys ++ undoPatchesOf xs := by
  unfold undoPatchesOf
  rw [List.filter_append, List.reverse_append, List.filterMap_append]

theorem undoPatchesOf_slotChange (seen : List (String × Capture)) :
    undoPatchesOf (seen.map (slotChange e p g)) = g.undoPatches seen := by
  unfold undoPatchesOf Frame.undoPatches
  rw [List.filter_map, ← List.map_reverse, List.filterMap_map]
  rfl

/-- Changes that are not about slots may be left out. -/
theorem undoPatchesOf_filter {q : Change P → Bool} {cs : List (Change P)}
    (h : ∀ c ∈ cs, q c = false → c.path = none) :
    undoPatchesOf (cs.filter q) = undoPatchesOf cs := by
  unfold undoPatchesOf
  rw [List.filter_filter, ← List.filter_reverse, ← List.filter_reverse, List.filterMap_filter,
    List.filterMap_filter]
  refine List.filterMap_congr ?_
  intro c hc
  cases hq : q c with
  | true => rw [Bool.and_true]
  | false => simp [h c (List.mem_reverse.mp hc) hq]

/-- The table of an entity after undo of an operation that does not take it away. -/
theorem table?_undo {b : Book P} (hb : b.WellFormed) {entries : List (UndoEntry P)}
    (hspared : UndoEntry.created e ∉ entries) {i : Instance P}
    (hi : (b.prepared entries .undo).get? e = some i)
    (hpaths : ∀ c, UndoEntry.changed c ∈ entries → c.entity = e → c.path = none →
      c.param.isSlots = false) :
    (b.replay entries .undo).table? e = some ((undoPatchesOf
      ((entries.filterMap UndoEntry.change?).filter fun c => c.entity == e)).foldl Frame.apply
        i.slots) := by
  have hremoved : e ∉ entitiesOf entries Direction.undo.removed := by
    intro hm
    exact hspared (mem_entitiesOf_delete.mp hm)
  obtain ⟨k, hk, _, hsame⟩ := get?_replay_of_spared hb hremoved hi
  have hchanges : ((changesOf entries .undo).filter fun c => c.entity == e) =
      (((entries.filterMap UndoEntry.change?).filter fun c => c.entity == e).filter
        fun c => !c.kept).reverse := by
    unfold changesOf
    rw [filterMap_change?_modify, List.filter_reverse, List.filter_filter, List.filter_filter]
    refine congrArg List.reverse (List.filter_congr ?_)
    intro c _
    exact Bool.and_comm _ _
  have hslots := hsame.slots
  unfold replayed at hslots
  rw [Instance.slots_foldl_restored, hchanges] at hslots
  · unfold table?
    rw [hk, Option.map_some, hslots]
    rfl
  · intro c hc hnone
    obtain ⟨hm, hce⟩ := List.mem_filter.mp hc
    exact hpaths c (mem_of_mem_changesOf hm) (by simpa using hce) hnone

end UndoPatches

end Book

end EntityBook
