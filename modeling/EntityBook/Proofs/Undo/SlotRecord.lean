import EntityBook.Proofs.Undo.Aside
import EntityBook.Proofs.Undo.SlotDiff

/-! # What an operation records of a side-table

  An operation may announce a side-table and say that its change is done, any number of
  times. What it holds of the table is a list of paths with what was seen there before,
  the table at which the values after were filled in last, and the number of times that
  the table is watched for new slots. `SlotRecord` is this view. Each recording call
  has its counterpart on it, and so has undo, so that what undo makes of a table can be
  reasoned about in terms of tables alone.
-/

namespace EntityBook

variable {P : PayloadFamily}

/-- What an open operation holds of a side-table. -/
structure SlotRecord where
  /-- Paths, with what was seen there before. -/
  seen : List (String × Capture) := []
  /-- The table at which the values after were filled in, unless they are pending. -/
  last : Option Frame := none
  /-- How often the table is watched. -/
  watches : Nat := 0

namespace SlotRecord

/-- The values after. -/
def after (r : SlotRecord) (path : String) : Capture :=
  match r.last with
  | none => .pending
  | some h => h.seenAt path

/-- The leaves of a watched table at paths that are not recorded, as slots that were
    absent before. -/
def missed (r : SlotRecord) (g : Frame) : List (String × Capture) :=
  if r.watches = 0 then []
  else (g.leaves.filter fun x => !(r.seen.map (·.1)).contains x.1).map fun x => (x.1, .absent)

/-- The table is announced: its leaves are seen if nothing is recorded of it. -/
def announce (r : SlotRecord) (g : Frame) : SlotRecord :=
  if r.seen.isEmpty then
    { seen := g.leaves.map fun x => (x.1, .value x.2.text), watches := r.watches + 1 }
  else r

/-- Its change is said to be done. If nothing is recorded of it, the log has to say what
    was there before. -/
def finish (l : UndoLog P) (e : Entity) (name : String) (r : SlotRecord) (g : Frame) : SlotRecord :=
  if r.seen.isEmpty then { r with seen := Book.seenBefore l e name .empty g, last := some g }
  else { seen := r.seen ++ r.missed g, last := some g, watches := r.watches - 1 }

/-- What undo of the operation makes of the table that is there at its end. -/
def undone (r : SlotRecord) (g : Frame) : Frame :=
  ((r.last.getD g).undoPatches r.seen).foldl Frame.apply
    ((g.undoPatches (r.missed g)).foldl Frame.apply g)

end SlotRecord

namespace Book

/-! ### Parts about a side-table -/

/-- An entry about a slot as a change. -/
def slotCell (e : Entity) (p : Param P) (after : String → Capture) (x : String × Capture) :
    Change P :=
  { entity := e, param := p, path := some x.1, before := x.2, after := after x.1 }

section Cells

variable {e x : Entity} {p : Param P} {entries : List (UndoEntry P)}

theorem cell_slotEntry (after : String → Capture) (seen : List (String × Capture)) :
    cell (seen.map (slotEntry e p after)) e p.name = seen.map (slotCell e p after) := by
  have hsome : (seen.map (slotEntry e p after)).filterMap UndoEntry.change? =
      seen.map (slotCell e p after) := by
    rw [List.filterMap_map]
    exact congrFun (List.filterMap_eq_map (f := slotCell e p after)) seen
  unfold cell
  rw [hsome]
  refine List.filter_eq_self.mpr ?_
  intro c hc
  obtain ⟨y, _, rfl⟩ := List.mem_map.mp hc
  simp [slotCell]

theorem pathsIn_eq_cell (entries : List (UndoEntry P)) (e : Entity) (name : String) :
    UndoLog.pathsIn entries e name = (cell entries e name).filterMap (·.path) := by
  unfold UndoLog.pathsIn cell
  rw [List.filter_filterMap, List.filterMap_filterMap, List.filterMap_filter]
  refine List.filterMap_congr ?_
  intro u _
  cases u with
  | created _ | deleted _ => rfl
  | changed c =>
    show (if (UndoEntry.changed c).targets e name = true then c.path else none) =
      (Option.filter (fun c => (UndoEntry.changed c).targets e name) (some c)).bind (·.path)
    rw [Option.filter_some]
    cases (UndoEntry.changed c).targets e name <;> rfl

theorem pathsIn_slotCell {after : String → Capture} {seen : List (String × Capture)}
    (h : cell entries e p.name = seen.map (slotCell e p after)) :
    UndoLog.pathsIn entries e p.name = seen.map (·.1) := by
  rw [pathsIn_eq_cell, h, List.filterMap_map]
  exact congrFun (List.filterMap_eq_map (f := fun y : String × Capture => y.1)) seen

theorem cell_of_elsewhere {more : List (UndoEntry P)} (h : Elsewhere e more) (name : String) :
    cell more e name = [] := by
  rw [← cell_filter_entity, h.filter_eq_nil]
  rfl

end Cells

/-! ### What an open operation holds -/

end Book

/-- An entry is about the value of a parameter: of the given one, or of one that is no
    side-table. -/
def UndoEntry.OfValue (p : Param P) (u : UndoEntry P) : Prop :=
  ∃ c, u = .changed c ∧ (c.param.name = p.name ∨ c.path = none ∧ c.param.isSlots = false)

/-- An open operation holds a record of a side-table, and of its entity nothing else but
    values of other parameters. -/
structure SlotRecord.Holds (r : SlotRecord) (o : OpenOperation P) (e : Entity) (p : Param P) :
    Prop where
  cell : Book.cell o.entries e p.name = r.seen.map (Book.slotCell e p r.after)
  values : ∀ u ∈ o.entries, u.entity = e → u.OfValue p
  watched : (o.watched.filter fun w => w.1 == e) = List.replicate r.watches (e, p)

namespace Book

open SlotRecord

theorem ofValue_slotEntry {e : Entity} {p : Param P} {after : String → Capture}
    {seen : List (String × Capture)} {u : UndoEntry P} (hu : u ∈ seen.map (slotEntry e p after)) :
    u.OfValue p := by
  obtain ⟨x, _, rfl⟩ := List.mem_map.mp hu
  exact ⟨slotCell e p after x, rfl, Or.inl rfl⟩

namespace HasTable

variable {b : Book P} {e : Entity} {p : Param P} {g : Frame} {o : OpenOperation P}
  {r : SlotRecord}

/-- The new slots of a watched table are those that its record misses. -/
theorem newSlots_eq_missed (h : b.HasTable e p g) {entries : List (UndoEntry P)}
    {after : String → Capture} (hcell : cell entries e p.name = r.seen.map (slotCell e p after))
    (hw : r.watches ≠ 0) :
    b.newSlots entries e p = (r.missed g).map (slotEntry e p fun _ => .pending) := by
  rw [h.newSlots_eq, pathsIn_slotCell hcell]
  unfold missed
  rw [if_neg hw]

/-- A record of the table begins with the entries for what is seen of it first. -/
theorem holds_first {r' : SlotRecord} (hr : r.Holds o e p) (hnone : r.seen = [])
    {o' : OpenOperation P}
    (hentries : o'.entries = o.entries ++ r'.seen.map (slotEntry e p r'.after))
    (hwatched : (o'.watched.filter fun w => w.1 == e) = List.replicate r'.watches (e, p)) :
    r'.Holds o' e p where
  cell := by
    rw [hentries, cell_append, hr.cell, hnone, List.map_nil, List.nil_append, cell_slotEntry]
  values := by
    intro u hu hue
    rw [hentries] at hu
    rcases List.mem_append.mp hu with hu | hu
    · exact hr.values u hu hue
    · exact ofValue_slotEntry hu
  watched := hwatched

/-- Something is recorded of the table just if there are entries about it. -/
theorem cell_eq_nil_iff (hr : r.Holds o e p) : cell o.entries e p.name = [] ↔ r.seen = [] := by
  rw [hr.cell, List.map_eq_nil_iff]

/-- Announcing the table. -/
theorem recordBefore_holds (h : b.HasTable e p g) (ho : b.undo.recording = some o)
    (hr : r.Holds o e p) :
    ∃ o', (b.recordBefore e p.name).2 = b.setRecording (some o') ∧ (r.announce g).Holds o' e p := by
  obtain ⟨i, hi, _⟩ := h.exists_instance
  obtain ⟨base, _, hready⟩ := h.prepares ho
  unfold SlotRecord.announce
  by_cases hseen : r.seen = []
  · have hnone : cell o.entries e p.name = [] := (cell_eq_nil_iff hr).mpr hseen
    rw [hready.recordBefore_first (not_any_targets.mpr hnone) hi (h.snapshots_slots hi), h.slots,
      if_pos rfl, if_pos (by simp [hseen])]
    refine ⟨_, rfl, holds_first hr hseen rfl ?_⟩
    show ((o.watched ++ [(e, p)]).filter fun w => w.1 == e) = _
    rw [List.filter_append, hr.watched, List.filter_cons_of_pos (by simp), List.replicate_succ']
    rfl
  · have hsome : cell o.entries e p.name ≠ [] := mt (cell_eq_nil_iff hr).mp hseen
    rw [hready.recordBefore_again (any_targets.mpr hsome), if_neg (by simpa using hseen)]
    exact ⟨_, rfl, hr.cell, hr.values, hr.watched⟩

/-- Filling in what is there now. -/
theorem cell_refreshed (h : b.HasTable e p g) {entries : List (UndoEntry P)}
    {after : String → Capture} {seen : List (String × Capture)}
    (hcell : cell entries e p.name = seen.map (slotCell e p after)) :
    cell (entries.map (b.refresh e p p.name)) e p.name = seen.map (slotCell e p g.seenAt) := by
  rw [Recorded.cell_refresh, hcell, List.map_map]
  refine List.map_congr_left ?_
  intro x _
  show Recorded.refreshed b e p p.name (slotCell e p after x) = slotCell e p g.seenAt x
  unfold Recorded.refreshed slotCell
  dsimp only
  rw [if_pos (by simp), h.capture_eq]

/-- Filling in values of any parameter leaves entries about values. -/
theorem ofValue_refresh {u : UndoEntry P} (hu : u.OfValue p) (q : Param P) (name : String) :
    (b.refresh e q name u).OfValue p := by
  obtain ⟨c, rfl, hc⟩ := hu
  refine ⟨Recorded.refreshed b e q name c, Recorded.refresh_changed b e q name c, ?_⟩
  rw [Recorded.refreshed_param, Recorded.refreshed_path]
  exact hc

/-- A watched table is found among the watched ones. -/
theorem find?_watched {watched : List (Entity × Param P)} {n : Nat}
    (hw : (watched.filter fun w => w.1 == e) = List.replicate n (e, p)) :
    (watched.find? fun w => w.1 == e && w.2.name == p.name) =
      if n = 0 then none else some (e, p) := by
  have hown : (watched.find? fun w => w.1 == e && w.2.name == p.name) =
      (watched.filter fun w => w.1 == e).find? fun w => w.1 == e && w.2.name == p.name := by
    rw [List.find?_filter]
    refine congrArg (fun q => watched.find? q) (funext fun w => ?_)
    rw [Bool.eq_iff_iff]
    simp
  rw [hown, hw, List.find?_replicate]
  simp

theorem eraseP_watched {watched : List (Entity × Param P)} {n : Nat}
    (hw : (watched.filter fun w => w.1 == e) = List.replicate n (e, p)) :
    ((watched.eraseP fun w => w.1 == e && w.2.name == p.name).filter fun w => w.1 == e) =
      List.replicate (n - 1) (e, p) := by
  have hown : ((watched.eraseP fun w => w.1 == e && w.2.name == p.name).filter fun w => w.1 == e) =
      (watched.filter fun w => w.1 == e).eraseP fun w => w.1 == e && w.2.name == p.name := by
    rw [List.eraseP_filter]
    refine congrArg (fun q => (watched.eraseP q).filter fun w => w.1 == e) (funext fun w => ?_)
    cases w.1 == e <;> simp
  rw [hown, hw, List.eraseP_replicate_of_pos (by simp)]

/-- The new slots of the table, if it is watched, are those that its record misses. -/
theorem watchedSlots_eq_missed (h : b.HasTable e p g) (hr : r.Holds o e p) :
    b.watchedSlots o e p.name = (r.missed g).map (slotEntry e p fun _ => .pending) := by
  unfold watchedSlots
  rw [find?_watched hr.watched]
  by_cases hw : r.watches = 0
  · unfold missed
    rw [if_pos hw, if_pos hw]
    rfl
  · rw [if_neg hw]
    exact h.newSlots_eq_missed hr.cell hw

/-- Once something is recorded, the values are filled in, after entries for new slots. -/
theorem fillIn_holds (h : b.HasTable e p g) (hr : r.Holds o e p) (hseen : r.seen ≠ []) :
    (finish b.undo e p.name r g).Holds (b.fillIn o e p p.name) e p := by
  unfold finish fillIn
  rw [if_neg (by simpa using hseen), h.watchedSlots_eq_missed hr]
  refine ⟨?_, ?_, eraseP_watched hr.watched⟩
  · show cell ((o.entries ++ _).map _) e p.name = _
    rw [List.map_append, cell_append, h.cell_refreshed hr.cell,
      h.cell_refreshed (cell_slotEntry _ _), ← List.map_append]
    rfl
  · intro u hu hue
    obtain ⟨v, hv, rfl⟩ := List.mem_map.mp hu
    rw [entity_refresh] at hue
    rcases List.mem_append.mp hv with hv | hv
    · exact ofValue_refresh (hr.values v hv hue) _ _
    · exact ofValue_refresh (ofValue_slotEntry hv) _ _

/-- Saying that its change is done. -/
theorem recordAfter_holds (h : b.HasTable e p g) (ho : b.undo.recording = some o)
    (hr : r.Holds o e p) :
    ∃ o', (b.recordAfter e p.name).2 = b.setRecording (some o') ∧
      (finish b.undo e p.name r g).Holds o' e p := by
  obtain ⟨i, hi, _⟩ := h.exists_instance
  obtain ⟨base, _, hready⟩ := h.prepares ho
  by_cases hseen : r.seen = []
  -- Nothing is recorded: the log is asked.
  · have hnone : cell o.entries e p.name = [] := (cell_eq_nil_iff hr).mpr hseen
    rw [hready.recordAfter_unannounced (not_any_targets.mpr hnone) hi (snapshot_eq (h.value_eq hi)),
      h.unannounced_slots]
    unfold finish
    rw [if_pos (by simp [hseen])]
    exact ⟨_, rfl, holds_first hr hseen rfl hr.watched⟩
  · have hsome : cell o.entries e p.name ≠ [] := mt (cell_eq_nil_iff hr).mp hseen
    rw [hready.recordAfter_filled (any_targets.mpr hsome)]
    exact ⟨_, rfl, h.fillIn_holds ⟨hr.cell, hr.values, hr.watched⟩ hseen⟩

/-! ### The end of the operation -/

/-- Entries about other entities do not change what is new in the table. -/
theorem newSlots_congr (b : Book P) {entries entries' : List (UndoEntry P)}
    (h : cell entries e p.name = cell entries' e p.name) :
    b.newSlots entries e p = b.newSlots entries' e p := by
  unfold newSlots
  rw [pathsIn_eq_cell, h, ← pathsIn_eq_cell]

/-- Once the new slots are added, there are no new ones any more. -/
theorem newSlots_newSlots (h : b.HasTable e p g) (entries : List (UndoEntry P)) :
    b.newSlots (entries ++ b.newSlots entries e p) e p = [] := by
  rw [h.newSlots_eq (entries ++ _), List.map_eq_nil_iff, List.map_eq_nil_iff,
    List.filter_eq_nil_iff]
  intro x hx
  have hmem : x.1 ∈ UndoLog.pathsIn (entries ++ b.newSlots entries e p) e p.name := by
    rw [pathsIn_eq_cell, cell_append, List.filterMap_append, ← pathsIn_eq_cell, ← pathsIn_eq_cell]
    by_cases hold : x.1 ∈ UndoLog.pathsIn entries e p.name
    · exact List.mem_append_left _ hold
    · refine List.mem_append_right _ ?_
      rw [h.newSlots_eq, pathsIn_slotEntry, List.map_map]
      refine List.mem_map.mpr ⟨x, List.mem_filter.mpr ⟨hx, ?_⟩, rfl⟩
      simpa using hold
  simpa using hmem

/-- However often a table is watched, its new slots are added once. -/
theorem cell_addNewSlots (h : b.HasTable e p g) {entries : List (UndoEntry P)}
    {watched : List (Entity × Param P)} {n : Nat}
    (hw : (watched.filter fun w => w.1 == e) = List.replicate n (e, p)) :
    cell (b.addNewSlots entries watched) e p.name =
      cell entries e p.name ++ if n = 0 then [] else cell (b.newSlots entries e p) e p.name := by
  induction watched generalizing entries n with
  | nil =>
    have hn : n = 0 := by simpa using congrArg List.length hw.symm
    rw [if_pos hn, List.append_nil]
    rfl
  | cons w rest ih =>
    obtain ⟨x, q⟩ := w
    show cell (b.addNewSlots (entries ++ b.newSlots entries x q) rest) e p.name = _
    by_cases hx : x = e
    · subst hx
      rw [List.filter_cons_of_pos (by simp)] at hw
      cases n with
      | zero => cases hw
      | succ m =>
        obtain ⟨hq, hrest⟩ := List.cons.inj hw
        cases (Prod.mk.inj hq).2
        rw [ih hrest, cell_append, h.newSlots_newSlots, if_neg (Nat.succ_ne_zero m)]
        split
        · rw [List.append_nil]
        · rw [cell_nil, List.append_nil]
    · rw [List.filter_cons_of_neg (by simpa using hx)] at hw
      have hnone := cell_of_elsewhere (elsewhere_newSlots hx b entries q) p.name
      have hcell : cell (entries ++ b.newSlots entries x q) e p.name = cell entries e p.name := by
        rw [cell_append, hnone, List.append_nil]
      rw [ih hw, hcell, newSlots_congr b hcell]

theorem mem_addNewSlots {b : Book P} {entries : List (UndoEntry P)}
    {watched : List (Entity × Param P)} {u : UndoEntry P}
    (hu : u ∈ b.addNewSlots entries watched) :
    u ∈ entries ∨ ∃ w ∈ watched, ∃ c, u = .changed c ∧ c.entity = w.1 ∧ c.param = w.2 ∧
      c.path.isSome = true := by
  induction watched generalizing entries with
  | nil => exact Or.inl hu
  | cons w rest ih =>
    rcases ih hu with hu | ⟨w', hw', hnew⟩
    · rcases List.mem_append.mp hu with hu | hu
      · exact Or.inl hu
      · right
        refine ⟨w, List.mem_cons_self, ?_⟩
        unfold newSlots at hu
        split at hu
        · cases hu
        · obtain ⟨x, _, rfl⟩ := List.mem_map.mp hu
          exact ⟨_, rfl, rfl, rfl, rfl⟩
    · exact Or.inr ⟨w', List.mem_cons_of_mem w hw', hnew⟩

/-- What the operation holds of the entity at its end are still values. -/
theorem ofValue_addNewSlots (hr : r.Holds o e p) {u : UndoEntry P}
    (hu : u ∈ b.addNewSlots o.entries o.watched) (hue : u.entity = e) : u.OfValue p := by
  rcases mem_addNewSlots hu with hu | ⟨w, hw, c, rfl, hentity, hparam, _⟩
  · exact hr.values u hu hue
  · have hmem : w ∈ o.watched.filter fun w => w.1 == e := by
      refine List.mem_filter.mpr ⟨hw, ?_⟩
      simpa using hentity.symm.trans hue
    rw [hr.watched] at hmem
    cases List.eq_of_mem_replicate hmem
    exact ⟨c, rfl, Or.inl (congrArg Param.name hparam)⟩

/-- What was filled in stays. -/
theorem closed_of_seen (b : Book P) (k : Frame) (x : String × Capture) :
    b.closed (slotCell e p k.seenAt x) = slotChange e p k x := by
  unfold closed slotCell slotChange
  dsimp only
  rw [if_neg (seenAt_ne_pending k x.1)]

/-- The rest is compared with what is there now. -/
theorem closed_slotCell (h : b.HasTable e p g) (r : SlotRecord) (x : String × Capture) :
    b.closed (slotCell e p r.after x) = slotChange e p (r.last.getD g) x := by
  unfold SlotRecord.after
  cases r.last with
  | some k => exact closed_of_seen b k x
  | none =>
    unfold closed slotCell slotChange
    dsimp only
    rw [if_pos rfl, h.capture_eq]
    rfl

/-- What the log gets of the table when the operation ends. -/
theorem cell_closed (h : b.HasTable e p g) (hr : r.Holds o e p) :
    cell ((b.addNewSlots o.entries o.watched).map b.close) e p.name =
      r.seen.map (slotChange e p (r.last.getD g)) ++ (r.missed g).map (slotChange e p g) := by
  have hnew : (if r.watches = 0 then [] else cell (b.newSlots o.entries e p) e p.name) =
      (r.missed g).map (slotCell e p fun _ => .pending) := by
    by_cases hw : r.watches = 0
    · unfold missed
      rw [if_pos hw, if_pos hw]
      rfl
    · rw [if_neg hw, h.newSlots_eq_missed hr.cell hw, cell_slotEntry]
  rw [cell_close, h.cell_addNewSlots hr.watched, hnew, hr.cell, List.map_append, List.map_map,
    List.map_map]
  congr 1
  · refine List.map_congr_left ?_
    intro x _
    exact h.closed_slotCell r x
  · refine List.map_congr_left ?_
    intro x _
    exact h.closed_slotCell {} x

/-! ### What the log knows of a table -/

/-- A table that is announced, changed and finished is recorded like a session. -/
theorem finish_announce {f : Frame} (hf : f.Tidy) (l : UndoLog P) (e : Entity) (name : String)
    (g : Frame) :
    (finish l e name (({} : SlotRecord).announce f) g).seen = seenBefore l e name f g ∧
      (finish l e name (({} : SlotRecord).announce f) g).last = some g := by
  have hannounce : ({} : SlotRecord).announce f =
      { seen := f.leaves.map fun x => (x.1, .value x.2.text), watches := 1 } := rfl
  rw [hannounce]
  unfold finish seenBefore
  cases hne : f.isEmpty with
  | true =>
    rw [Frame.isEmpty_iff.mp hne]
    exact ⟨rfl, rfl⟩
  | false =>
    rw [if_neg (by simpa using leaves_ne_nil hf hne)]
    refine ⟨?_, rfl⟩
    show (f.leaves.map fun x => (x.1, Capture.value x.2.text)) ++ missed _ g = Frame.announced f g
    unfold missed Frame.announced
    rw [if_neg Nat.one_ne_zero, List.map_map]
    rfl

/-- A value that the log knows is written to a table that is empty all along. -/
theorem known_value_spoils (hlog : ∀ op ∈ b.undo.past, PathsNamed op.entries e p.name)
    (hread : ∀ path s, b.undo.lastKnown e p.name (some path) = some (.value s) →
      ∃ t, Slot.parse s = .ok t) {path s : String}
    (hknown : b.undo.lastKnown e p.name (some path) = some (.value s)) :
    (Frame.empty.undoPatches (seenBefore b.undo e p.name .empty .empty)).foldl Frame.apply .empty ≠
      .empty := by
  have htidy : Frame.empty.Tidy := trivial
  -- Where nothing was seen, nothing is done; where a value was, it is written.
  have hwrites : ∀ x ∈ Frame.empty.undoPatches (seenBefore b.undo e p.name .empty .empty),
      x.2.isSome = true ∧ x.1 ≠ [] := by
    intro x hx
    obtain ⟨y, hy, hne, hpatch⟩ := Frame.mem_undoPatches.mp hx
    obtain ⟨ns, hns, hpath⟩ := named_of_mem_seenBefore htidy htidy hlog hy
    have hgone : Frame.empty.seenAt y.1 = .absent := by
      rw [hpath]
      exact Frame.seenAt_of_none hns (Frame.getAt_empty ns)
    rw [hgone] at hne
    unfold Frame.patch? at hpatch
    split at hpatch
    · cases hpatch
    · next habsent => exact absurd habsent hne
    · split at hpatch
      · cases hpatch
        refine ⟨rfl, ?_⟩
        rw [hpath, Frame.names_pathOf hns.2]
        exact hns.1
      · cases hpatch
  obtain ⟨t, ht⟩ := hread path s hknown
  have hseen : (path, Capture.value s) ∈ seenBefore b.undo e p.name .empty .empty := by
    unfold seenBefore
    rw [if_pos (show Frame.empty.isEmpty = true from rfl)]
    refine List.mem_map.mpr ⟨path, ?_, by rw [hknown]; rfl⟩
    exact UndoLog.mem_sortPaths.mpr
      (List.mem_append_right _ (UndoLog.mem_knownPaths_of_lastKnown hknown))
  obtain ⟨ns, hns, hpath⟩ := named_of_mem_seenBefore htidy htidy hlog hseen
  have hmem : (Frame.names path, some t) ∈
      Frame.empty.undoPatches (seenBefore b.undo e p.name .empty .empty) := by
    refine Frame.mem_undoPatches.mpr ⟨_, hseen, ?_, ?_⟩
    · rw [hpath, Frame.seenAt_of_none hns (Frame.getAt_empty ns)]
      intro heq
      cases heq
    · unfold Frame.patch?
      dsimp only
      rw [ht]
  generalize Frame.empty.undoPatches (seenBefore b.undo e p.name .empty .empty) = xs at hwrites hmem
  cases xs with
  | nil => cases hmem
  | cons x rest =>
    obtain ⟨hsome, hne⟩ := hwrites x List.mem_cons_self
    obtain ⟨v, hv⟩ := Option.isSome_iff_exists.mp hsome
    rw [List.foldl_cons]
    refine Frame.foldl_write_ne_empty ?_ fun y hy => (hwrites y (List.mem_cons_of_mem x hy)).1
    unfold Frame.apply
    rw [hv]
    exact Frame.setAt_ne_empty v hne .empty

end HasTable

end Book

end EntityBook
