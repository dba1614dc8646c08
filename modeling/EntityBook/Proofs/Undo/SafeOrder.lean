import EntityBook.Proofs.Undo.SlotRun

/-! # Orders of recording that lose nothing

  An operation may announce a side-table, change it and say that its change is done, in
  any order and any number of times. Whether undo takes all changes back depends on the
  order. A table that has slots when it is announced is safe as long as it is not changed
  after its change was said to be done, because it is not watched for new slots any more.

  Announcing an empty table leaves nothing that says so, and so a later announcement
  takes what is there by then for what was there before. `Stage` follows what an operation
  on an empty table may have come to, and `Stage.safe` decides whether it may go wrong.
-/

namespace EntityBook

variable {P : PayloadFamily}

/-- What an operation on a table that was empty may have come to. -/
inductive Stage where
  /-- Nothing is recorded, and the table is watched so many times. It may have slots. -/
  | quiet (watches : Nat) (filled : Bool)
  /-- Paths are recorded at which nothing was before, and the table is watched so many
      times. When the values after were filled in last, some of the paths may have been
      lost, and the table may have changed since. -/
  | recorded (watches : Nat) (lost changed : Bool)

/-- Whether all operations that go on in an order end with a record that gives back the
    empty table. The log may know paths of the table. -/
def Stage.safe (known : Bool) : Stage → List Mark → Bool
  | quiet _ _, [] => true
  -- What is there by now would count as what was there before.
  | quiet n filled, .before :: ms => !filled && safe known (quiet (n + 1) false) ms
  | quiet n filled, .after :: ms =>
    if filled || known then safe known (recorded n known false) ms
    else safe known (quiet n false) ms
  | quiet n _, .change :: ms => safe known (quiet n false) ms && safe known (quiet n true) ms
  -- A path that was lost and is there again counts as kept.
  | recorded _ lost changed, [] => !(lost && changed)
  | recorded n lost changed, .before :: ms => safe known (recorded n lost changed) ms
  | recorded n lost changed, .after :: ms =>
    safe known (recorded (n - 1) (lost || changed) false) ms
  -- New slots are found only if the table is watched.
  | recorded n lost _, .change :: ms => decide (0 < n) && safe known (recorded n lost true) ms

/-- Steps that do not change the table. -/
def SlotStep.IsIdle : SlotStep P → Prop
  | change xs => xs = []
  | before | after | other _ => True

namespace SlotRecord

variable {r : SlotRecord} {g : Frame}

/-- A record misses nothing if the table is not watched, or if all its leaves are seen. -/
theorem missed_eq_nil :
    r.missed g = [] ↔ r.watches = 0 ∨ ∀ x ∈ g.leaves, x.1 ∈ r.seen.map (·.1) := by
  unfold missed
  by_cases hw : r.watches = 0
  · simp only [hw, if_true, true_or]
  · rw [if_neg hw, List.map_eq_nil_iff, List.filter_eq_nil_iff]
    constructor
    · intro h
      refine Or.inr fun x hx => ?_
      simpa using h x hx
    · intro h x hx
      simpa using h.resolve_left hw x hx

/-- A slot is missed if the table is watched, and is absent before. -/
theorem mem_missed {y : String × Capture} : y ∈ r.missed g ↔
    r.watches ≠ 0 ∧ y.2 = .absent ∧ ∃ x ∈ g.leaves, x.1 ∉ r.seen.map (·.1) ∧ y.1 = x.1 := by
  unfold missed
  split
  · next hw => exact iff_of_false (by simp) (fun h => h.1 hw)
  · next hw =>
    rw [List.mem_map]
    constructor
    · rintro ⟨x, hx, rfl⟩
      obtain ⟨hleaf, hnew⟩ := List.mem_filter.mp hx
      exact ⟨hw, rfl, x, hleaf, by simpa using hnew, rfl⟩
    · rintro ⟨_, hnone, x, hleaf, hnew, hpath⟩
      exact ⟨x, List.mem_filter.mpr ⟨hleaf, by simpa using hnew⟩, Prod.ext hpath.symm hnone.symm⟩

theorem announce_of_seen (h : r.seen ≠ []) (g : Frame) : r.announce g = r :=
  if_neg (by simpa using h)

theorem finish_of_seen (h : r.seen ≠ []) (l : UndoLog P) (e : Entity) (name : String) (g : Frame) :
    r.finish l e name g =
      { seen := r.seen ++ r.missed g, last := some g, watches := r.watches - 1 } :=
  if_neg (by simpa using h)

theorem finish_of_unseen (h : r.seen = []) (l : UndoLog P) (e : Entity) (name : String)
    (g : Frame) : r.finish l e name g =
      { r with seen := Book.seenBefore l e name .empty g, last := some g } :=
  if_pos (by simp [h])

end SlotRecord

namespace SlotState

variable {l : UndoLog P} {e : Entity} {name : String} {ss : List (SlotStep P)} {s : SlotState}

theorem undone_of_missed (h : s.record.missed s.table = []) : s.undone =
    ((s.record.last.getD s.table).undoPatches s.record.seen).foldl Frame.apply s.table := by
  unfold undone SlotRecord.undone
  rw [h]
  rfl

theorem undone_of_pending (h : s.record.last = none) :
    s.undone = (s.table.undoPatches s.entries).foldl Frame.apply s.table := by
  unfold undone SlotRecord.undone entries
  rw [h, Frame.undoPatches_append, List.foldl_append]
  rfl

/-- Once something is recorded, announcing a change does not matter. -/
theorem steps_before_of_seen (h : s.record.seen ≠ []) (l : UndoLog P) (e : Entity) (name : String)
    (ss : List (SlotStep P)) : s.steps l e name (.before :: ss) = s.steps l e name ss := by
  show SlotState.steps l e name { s with record := s.record.announce s.table } ss = _
  rw [SlotRecord.announce_of_seen h]

/-- Once something is recorded and nothing is missed, recording more does not matter. -/
theorem steps_idle (l : UndoLog P) (e : Entity) (name : String) (hseen : s.record.seen ≠ [])
    (hmissed : s.record.missed s.table = []) (hss : ∀ t ∈ ss, t.IsIdle) :
    (s.steps l e name ss).table = s.table ∧
      (s.steps l e name ss).record.seen = s.record.seen ∧
      (s.steps l e name ss).record.missed s.table = [] ∧
      ((s.steps l e name ss).record.last = s.record.last ∨
        (s.steps l e name ss).record.last = some s.table) := by
  induction ss generalizing s with
  | nil => exact ⟨rfl, rfl, hmissed, Or.inl rfl⟩
  | cons t rest ih =>
    have hrest : ∀ u ∈ rest, u.IsIdle := fun u hu => hss u (List.mem_cons_of_mem t hu)
    cases t with
    | other c => exact ih hseen hmissed hrest
    | before =>
      rw [steps_before_of_seen hseen]
      exact ih hseen hmissed hrest
    | change xs =>
      cases show xs = [] from hss _ List.mem_cons_self
      exact ih hseen hmissed hrest
    | after =>
      have hstep : s.step l e name .after = { s with record :=
          { seen := s.record.seen, last := some s.table, watches := s.record.watches - 1 } } := by
        show ({ s with record := s.record.finish l e name s.table } : SlotState) = _
        rw [SlotRecord.finish_of_seen hseen, hmissed, List.append_nil]
      have hnone : (s.step l e name .after).record.missed (s.step l e name .after).table = [] := by
        rw [hstep, SlotRecord.missed_eq_nil]
        rcases SlotRecord.missed_eq_nil.mp hmissed with hw | hall
        · exact Or.inl (by simp [hw])
        · exact Or.inr hall
      obtain ⟨htable, hkept, hmiss, hlast⟩ := ih (s := s.step l e name .after)
        (by rw [hstep]; exact hseen) hnone hrest
      rw [show SlotState.steps l e name s (.after :: rest) =
        (s.step l e name .after).steps l e name rest from rfl]
      rw [hstep] at htable hkept hmiss hlast ⊢
      exact ⟨htable, hkept, hmiss, Or.inr (hlast.elim id id)⟩

end SlotState

/-! ### Tables that had slots -/

namespace SlotState

variable {l : UndoLog P} {e : Entity} {name : String} {ss : List (SlotStep P)} {f : Frame}

theorem isIdle_of_marks (h : Mark.change ∉ marks ss) : ∀ t ∈ ss, t.IsIdle := by
  intro t ht
  cases t with
  | change xs =>
    have hm : Mark.change ∈ marks ss := List.mem_filterMap.mpr ⟨_, ht, rfl⟩
    exact absurd hm h
  | before | after | other _ => trivial

/-- From the announcement on, changes are taken back, up to where the change is said to be
    done. -/
theorem undone_of_announced (hf : f.Tidy) (hfr : f.Readable) (hne : f.leaves ≠ [])
    (hss : ∀ t ∈ ss, ∀ xs, t = .change xs → ∀ x ∈ xs, x.Sound)
    (horder : Mark.change ∉ (marks ss).dropWhile (· ≠ .after)) {g : Frame} (hg : g.Tidy)
    (hgr : g.Readable) :
    (({ table := g, record := ({} : SlotRecord).announce f } : SlotState).steps l e name ss).undone
      = f := by
  have hrecord : (({} : SlotRecord).announce f).seen ≠ [] := by
    intro hnil
    exact hne (List.map_eq_nil_iff.mp hnil)
  have hnew (g : Frame) : (({} : SlotRecord).announce f).seen ++
      (({} : SlotRecord).announce f).missed g = Frame.announced f g := by
    have hmap : (({} : SlotRecord).announce f).seen.map (·.1) = f.leaves.map (·.1) :=
      List.map_map
    have hwatched : (({} : SlotRecord).announce f).watches ≠ 0 := Nat.one_ne_zero
    unfold SlotRecord.missed Frame.announced
    rw [if_neg hwatched, hmap]
    rfl
  induction ss generalizing g with
  | nil =>
    have hundone : (⟨g, ({} : SlotRecord).announce f⟩ : SlotState).undone =
        (g.undoPatches _).foldl Frame.apply g := undone_of_pending rfl
    exact hundone.trans ((congrArg (fun seen => (g.undoPatches seen).foldl Frame.apply g)
      (hnew g)).trans (Frame.undo_announced hf hfr hg hgr))
  | cons t rest ih =>
    have hrest : ∀ u ∈ rest, ∀ xs, u = .change xs → ∀ x ∈ xs, x.Sound :=
      fun u hu => hss u (List.mem_cons_of_mem t hu)
    cases t with
    | other c => exact ih hrest horder hg hgr
    | before =>
      rw [steps_before_of_seen hrecord]
      exact ih hrest horder hg hgr
    | change xs =>
      obtain ⟨hg', hgr'⟩ := SlotEdit.tidy_applyAll (hss _ List.mem_cons_self xs rfl) hg hgr
      exact ih hrest horder hg' hgr'
    | after =>
      have hstep : step l e name { table := g, record := ({} : SlotRecord).announce f } .after =
          { table := g, record := { seen := Frame.announced f g, last := some g } } := by
        show (⟨g, (({} : SlotRecord).announce f).finish l e name g⟩ : SlotState) = _
        rw [SlotRecord.finish_of_seen hrecord, hnew]
        rfl
      have hidle : ∀ u ∈ rest, u.IsIdle := by
        refine isIdle_of_marks fun hm => horder ?_
        show Mark.change ∈ List.dropWhile _ (.after :: marks rest)
        rw [List.dropWhile_cons_of_neg (by simp)]
        exact List.mem_cons_of_mem _ hm
      have hseen : Frame.announced f g ≠ [] := by
        rw [← hnew]
        exact fun hnil => hrecord (List.append_eq_nil_iff.mp hnil).1
      obtain ⟨htable, hkept, hmissed, hlast⟩ := steps_idle l e name
        (s := { table := g, record := { seen := Frame.announced f g, last := some g } }) hseen
        (SlotRecord.missed_eq_nil.mpr (Or.inl rfl)) hidle
      show (SlotState.steps l e name (step l e name _ .after) rest).undone = f
      rw [hstep, undone_of_missed (by rw [htable]; exact hmissed), htable, hkept,
        hlast.elim id id]
      exact Frame.undo_announced hf hfr hg hgr

end SlotState

/-! ### Tables that were empty -/

/-- What a stage says of a table and its record. -/
inductive Stage.Describes : Stage → SlotState → Prop where
  | quiet {n : Nat} {filled : Bool} {s : SlotState} (seen : s.record.seen = [])
      (watches : s.record.watches = n) (empty : s.table.isEmpty = !filled) :
      Describes (.quiet n filled) s
  | recorded {n : Nat} {lost changed : Bool} {s : SlotState} {h : Frame} (seen : s.record.seen ≠ [])
      (watches : s.record.watches = n) (last : s.record.last = some h)
      (absent : ∀ x ∈ s.record.seen, x.2 = .absent ∧ ∃ ns, Frame.Named ns ∧ x.1 = Frame.pathOf ns)
      (still : changed = false → s.table = h ∧ ∀ x ∈ s.table.leaves, x.1 ∈ s.record.seen.map (·.1))
      (watched : changed = true → 0 < n)
      (there : lost = false → ∀ x ∈ s.record.seen, h.seenAt x.1 ≠ .absent) :
      Describes (.recorded n lost changed) s

theorem Stage.Describes.seen_ne_nil {n : Nat} {lost changed : Bool} {s : SlotState}
    (h : (Stage.recorded n lost changed).Describes s) : s.record.seen ≠ [] := by
  cases h with
  | recorded seen => exact seen

namespace SlotState

variable {e : Entity} {name : String} {ss : List (SlotStep P)} {s : SlotState}

theorem exists_names_of_mem_leaves {g : Frame} (hg : g.Tidy) {x : String × Slot}
    (hx : x ∈ g.leaves) : ∃ ns, Frame.Named ns ∧ x.1 = Frame.pathOf ns ∧
      g.leafAt ns = some x.2 ∧ g.seenAt x.1 ≠ .absent := by
  obtain ⟨ns, hpath, hleaf⟩ := Frame.exists_leafAt_of_mem_leaves hg hx
  have hns := Frame.named_of_leafAt hg hleaf
  refine ⟨ns, hns, hpath, hleaf, ?_⟩
  rw [hpath, Frame.seenAt_of_some hns (Frame.getAt_of_leafAt hleaf)]
  exact fun heq => nomatch heq

/-- A record of a table that was empty gives it back, if every leaf that is there in the
    end is found or was there when the values after were filled in. -/
theorem undone_eq_empty (hg : s.table.Tidy)
    (habsent : ∀ x ∈ s.record.seen, x.2 = .absent ∧ ∃ ns, Frame.Named ns ∧ x.1 = Frame.pathOf ns)
    (hfound : ∀ x ∈ s.table.leaves, x.1 ∉ s.record.seen.map (·.1) → s.record.watches ≠ 0)
    (hthere : ∀ x ∈ s.table.leaves, x.1 ∈ s.record.seen.map (·.1) →
      (s.record.last.getD s.table).seenAt x.1 ≠ .absent) : s.undone = .empty := by
  have hdelete {y : String × Capture} (hy : y.2 = .absent) {ns : List String} (hns : Frame.Named ns)
      (hpath : y.1 = Frame.pathOf ns) : Frame.patch? y.1 y.2 = some (ns, none) := by
    rw [hy, hpath, Frame.patch?_absent hns]
  unfold undone SlotRecord.undone
  rw [← List.foldl_append]
  refine Frame.foldl_delete_eq_empty hg ?_ ?_
  -- All patches delete.
  · intro x hx
    rcases List.mem_append.mp hx with hx | hx
    · obtain ⟨y, hy, _, hpatch⟩ := Frame.mem_undoPatches.mp hx
      obtain ⟨_, hnone, z, hz, _, hpath⟩ := SlotRecord.mem_missed.mp hy
      obtain ⟨ns, hns, hzpath, _⟩ := exists_names_of_mem_leaves hg hz
      cases (hdelete hnone hns (hpath.trans hzpath)).symm.trans hpatch
      exact ⟨rfl, hns.1⟩
    · obtain ⟨y, hy, _, hpatch⟩ := Frame.mem_undoPatches.mp hx
      obtain ⟨hnone, ns, hns, hpath⟩ := habsent y hy
      cases (hdelete hnone hns hpath).symm.trans hpatch
      exact ⟨rfl, hns.1⟩
  -- Every leaf is reached.
  · intro ns t hleaf
    have hns := Frame.named_of_leafAt hg hleaf
    have hmem := Frame.mem_leaves_of_leafAt hg hleaf
    refine ⟨(ns, none), ?_, List.prefix_refl ns⟩
    by_cases hseen : Frame.pathOf ns ∈ s.record.seen.map (·.1)
    · obtain ⟨y, hy, hpath⟩ := List.mem_map.mp hseen
      obtain ⟨hnone, _⟩ := habsent y hy
      refine List.mem_append_right _ (Frame.mem_undoPatches.mpr
        ⟨y, hy, ?_, hdelete hnone hns hpath⟩)
      rw [hnone, hpath]
      exact (hthere _ hmem hseen).symm
    · have hy : (Frame.pathOf ns, Capture.absent) ∈ s.record.missed s.table :=
        SlotRecord.mem_missed.mpr ⟨hfound _ hmem hseen, rfl, _, hmem, hseen, rfl⟩
      refine List.mem_append_left _ (Frame.mem_undoPatches.mpr ⟨_, hy, ?_, hdelete rfl hns rfl⟩)
      rw [Frame.seenAt_of_some hns (Frame.getAt_of_leafAt hleaf)]
      exact fun heq => nomatch heq

/-- At the end of a safe order, undo gives back the empty table. -/
theorem undone_of_safe_nil {stage : Stage} {known : Bool} (hg : s.table.Tidy)
    (hd : stage.Describes s) (hsafe : stage.safe known [] = true)
    (hunwatched : s.record.seen = [] → s.record.watches = 0 → s.table = .empty) :
    s.undone = .empty := by
  cases hd with
  | quiet seen watches empty =>
    refine undone_eq_empty hg ?_ ?_ ?_
    · intro x hx
      rw [seen] at hx
      cases hx
    · intro x hx _ hw
      rw [hunwatched seen hw] at hx
      cases hx
    · intro x _ hx
      rw [seen] at hx
      cases hx
  | @recorded n lost changed _ h seen watches last absent still watched there =>
    refine undone_eq_empty hg absent ?_ ?_
    · intro x hx hnew
      cases changed with
      | false => exact absurd ((still rfl).2 x hx) hnew
      | true =>
        have hpos := watched rfl
        omega
    · intro x hx hold
      rw [last]
      show h.seenAt x.1 ≠ .absent
      cases changed with
      | false =>
        rw [← (still rfl).1]
        obtain ⟨_, _, _, _, hat⟩ := exists_names_of_mem_leaves hg hx
        exact hat
      | true =>
        have hlost : lost = false := by simpa [Stage.safe] using hsafe
        obtain ⟨y, hy, hpath⟩ := List.mem_map.mp hold
        rw [← hpath]
        exact there hlost y hy

/-! ### The steps -/

section Steps

variable {b : Book P} {p : Param P} {n : Nat} {filled lost changed known : Bool} {ms : List Mark}

theorem mem_paths_seenBefore (l : UndoLog P) (e : Entity) (name : String) (g : Frame)
    (path : String) :
    path ∈ (Book.seenBefore l e name .empty g).map (·.1) ↔
      path ∈ g.leaves.map (·.1) ∨ path ∈ l.knownPaths e name := by
  have hpaths : (Book.seenBefore l e name .empty g).map (·.1) =
      UndoLog.sortPaths (g.leaves.map (·.1) ++ l.knownPaths e name) := by
    unfold Book.seenBefore
    rw [if_pos (show Frame.empty.isEmpty = true from rfl), List.map_map]
    exact List.map_id _
  rw [hpaths, UndoLog.mem_sortPaths, List.mem_append]

theorem seenBefore_eq_nil {l : UndoLog P} {g : Frame} :
    Book.seenBefore l e name .empty g = [] ↔ g.leaves = [] ∧ l.knownPaths e name = [] := by
  have hpaths := mem_paths_seenBefore l e name g
  constructor
  · intro hnil
    rw [hnil] at hpaths
    constructor
    · refine List.eq_nil_iff_forall_not_mem.mpr fun x hx => ?_
      exact List.not_mem_nil ((hpaths x.1).mpr (Or.inl (List.mem_map_of_mem hx)))
    · refine List.eq_nil_iff_forall_not_mem.mpr fun path hm => ?_
      exact List.not_mem_nil ((hpaths path).mpr (Or.inr hm))
  · intro hnone
    rw [hnone.1, hnone.2] at hpaths
    have hnil : (Book.seenBefore l e name .empty g).map (·.1) = [] :=
      List.eq_nil_iff_forall_not_mem.mpr fun path hm =>
        ((hpaths path).mp hm).elim List.not_mem_nil List.not_mem_nil
    exact List.map_eq_nil_iff.mp hnil

/-- Announcing a table that is still empty leaves a watch. -/
theorem describes_before (hd : (Stage.quiet n filled).Describes s)
    (hsafe : (Stage.quiet n filled).safe known (.before :: ms) = true) :
    (Stage.quiet (n + 1) false).Describes { s with record := s.record.announce s.table } ∧
      (Stage.quiet (n + 1) false).safe known ms = true := by
  cases hd with
  | quiet seen watches empty =>
    obtain ⟨hfilled, hrest⟩ := Bool.and_eq_true_iff.mp hsafe
    have hempty : s.table = .empty := Frame.isEmpty_iff.mp (empty.trans hfilled)
    have hrecord : s.record.announce s.table = { seen := [], watches := n + 1 } := by
      unfold SlotRecord.announce
      rw [seen, if_pos (show ([] : List (String × Capture)).isEmpty = true from rfl), watches, hempty]
      rfl
    refine ⟨?_, hrest⟩
    rw [hrecord]
    exact .quiet rfl rfl (by rw [hempty]; rfl)

/-- If nothing is recorded when the change is said to be done, everything that the log
    knows of and everything that is there counts as absent before. -/
theorem describes_unannounced (hg : s.table.Tidy)
    (hlog : ∀ op ∈ b.undo.past, Book.PathsNamed op.entries e p.name)
    (hvalues : ∀ path v, b.undo.lastKnown e p.name (some path) ≠ some (.value v))
    (hd : (Stage.quiet n filled).Describes s)
    (hsafe : (Stage.quiet n filled).safe (!(b.undo.knownPaths e p.name).isEmpty) (.after :: ms) =
      true) :
    ∃ stage : Stage, stage.Describes
        { s with record := s.record.finish b.undo e p.name s.table } ∧
      stage.safe (!(b.undo.knownPaths e p.name).isEmpty) ms = true ∧
      ((s.record.finish b.undo e p.name s.table).seen = [] →
        (s.record.finish b.undo e p.name s.table).watches = s.record.watches) := by
  cases hd with
  | quiet seen watches empty =>
    rw [SlotRecord.finish_of_unseen seen]
    have hpaths := mem_paths_seenBefore b.undo e p.name s.table
    by_cases hsome : (filled || !(b.undo.knownPaths e p.name).isEmpty) = true
    · refine ⟨.recorded n (!(b.undo.knownPaths e p.name).isEmpty) false, ?_, ?_, fun _ => rfl⟩
      · refine .recorded (h := s.table) ?_ watches rfl ?_ ?_ ?_ ?_
        -- There is a leaf, or else a path that the log knows.
        · intro hnil
          obtain ⟨hleaves, hknown⟩ := seenBefore_eq_nil.mp hnil
          rw [hknown] at hsome
          have hfilled : filled = true := by simpa using hsome
          rw [hfilled] at empty
          exact Book.HasTable.leaves_ne_nil hg empty hleaves
        · intro x hx
          exact ⟨Book.absent_of_mem_seenBefore hvalues hx,
            Book.named_of_mem_seenBefore (show Frame.empty.Tidy from trivial) hg hlog hx⟩
        · intro _
          exact ⟨rfl, fun x hx => (hpaths x.1).mpr (Or.inl (List.mem_map_of_mem hx))⟩
        · intro h
          cases h
        · intro hunknown x hx
          have hnone : b.undo.knownPaths e p.name = [] := by simpa using hunknown
          have hmem := (hpaths x.1).mp (List.mem_map_of_mem hx)
          rw [hnone] at hmem
          obtain ⟨y, hy, hpath⟩ := List.mem_map.mp (hmem.resolve_right List.not_mem_nil)
          rw [← hpath]
          obtain ⟨_, _, _, _, hat⟩ := exists_names_of_mem_leaves hg hy
          exact hat
      · unfold Stage.safe at hsafe
        rwa [if_pos hsome] at hsafe
    · refine ⟨.quiet n false, ?_, ?_, fun _ => rfl⟩
      · obtain ⟨hfilled, hknown⟩ := Bool.or_eq_false_iff.mp (Bool.eq_false_iff.mpr hsome)
        rw [hfilled] at empty
        have hempty : s.table = .empty := Frame.isEmpty_iff.mp empty
        have hnone : b.undo.knownPaths e p.name = [] := by simpa using hknown
        exact .quiet (seenBefore_eq_nil.mpr ⟨by rw [hempty]; rfl, hnone⟩) watches empty
      · unfold Stage.safe at hsafe
        rwa [if_neg hsome] at hsafe

/-- New slots are found when the change is said to be done, and all of them are there. -/
theorem describes_after (l : UndoLog P) (e : Entity) (name : String) (hg : s.table.Tidy)
    (hd : (Stage.recorded n lost changed).Describes s) :
    (Stage.recorded (n - 1) (lost || changed) false).Describes
      { s with record := s.record.finish l e name s.table } := by
  cases hd with
  | @recorded _ _ _ _ h seen watches last absent still watched there =>
    rw [SlotRecord.finish_of_seen seen]
    refine .recorded (h := s.table) ?_ (congrArg (· - 1) watches) rfl ?_ ?_ ?_ ?_
    · exact fun hnil => seen (List.append_eq_nil_iff.mp hnil).1
    · intro x hx
      rcases List.mem_append.mp hx with hx | hx
      · exact absent x hx
      · obtain ⟨_, hnone, y, hy, _, hpath⟩ := SlotRecord.mem_missed.mp hx
        obtain ⟨ns, hns, hnames, _⟩ := exists_names_of_mem_leaves hg hy
        exact ⟨hnone, ns, hns, hpath.trans hnames⟩
    · intro _
      refine ⟨rfl, fun x hx => ?_⟩
      show x.1 ∈ (s.record.seen ++ s.record.missed s.table).map (·.1)
      rw [List.map_append]
      by_cases hold : x.1 ∈ s.record.seen.map (·.1)
      · exact List.mem_append_left _ hold
      · refine List.mem_append_right _ ?_
        have hw : s.record.watches ≠ 0 := by
          cases changed with
          | false => exact absurd ((still rfl).2 x hx) hold
          | true =>
            have hpos := watched rfl
            omega
        exact List.mem_map.mpr
          ⟨(x.1, .absent), SlotRecord.mem_missed.mpr ⟨hw, rfl, x, hx, hold, rfl⟩, rfl⟩
    · intro h
      cases h
    · intro hkept x hx
      obtain ⟨hlost, hsame⟩ := Bool.or_eq_false_iff.mp hkept
      rcases List.mem_append.mp hx with hx | hx
      · rw [(still hsame).1]
        exact there hlost x hx
      · obtain ⟨_, _, y, hy, _, hpath⟩ := SlotRecord.mem_missed.mp hx
        obtain ⟨_, _, _, _, hat⟩ := exists_names_of_mem_leaves hg hy
        rw [hpath]
        exact hat

/-- A watched table may be changed once something is recorded. -/
theorem describes_change (hd : (Stage.recorded n lost changed).Describes s) (hn : 0 < n)
    (g : Frame) : (Stage.recorded n lost true).Describes { s with table := g } := by
  cases hd with
  | recorded seen watches last absent still watched there =>
    refine .recorded seen watches last absent ?_ (fun _ => hn) there
    intro h
    cases h

/-- Undo of an operation whose order is safe gives back the empty table. -/
theorem undone_of_safe {stage : Stage}
    (hlog : ∀ op ∈ b.undo.past, Book.PathsNamed op.entries e p.name)
    (hss : ∀ t ∈ ss, ∀ xs, t = .change xs → ∀ x ∈ xs, x.Sound)
    (hvalues : Mark.after ∈ marks ss →
      ∀ path v, b.undo.lastKnown e p.name (some path) ≠ some (.value v))
    (hg : s.table.Tidy) (hgr : s.table.Readable) (hd : stage.Describes s)
    (hsafe : stage.safe (!(b.undo.knownPaths e p.name).isEmpty) (marks ss) = true)
    (hunwatched : s.record.seen = [] → s.record.watches = 0 →
      s.table = .empty ∧ Mark.change ∉ (marks ss).takeWhile (· ≠ .before)) :
    (s.steps b.undo e p.name ss).undone = .empty := by
  induction ss generalizing s stage with
  | nil => exact undone_of_safe_nil hg hd hsafe fun hseen hw => (hunwatched hseen hw).1
  | cons t rest ih =>
    have hrest : ∀ u ∈ rest, ∀ xs, u = .change xs → ∀ x ∈ xs, x.Sound :=
      fun u hu => hss u (List.mem_cons_of_mem t hu)
    cases t with
    | other c => exact ih hrest hvalues hg hgr hd hsafe hunwatched
    | before =>
      have hvalues' := fun hm => hvalues (List.mem_cons_of_mem _ hm)
      cases stage with
      | quiet n filled =>
        obtain ⟨hd', hsafe'⟩ := describes_before hd hsafe
        refine ih hrest hvalues' hg hgr hd' hsafe' ?_
        intro _ hw
        cases hd' with
        | quiet _ watches _ => cases watches.symm.trans hw
      | recorded n lost changed =>
        rw [steps_before_of_seen hd.seen_ne_nil]
        exact ih hrest hvalues' hg hgr hd hsafe fun hnil => absurd hnil hd.seen_ne_nil
    | after =>
      have hvalues' := fun hm => hvalues (List.mem_cons_of_mem _ hm)
      cases stage with
      | quiet n filled =>
        obtain ⟨stage', hd', hsafe', hwatches⟩ :=
          describes_unannounced hg hlog (hvalues List.mem_cons_self) hd hsafe
        refine ih hrest hvalues' hg hgr hd' hsafe' ?_
        intro hseen hw
        have hnone : s.record.seen = [] := by
          cases hd with
          | quiet seen => exact seen
        obtain ⟨hempty, horder⟩ := hunwatched hnone ((hwatches hseen).symm.trans hw)
        refine ⟨hempty, fun hm => horder ?_⟩
        show Mark.change ∈ List.takeWhile _ (.after :: marks rest)
        rw [List.takeWhile_cons_of_pos (by simp)]
        exact List.mem_cons_of_mem _ hm
      | recorded n lost changed =>
        have hd' := describes_after b.undo e p.name hg hd
        exact ih hrest hvalues' hg hgr hd' hsafe fun hnil => absurd hnil hd'.seen_ne_nil
    | change xs =>
      obtain ⟨hg', hgr'⟩ := SlotEdit.tidy_applyAll (hss _ List.mem_cons_self xs rfl) hg hgr
      have hvalues' := fun hm => hvalues (List.mem_cons_of_mem _ hm)
      cases stage with
      | quiet n filled =>
        -- A table that is not watched is not changed.
        have hwatched (hseen : s.record.seen = []) : s.record.watches ≠ 0 := by
          intro hw
          refine (hunwatched hseen hw).2 ?_
          show Mark.change ∈ List.takeWhile _ (.change :: marks rest)
          rw [List.takeWhile_cons_of_pos (by simp)]
          exact List.mem_cons_self
        obtain ⟨hempty, hfull⟩ := Bool.and_eq_true_iff.mp hsafe
        cases hd with
        | quiet seen watches empty =>
          have hd' : (Stage.quiet n !(SlotEdit.applyAll xs s.table).isEmpty).Describes
              { s with table := SlotEdit.applyAll xs s.table } :=
            .quiet seen watches (Bool.not_not _).symm
          refine ih hrest hvalues' hg' hgr' hd' ?_ fun hseen hw => absurd hw (hwatched hseen)
          cases (SlotEdit.applyAll xs s.table).isEmpty with
          | true => exact hempty
          | false => exact hfull
      | recorded n lost changed =>
        obtain ⟨hn, hsafe'⟩ := Bool.and_eq_true_iff.mp hsafe
        have hd' := describes_change hd (of_decide_eq_true hn) (SlotEdit.applyAll xs s.table)
        exact ih hrest hvalues' hg' hgr' hd' hsafe' fun hnil => absurd hnil hd'.seen_ne_nil

end Steps

end SlotState

end EntityBook
