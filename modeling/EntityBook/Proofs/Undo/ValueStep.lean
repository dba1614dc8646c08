import EntityBook.Proofs.Run.Representation
import EntityBook.Proofs.Undo.ValueRecord

/-! # Steps of an operation on a value

  What recording and changing a value, making and deleting its entity and recording other
  parameters make of what the open operation holds of the value: each step takes the record
  from the phase before it to the phase after it.
-/

namespace EntityBook

variable {P : PayloadFamily}

namespace Book

/-- The open operation traces a value. -/
def IsTraced (b : Book P) (e : Entity) (p : Param P) (first : Option ParamValue) (ph : Phase) :
    Prop := ∃ o, b.undo.recording = some o ∧ b.Traces e p first ph o

section Open

variable {b b' : Book P} {e : Entity} {p q : Param P} {first : Option ParamValue} {ph ph' : Phase}
  {o o' : OpenOperation P} {v v' : ParamValue} {name : String}

/-- Replacing the open operation changes nothing else. -/
theorem IsTraced.setRecording (h : b.Traces e p first ph o) :
    (b.setRecording (some o)).IsTraced e p first ph := by
  refine ⟨o, rfl, ?_⟩
  exact h.congr rfl ⟨rfl, rfl, rfl, rfl⟩ rfl rfl

/-! ### Other parameters -/

theorem fits_of_mem_captured {cl : ObjectClass P} (hcl : b.registry.find? e.typeTag = some cl)
    (hq : q ∈ cl.copyable) {i : Instance P} (hb : b.WellFormed) (hi : b.get? e = some i)
    {after : Capture → Capture} {c : Change P} (hc : c ∈ captured e q after (valueOf i q)) :
    ∃ cl, b.registry.find? c.entity.typeTag = some cl ∧ c.Fits cl := by
  obtain ⟨hce, hparam, _, _, hm⟩ := mem_captured hc
  have hkind := Instance.hasKind_value (hb.exists_value hi hcl hq)
  refine ⟨cl, hce ▸ hcl, hparam ▸ hq, ?_⟩
  rw [hparam]
  exact isSome_path_of_mem_captures hkind hm

/-- A snapshot of another parameter. -/
theorem others_snapshots (hw : b.Watches e p) (hq : b.undoableParam e name = .ok q)
    (hname : name ≠ p.name) {i : Instance P} (hi : b.get? e = some i)
    {after : Capture → Capture} {more : List (UndoEntry P)}
    (hmore : snapshots e i after [q] = .ok more) : b.Others e p more := by
  obtain ⟨cl, hcl, hmem, hfind⟩ := undoableParam_eq_ok.mp hq
  have hqname : q.name = name := ObjectClass.name_of_param? hfind
  have hvalues : ∀ r ∈ [q], i.value? r.accessor = some (valueOf i r) := by
    intro r hr
    cases List.mem_singleton.mp hr
    exact hw.steady.wellFormed.exists_value hi hcl hmem
  rw [snapshots_eq e i after hvalues] at hmore
  cases hmore
  intro u hu
  obtain ⟨r, hr, c, hc, rfl⟩ := mem_snapshotOf hu
  cases List.mem_singleton.mp hr
  obtain ⟨hce, hparam, _⟩ := mem_captured hc
  refine ⟨c, rfl, hce, ?_, fits_of_mem_captured hcl hmem hw.steady.wellFormed hi hc⟩
  rw [hparam, hqname]
  exact hname

/-- New slots of a side-table of the entity. -/
theorem others_newSlots (hw : b.Watches e p) (entries : List (UndoEntry P)) (hq : q.isSlots = true)
    {cl : ObjectClass P} (hcl : b.registry.find? e.typeTag = some cl) (hmem : q ∈ cl.copyable) :
    b.Others e p (b.newSlots entries e q) := by
  intro u hu
  unfold newSlots at hu
  split at hu
  · cases hu
  · obtain ⟨x, _, rfl⟩ := List.mem_map.mp hu
    refine ⟨_, rfl, rfl, ?_, cl, hcl, hmem, hq.symm⟩
    intro hname
    obtain ⟨cl', hcl', hp, hwf, _⟩ := hw.exists_class
    cases hcl'.symm.trans hcl
    -- Names are unique, and the parameter is no side-table.
    have hqp : q = p := ObjectClass.eq_of_name_eq hwf (ObjectClass.mem_params_of_mem_copyable hmem)
      (ObjectClass.mem_params_of_mem_copyable hp) hname
    rw [hqp, hw.value] at hq
    cases hq

/-- Entries for another parameter that was not announced. -/
theorem others_unannounced (hq : b.undoableParam e name = .ok q)
    (hname : name ≠ p.name) {i : Instance P} {current : List (Option String × Capture)}
    (hcurrent : snapshot i q = .ok current) : b.Others e p (b.unannounced e q name current) := by
  obtain ⟨cl, hcl, hmem, hfind⟩ := undoableParam_eq_ok.mp hq
  have hqname : q.name ≠ p.name := by
    rw [ObjectClass.name_of_param? hfind]
    exact hname
  intro u hu
  obtain ⟨path, hpath, rfl⟩ := List.mem_map.mp hu
  refine ⟨_, rfl, rfl, hqname, cl, hcl, hmem, ?_⟩
  show path.isSome = q.isSlots
  -- The side-table has entries at paths only, any other parameter has none at a path.
  cases hs : q.isSlots with
  | false =>
    obtain ⟨s, rfl⟩ := snapshot_value hs hcurrent
    rw [hs] at hpath
    cases List.mem_singleton.mp hpath
    rfl
  | true =>
    have hsome : ∀ c ∈ current, c.1.isSome = true := by
      unfold snapshot at hcurrent
      rw [if_pos hs] at hcurrent
      cases hcurrent
      intro c hc
      obtain ⟨x, _, rfl⟩ := List.mem_map.mp hc
      rfl
    have hnone : (current.any fun c => c.1.isNone) = false := by
      refine List.any_eq_false.mpr ?_
      intro c hc
      have := hsome c hc
      cases hc1 : c.1 with
      | none => simp [hc1] at this
      | some _ => simp
    rw [hnone] at hpath
    simp only [Bool.false_eq_true, if_false, List.nil_append] at hpath
    obtain ⟨s, _, rfl⟩ := List.mem_map.mp hpath
    rfl

/-- Once it is prepared to record another parameter, the open operation still traces the value. -/
theorem Traces.prepared (h : b.Traces e p first ph o) (hw : b.Watches e p)
    (ho : b.undo.recording = some o) {o₁ : OpenOperation P} (ready : b.Prepares e name q o₁ o') :
    b.Traces e p first ph o' := by
  cases (recording?_eq_some ready.recording).symm.trans ho
  exact (h.ensureBaseline hw ready.baseline).1

/-- Announcing another parameter. -/
theorem IsTraced.recordBefore_of_ne (h : b.IsTraced e p first ph) (hw : b.Watches e p)
    (hname : name ≠ p.name) : (b.recordBefore e name).2.IsTraced e p first ph := by
  obtain ⟨o, ho, ht⟩ := h
  have hrecords := b.recordsBefore e name
  generalize b.recordBefore e name = out at hrecords
  cases hrecords with
  | idle | unknown | unprepared => exact ⟨o, ho, ht⟩
  | again ready | gone ready | unread ready => exact .setRecording (ht.prepared hw ho ready)
  | @first q _ o' i _ ready _ live seen =>
    have ht' := ht.prepared hw ho ready
    have hothers := others_snapshots hw ready.param hname live seen
    obtain ⟨cl, hcl, hmem, _⟩ := undoableParam_eq_ok.mp ready.param
    refine IsTraced.setRecording (b := b) (ht'.append_others hothers ?_)
    intro w hmem'
    rcases List.mem_append.mp hmem' with hold | hnew
    · exact Or.inl hold
    · cases hs : q.isSlots with
      | false => simp [hs] at hnew
      | true =>
        rw [hs, if_pos rfl] at hnew
        cases List.mem_singleton.mp hnew
        exact Or.inr ⟨hs, cl, hcl, hmem⟩

/-- Filling in the present values of another parameter. The new slots are those of a table
    that is watched. -/
theorem Traces.fillIn_of_ne (h : b.Traces e p first ph o) (hw : b.Watches e p) (q : Param P)
    (hname : name ≠ p.name) : b.Traces e p first ph (b.fillIn o e q name) := by
  have hnew : b.Others e p (b.watchedSlots o e name) := by
    intro u hu
    obtain ⟨r, hmem, _, hslots⟩ := mem_watchedSlots hu
    obtain ⟨hs, cl, hcl, hr⟩ := h.watched _ hmem rfl
    exact others_newSlots hw _ hs hcl hr u hslots
  have happend := h.append_others hnew (fun (_ : Entity × Param P) hw => Or.inl hw)
  refine happend.beside ?_ ?_ ?_ ?_
  · exact Recorded.cell_refresh_of_ne _ _ q fun hboth => hname hboth.2.symm
  · refine Recorded.mem_map_refresh ?_
    intro c hc
    cases hc
  · rw [filter_entity_map (entity_refresh _ e q name)]
    exact Recorded.fitEntries_refresh _ happend.fits e q name
  · intro w hw
    exact Or.inl (List.mem_of_mem_eraseP hw)

/-- Filling in what is recorded of another parameter. -/
theorem IsTraced.recordAfter_of_ne (h : b.IsTraced e p first ph) (hw : b.Watches e p)
    (hname : name ≠ p.name) : (b.recordAfter e name).2.IsTraced e p first ph := by
  obtain ⟨o, ho, ht⟩ := h
  have hrecords := b.recordsAfter e name
  generalize b.recordAfter e name = out at hrecords
  cases hrecords with
  | idle | unknown | unprepared => exact ⟨o, ho, ht⟩
  | gone ready | unread ready => exact .setRecording (ht.prepared hw ho ready)
  | filled ready => exact .setRecording ((ht.prepared hw ho ready).fillIn_of_ne hw _ hname)
  | unannounced ready _ _ seen =>
    have hothers := others_unannounced ready.param hname seen
    exact IsTraced.setRecording (b := b)
      ((ht.prepared hw ho ready).append_others hothers fun w hw => Or.inl hw)

/-! ### Changing the value -/

/-- A step that records nothing takes the record to another phase if what it holds of the
    value is what it holds in that phase. -/
theorem Traces.toPhase (h : b.Traces e p first ph o) (hset : b.SameSetup b')
    (hcursor : b'.undo.cursor = b.undo.cursor)
    (hholding : b.Holding e p first ph' (b'.value? e p) (cell o.entries e p.name))
    (hgone : (ph' = .doomed ∨ ph' = .gone) ↔ (ph = .doomed ∨ ph = .gone))
    (hph : ph' ≠ .unrecorded → ph ≠ .unrecorded) : b'.Traces e p first ph' o where
  holding := hholding.of_setup hset
  deleted := h.deleted.trans hgone.symm
  fits := h.fits.of_setup hset
  watched := by
    rw [hset.registry]
    exact h.watched
  changes := h.changes
  baselineFits := h.baselineFits.of_setup hset
  baseline hne := (h.baseline (hph hne)).imp_right fun hone => by
    obtain ⟨v, hv, hrest⟩ := hone
    exact ⟨v, hv.of_setup hset, hrest⟩
  idle := hcursor ▸ h.idle
  covered := hcursor ▸ h.covered

/-- Another value, of which nothing is recorded. -/
theorem Traces.change (h : b.Traces e p first ph o) (hset : b.SameSetup b')
    (hundo : b'.undo = b.undo) (hv' : b'.value? e p = some v') (hph : ph.change? = some ph') :
    b'.Traces e p first ph' o := by
  have hcursor : b'.undo.cursor = b.undo.cursor := by rw [hundo]
  have hholding := h.holding
  generalize hcs : cell o.entries e p.name = cs at hholding
  generalize b.value? e p = w at hholding
  cases hholding with
  | away | assumed | doomed | gone => cases hph
  | untouched | unrecorded =>
    cases hph
    exact h.toPhase hset hcursor (by rw [hv', hcs]; exact .unrecorded v') (by simp) (by simp)
  | announced _ opens after =>
    cases hph
    exact h.toPhase hset hcursor (by rw [hv', hcs]; exact .announced v' opens after) (by simp)
      (by simp)
  | recorded opens after =>
    cases hph
    exact h.toPhase hset hcursor
      (by rw [hv', hcs]; exact .outdated v' opens (by rw [after]; simp)) (by simp) (by simp)
  | outdated _ opens after =>
    cases hph
    exact h.toPhase hset hcursor (by rw [hv', hcs]; exact .outdated v' opens after) (by simp)
      (by simp)

/-! ### Recording the value -/

/-- Entries of the entity that are not about the value. -/
theorem mem_deleted_concat {entries : List (UndoEntry P)} {c : Change P} :
    UndoEntry.deleted e ∈ entries ++ [.changed c] ↔ UndoEntry.deleted e ∈ entries := by
  refine mem_append_of_not_mem ?_
  intro hm
  cases List.mem_singleton.mp hm

theorem cell_own {c : Change P} (hc : c.entity = e) (hp : c.param = p) :
    cell [.changed c] e p.name = [c] := by
  simp [cell, UndoEntry.change?, hc, hp]

/-- The first entry about the value. -/
theorem Traces.append_first (h : b.Traces e p first ph o) (hw : b.Watches e p)
    (hnil : cell o.entries e p.name = []) {c : Change P}
    (hown : c.entity = e ∧ c.param = p ∧ c.path = none)
    (hholding : b.Holding e p first ph' (b.value? e p) [c]) (hthere : ph' ≠ .doomed ∧ ph' ≠ .gone)
    (hbare : ph.isBare = true) (hcovered : b.undo.cursor = 0 → ∃ u ∈ o.baseline, u.entity = e)
    (hbaseline : ph = .unrecorded → 0 < b.undo.cursor) :
    b.Traces e p first ph' { o with entries := o.entries ++ [.changed c] } where
  holding := by
    rw [cell_append, hnil, List.nil_append, cell_own hown.1 hown.2.1]
    exact hholding
  deleted := by
    refine mem_deleted_concat.trans (h.deleted.trans ?_)
    have hph : ¬ (ph = .doomed ∨ ph = .gone) := by
      rintro (rfl | rfl)
      · cases hbare
      · cases hbare
    simp [hph, hthere]
  fits := by
    obtain ⟨cl, hcl, hp, _⟩ := hw.exists_class
    rw [List.filter_append]
    refine h.fits.append (FitEntries.filter ?_ _)
    intro d hd
    cases List.mem_singleton.mp hd
    obtain ⟨hentity, hparam, hpath⟩ := hown
    refine ⟨cl, hentity ▸ hcl, hparam ▸ hp, ?_⟩
    rw [hpath, hparam, hw.value]
    rfl
  watched := h.watched
  changes := h.changes
  baselineFits := h.baselineFits
  baseline := by
    intro _
    by_cases hph : ph = .unrecorded
    · exact Or.inl (h.idle (hbaseline hph))
    · exact h.baseline hph
  idle := h.idle
  covered := by
    intro hzero _ _ _
    exact hcovered hzero

/-- In all phases but two the entity is there. -/
theorem Traces.exists_get? (h : b.Traces e p first ph o) (hw : b.Watches e p)
    (hph : ph ≠ .away ∧ ph ≠ .gone) : ∃ i, b.get? e = some i := by
  have hholding := h.holding
  cases hi : b.get? e with
  | some i => exact ⟨i, rfl⟩
  | none =>
    rw [hw.get?_eq_none.mp hi] at hholding
    generalize cell o.entries e p.name = cs at hholding
    cases hholding with
    | away => exact absurd rfl hph.1
    | gone => exact absurd rfl hph.2

/-- What announcing the value comes to. -/
theorem recordBefore_value (hw : b.Watches e p) (ho : b.undo.recording = some o) {i : Instance P}
    (hi : b.get? e = some i) (hbase : b.ensureBaseline o e = .ok o') :
    (cell o'.entries e p.name ≠ [] → b.recordBefore e p.name = (.ok (), b.setRecording (some o'))) ∧
    (cell o'.entries e p.name = [] → b.recordBefore e p.name = (.ok (), b.setRecording (some
      { o' with entries := o'.entries ++ [.changed (.sight e p (valueOf i p) .pending)] }))) := by
  have hready : b.Prepares e p.name p o o' := ⟨hw.recording?_eq ho, hw.param, hbase⟩
  constructor
  · intro hcell
    exact hready.recordBefore_again (any_targets.mpr hcell)
  · intro hcell
    obtain ⟨cl, hcl, hp, _⟩ := hw.exists_class
    have hseen := Recorded.snapshots_sighting hw.steady.wellFormed hi hcl hp hw.value
    rw [hready.recordBefore_first (not_any_targets.mpr hcell) hi hseen, hw.value,
      if_neg Bool.false_ne_true, List.append_nil]
    rfl

/-- Announcing the value. -/
theorem IsTraced.recordBefore (h : b.IsTraced e p first ph) (hw : b.Watches e p)
    (hph : ph.announce? = some ph') :
    (b.recordBefore e p.name).1 = .ok () ∧ (b.recordBefore e p.name).2.IsTraced e p first ph' := by
  obtain ⟨o, ho, ht⟩ := h
  obtain ⟨i, hi⟩ := ht.exists_get? hw (Phase.ne_of_announce? hph)
  obtain ⟨hvalue, _⟩ := hw.exists_value hi
  obtain ⟨base, hbase⟩ := exists_ensureBaseline hw.steady.wellFormed o hi
  obtain ⟨ht', hentries, _, hcovered⟩ := ht.ensureBaseline hw hbase
  obtain ⟨hseen, hnew⟩ := recordBefore_value hw ho hi hbase
  have hholding := ht'.holding
  generalize hcs : cell ({ o with baseline := base } : OpenOperation P).entries e p.name = cs
    at hholding
  rw [hvalue] at hholding
  -- It is captured unless it was already.
  cases hholding with
  | unrecorded | assumed | doomed => cases hph
  | untouched starts reads =>
    cases hph
    have hopens : b.Opens e p first (.sight e p (valueOf i p) .pending) :=
      ⟨rfl, rfl, rfl, Or.inl ⟨_, starts, reads, rfl⟩⟩
    rw [hnew hcs]
    refine ⟨rfl, .setRecording (ht'.append_first hw hcs ⟨rfl, rfl, rfl⟩ ?_ (by simp) rfl hcovered
      (by simp))⟩
    rw [hvalue]
    exact .announced _ hopens rfl
  | announced | recorded | outdated =>
    cases hph
    rw [hseen (by rw [hcs]; simp)]
    exact ⟨rfl, .setRecording ht'⟩

/-- The watches of the entity are those of side-tables, so none of them is the value's. -/
theorem Traces.unwatched (h : b.Traces e p first ph o) (hw : b.Watches e p) :
    ∀ w ∈ o.watched, ¬ (w.1 == e && w.2.name == p.name) = true := by
  intro w hmem hown
  have hown : w.1 = e ∧ w.2.name = p.name := by simpa using hown
  obtain ⟨hs, cl, hcl, hwcl⟩ := h.watched w hmem hown.1
  obtain ⟨cl', hcl', hp, hwf, _⟩ := hw.exists_class
  cases hcl'.symm.trans hcl
  rw [ObjectClass.eq_of_name_eq hwf (ObjectClass.mem_params_of_mem_copyable hwcl)
    (ObjectClass.mem_params_of_mem_copyable hp) hown.2, hw.value] at hs
  cases hs

/-- What the log makes of a value that was not announced. -/
theorem unannounced_value (hs : p.isSlots = false) {i : Instance P} (hi : b.get? e = some i)
    (hv : i.value? p.accessor = some v) (s : String) :
    b.unannounced e p p.name [(none, .value s)] = [.changed
      { entity := e, param := p, path := none, after := .value v.text
        before := (b.undo.lastKnown e p.name none).getD .absent }] := by
  unfold unannounced
  rw [hs, ← capture_eq hi hv]
  rfl

/-- What filling in the value comes to. -/
theorem recordAfter_value (h : b.Traces e p first ph o') (hw : b.Watches e p)
    (ho : b.undo.recording = some o) {i : Instance P} (hi : b.get? e = some i)
    (hbase : b.ensureBaseline o e = .ok o') :
    (cell o'.entries e p.name ≠ [] → b.recordAfter e p.name = (.ok (), b.setRecording (some
      { o' with entries := o'.entries.map (b.refresh e p p.name) }))) ∧
    (cell o'.entries e p.name = [] → b.recordAfter e p.name = (.ok (), b.setRecording (some
      { o' with entries := o'.entries ++ [.changed
        { entity := e, param := p, path := none, after := .value (valueOf i p).text
          before := (b.undo.lastKnown e p.name none).getD .absent }] }))) := by
  have hready : b.Prepares e p.name p o o' := ⟨hw.recording?_eq ho, hw.param, hbase⟩
  constructor
  · intro hcell
    rw [hready.recordAfter_filled (any_targets.mpr hcell), fillIn_of_unwatched (h.unwatched hw)]
  · intro hcell
    have hv := (hw.exists_value hi).2
    have hsnapshot := snapshot_eq hv
    rw [ParamValue.captures_eq (Instance.hasKind_value hv) hw.value] at hsnapshot
    rw [hready.recordAfter_unannounced (not_any_targets.mpr hcell) hi hsnapshot,
      unannounced_value hw.value hi hv]

/-- Filling in the value makes no entity. -/
theorem Traces.created_recordAfter (h : b.Traces e p first ph o) (hw : b.Watches e p)
    (ho : b.undo.recording = some o) (hph : ph ≠ .away ∧ ph ≠ .gone) :
    ∃ o', (b.recordAfter e p.name).2.undo.recording = some o' ∧
      (UndoEntry.created e ∈ o'.entries ↔ UndoEntry.created e ∈ o.entries) := by
  obtain ⟨i, hi⟩ := h.exists_get? hw hph
  obtain ⟨base, hbase⟩ := exists_ensureBaseline hw.steady.wellFormed o hi
  obtain ⟨h', _⟩ := h.ensureBaseline hw hbase
  obtain ⟨hseen, hnew⟩ := recordAfter_value h' hw ho hi hbase
  by_cases hnil : cell ({ o with baseline := base } : OpenOperation P).entries e p.name = []
  · rw [hnew hnil]
    refine ⟨_, rfl, mem_append_of_not_mem ?_⟩
    intro hm
    cases List.mem_singleton.mp hm
  · rw [hseen hnil]
    refine ⟨_, rfl, Recorded.mem_map_refresh ?_⟩
    intro c hc
    cases hc

/-- Filling in the value of what was noted. -/
theorem Traces.refresh (h : b.Traces e p first ph o) (hw : b.Watches e p)
    (hnoted : ph.isNoted = true) {i : Instance P} (hi : b.get? e = some i) :
    b.Traces e p first .recorded { o with entries := o.entries.map (b.refresh e p p.name) } := by
  obtain ⟨hvalue, hv⟩ := hw.exists_value hi
  -- One change is noted, and it has the value at first.
  have hone : ∃ c, cell o.entries e p.name = [c] ∧ b.Opens e p first c ∧ c.after ≠ .absent := by
    have hholding := h.holding
    generalize cell o.entries e p.name = cs at hholding
    generalize b.value? e p = w at hholding
    cases hholding with
    | away | untouched | unrecorded | assumed | doomed | gone => cases hnoted
    | announced _ opens after => exact ⟨_, rfl, opens, by rw [after]; simp⟩
    | recorded opens after => exact ⟨_, rfl, opens, by rw [after]; simp⟩
    | outdated _ opens after => exact ⟨_, rfl, opens, after⟩
  obtain ⟨c, hcell, hopens, hafter⟩ := hone
  have hfilled : cell (o.entries.map (b.refresh e p p.name)) e p.name =
      [{ c with after := .value (valueOf i p).text }] := by
    have hmem : c ∈ cell o.entries e p.name := hcell ▸ List.mem_cons_self
    rw [Recorded.cell_refresh, hcell, List.map_singleton,
      Recorded.refreshed_of_mem hmem hopens.path hi hv]
  have hcovered (hzero : b.undo.cursor = 0) : ∃ u ∈ o.baseline, u.entity = e :=
    h.covered hzero c (hcell ▸ List.mem_cons_self) hafter
  refine ⟨?_, ?_, ?_, h.watched, h.changes, h.baselineFits, ?_, h.idle,
    fun hzero _ _ _ => hcovered hzero⟩
  · rw [hfilled, hvalue]
    exact .recorded (hopens.withAfter _) rfl
  · refine (Recorded.mem_map_refresh ?_).trans (h.deleted.trans ?_)
    · intro d hd
      cases hd
    · cases ph <;> simp_all [Phase.isNoted]
  · rw [filter_entity_map (entity_refresh b e p p.name)]
    exact Recorded.fitEntries_refresh b h.fits e p p.name
  · intro _
    refine h.baseline ?_
    cases ph <;> simp_all [Phase.isNoted]

/-- If no value is known, it is as if there had been none. -/
theorem getD_lastKnown_of_unknown {l : UndoLog P} {path : Option String}
    (h : ∀ t, l.lastKnown e name path ≠ some (.value t)) :
    (l.lastKnown e name path).getD .absent = .absent := by
  cases hk : l.lastKnown e name path with
  | none => rfl
  | some x =>
    cases x with
    | pending => exact absurd hk (UndoLog.lastKnown_ne_pending _ _ _ _)
    | absent => rfl
    | value t => exact absurd hk (h t)

/-- The log knows the value at first. Of a new entity it knows none, and there is an applied
    operation, so that no baseline is kept. -/
def Knows (b : Book P) (e : Entity) (p : Param P) : Option ParamValue → Prop
  | some _ => ∃ t, b.undo.lastKnown e p.name none = some (.value t)
  | none => 0 < b.undo.cursor ∧ ∀ t, b.undo.lastKnown e p.name none ≠ some (.value t)

/-- What is known is the value at first. -/
theorem Knows.opens (h : b.Knows e p first) {oldest : Option ParamValue}
    (hpast : b.History e p oldest b.undo.past first) (hreads : p.ReadsBack first) (after : Capture) :
    b.Opens e p first { entity := e, param := p, path := none, after
                        before := (b.undo.lastKnown e p.name none).getD .absent } ∧
      0 < b.undo.cursor := by
  cases first with
  | none =>
    obtain ⟨hpos, hknown⟩ := h
    refine ⟨⟨rfl, rfl, rfl, Or.inr ⟨rfl, ?_⟩⟩, hpos⟩
    exact getD_lastKnown_of_unknown hknown
  | some v =>
    obtain ⟨t, ht⟩ := h
    obtain ⟨v', hv', rfl⟩ := hpast.denotes_of_lastKnown ht
    have hv' : v' = v := by
      rcases hv' with heq | ⟨hn, _⟩
      · exact (Option.some.inj heq).symm
      · cases hn
    subst hv'
    refine ⟨⟨rfl, rfl, rfl, Or.inl ⟨v', Or.inl rfl, hreads v' rfl, ?_⟩⟩, ?_⟩
    · dsimp only
      rw [ht]
      rfl
    · -- something is applied, or nothing would be known
      obtain ⟨c, hc⟩ := exists_getLast?_of_lastKnown ht
      refine Nat.pos_of_ne_zero ?_
      intro hzero
      unfold UndoLog.past at hc
      rw [hzero] at hc
      cases hc

/-- Filling in the value of what was noted, or of what the log knows. -/
theorem IsTraced.recordAfter (h : b.IsTraced e p first ph) (hw : b.Watches e p)
    {oldest : Option ParamValue} (hpast : b.History e p oldest b.undo.past first)
    (hreads : p.ReadsBack first)
    (hph : ph.isNoted = true ∨ ph.isBare = true ∧ b.Knows e p first) :
    (b.recordAfter e p.name).1 = .ok () ∧
      (b.recordAfter e p.name).2.IsTraced e p first .recorded := by
  obtain ⟨o, ho, ht⟩ := h
  obtain ⟨i, hi⟩ := ht.exists_get? hw
    (hph.elim Phase.ne_of_isNoted fun hbare => Phase.ne_of_isBare hbare.1)
  obtain ⟨hvalue, _⟩ := hw.exists_value hi
  obtain ⟨base, hbase⟩ := exists_ensureBaseline hw.steady.wellFormed o hi
  obtain ⟨ht', _, _, hcovered⟩ := ht.ensureBaseline hw hbase
  obtain ⟨hseen, hnew⟩ := recordAfter_value ht' hw ho hi hbase
  by_cases hnil : cell ({ o with baseline := base } : OpenOperation P).entries e p.name = []
  · -- Nothing was noted, so the log is asked for the value before.
    have hbare : ph.isBare = true ∧ b.Knows e p first := by
      refine hph.resolve_left fun hnoted => ?_
      have hholding := ht'.holding
      rw [hnil] at hholding
      generalize b.value? e p = w at hholding
      cases hholding <;> cases hnoted
    obtain ⟨hopens, hpos⟩ := hbare.2.opens hpast hreads (.value (valueOf i p).text)
    rw [hnew hnil]
    refine ⟨rfl, .setRecording
      (ht'.append_first hw hnil ⟨rfl, rfl, rfl⟩ ?_ (by simp) hbare.1 hcovered fun _ => hpos)⟩
    rw [hvalue]
    exact .recorded hopens rfl
  · have hnoted : ph.isNoted = true := by
      refine hph.resolve_right fun hbare => hnil ?_
      have hholding := ht'.holding
      generalize cell ({ o with baseline := base } : OpenOperation P).entries e p.name = cs
        at hholding
      generalize b.value? e p = w at hholding
      cases hholding with
      | away | untouched | unrecorded => rfl
      | announced | recorded | outdated | assumed | doomed | gone => cases hbare.1
    rw [hseen hnil]
    exact ⟨rfl, .setRecording (ht'.refresh hw hnoted hi)⟩

/-- A value of which nothing is known, recorded while it still is the one at first. -/
theorem IsTraced.assume (h : b.IsTraced e p (some v) .untouched) (hw : b.Watches e p)
    (hunknown : ∀ t, b.undo.lastKnown e p.name none ≠ some (.value t)) :
    (b.recordAfter e p.name).2.IsTraced e p (some v) .assumed := by
  obtain ⟨o, ho, ht⟩ := h
  obtain ⟨i, hi⟩ := ht.exists_get? hw (by simp)
  obtain ⟨hvalue, _⟩ := hw.exists_value hi
  obtain ⟨base, hbase⟩ := exists_ensureBaseline hw.steady.wellFormed o hi
  obtain ⟨ht', _, _, hcovered⟩ := ht.ensureBaseline hw hbase
  have hheld : cell ({ o with baseline := base } : OpenOperation P).entries e p.name = [] ∧
      valueOf i p = v := by
    have hholding := ht'.holding
    rw [hvalue] at hholding
    generalize cell ({ o with baseline := base } : OpenOperation P).entries e p.name = cs
      at hholding ⊢
    cases hholding with
    | untouched starts =>
      rcases starts with heq | ⟨hn, _⟩
      · exact ⟨rfl, (Option.some.inj heq).symm⟩
      · cases hn
  obtain ⟨hnil, hsame⟩ := hheld
  have hassumes : Assumes e p (valueOf i p)
      { entity := e, param := p, path := none, after := .value (valueOf i p).text
        before := (b.undo.lastKnown e p.name none).getD .absent } :=
    ⟨rfl, rfl, rfl, getD_lastKnown_of_unknown hunknown, rfl⟩
  rw [(recordAfter_value ht' hw ho hi hbase).2 hnil]
  refine .setRecording (ht'.append_first hw hnil ⟨rfl, rfl, rfl⟩ ?_ (by simp) rfl hcovered (by simp))
  rw [hvalue]
  exact .assumed (by rw [hsame]) hassumes

/-- Another value may be taken for the one at first while nothing is recorded of it. -/
theorem IsTraced.adopt (h : b.IsTraced e p first ph) (hw : b.Watches e p) (hbare : ph.isBare = true)
    (huncovered : ∀ o, b.undo.recording = some o → cell o.baseline e p.name = [])
    (hreads : p.ReadsBack (b.value? e p)) : b.IsTraced e p (b.value? e p) .untouched := by
  obtain ⟨o, ho, ht⟩ := h
  obtain ⟨i, hi⟩ := ht.exists_get? hw (Phase.ne_of_isBare hbare)
  obtain ⟨hvalue, _⟩ := hw.exists_value hi
  have hnil : cell o.entries e p.name = [] := by
    have hholding := ht.holding
    generalize cell o.entries e p.name = cs at hholding ⊢
    generalize b.value? e p = w at hholding
    cases hholding with
    | away | untouched | unrecorded => rfl
    | announced | recorded | outdated | assumed | doomed | gone => cases hbare
  refine ⟨o, ho, ?_, ?_, ht.fits, ht.watched, ht.changes, ht.baselineFits, ?_, ht.idle, ht.covered⟩
  · rw [hnil, hvalue]
    exact .untouched (Or.inl rfl) (hreads _ hvalue)
  · refine ht.deleted.trans ?_
    cases ph <;> simp_all [Phase.isBare]
  · intro _
    exact Or.inl (huncovered o ho)

/-! ### Making and deleting the entity -/

/-- Making the entity. -/
theorem IsTraced.create (h : b.IsTraced e p first .away) (hw : b.Watches e p)
    (hmade : (b.create e.typeTag e.guid).2.contains e = true)
    (hreads : p.ReadsBack ((b.create e.typeTag e.guid).2.value? e p)) :
    (b.create e.typeTag e.guid).2.IsTraced e p first .untouched := by
  obtain ⟨o, ho, ht⟩ := h
  have hnone : b.value? e p = none ∧ first = none ∧ cell o.entries e p.name = [] := by
    have hholding := ht.holding
    generalize cell o.entries e p.name = cs at hholding ⊢
    generalize b.value? e p = w at hholding ⊢
    cases hholding with
    | away absent => exact ⟨rfl, absent, rfl⟩
  obtain ⟨hnone, rfl, hcell⟩ := hnone
  obtain ⟨_, hset, hundo⟩ := hw.steady.create e.typeTag e.guid
  have hgone := hw.get?_eq_none.mpr hnone
  cases hc : b.create e.typeTag e.guid with
  | mk r b' =>
    rw [hc] at hmade hset hundo hreads
    cases r with
    | error err =>
      rw [create_eq_error hc] at hmade
      rw [contains_of_none hgone] at hmade
      cases hmade
    | ok x =>
      obtain ⟨_, hg, _, cl, payload, hcl, hp, rfl⟩ := create_eq_ok.mp hc
      -- The new entity has the value of a new entity.
      have hget : (b.adopt (b.newborn e payload)).get? e = some (b.newborn e payload) :=
        get?_adopt_self b _
      have hmakes : b.Makes e cl payload := ⟨hg, hcl, hp⟩
      obtain ⟨cl', hcl', hmem, _⟩ := hw.exists_class
      cases hcl'.symm.trans hcl
      obtain ⟨v, hv⟩ := hmakes.exists_value hmem
      have hvalue : (b.adopt (b.newborn e payload)).value? e p = some v :=
        (value?_of_get? hget).trans hv
      refine ⟨o, ho, ht.toPhase hset rfl ?_ (by simp) (by simp)⟩
      rw [hcell]
      show b.Holding e p none .untouched ((b.adopt (b.newborn e payload)).value? e p) []
      rw [hvalue]
      exact .untouched (Or.inr ⟨rfl, _, payload, hmakes, hv⟩) (hreads v hvalue)

/-- Recording that the entity was made. -/
theorem IsTraced.recordCreate (h : b.IsTraced e p first ph) (hw : b.Watches e p) :
    (b.recordCreate e).IsTraced e p first ph := by
  obtain ⟨o, ho, ht⟩ := h
  rw [recordCreate_of_some (hw.recording?_eq ho)]
  have hsame : ∀ w ∈ o.watched, w ∈ o.watched ∨ w.2.isSlots = true ∧
      ∃ cl, b.registry.find? e.typeTag = some cl ∧ w.2 ∈ cl.copyable := fun w hw => Or.inl hw
  refine IsTraced.setRecording (b := b) (ht.beside ?_ ?_ ?_ hsame)
  · rw [cell_append, cell_created, cell_nil, List.append_nil]
  · refine mem_append_of_not_mem ?_
    intro hm
    cases List.mem_singleton.mp hm
  · rw [List.filter_append]
    refine ht.fits.append (FitEntries.filter ?_ _)
    intro c hc
    cases List.mem_singleton.mp hc

/-- Recording that the entity is about to be deleted. -/
theorem IsTraced.recordDelete (h : b.IsTraced e p first ph) (hw : b.Watches e p)
    (hreads : p.ReadsBack (b.value? e p)) (hph : ph.isSettled = true) :
    (b.recordDelete e).2.IsTraced e p first .doomed := by
  obtain ⟨o, ho, ht⟩ := h
  obtain ⟨i, hi⟩ := ht.exists_get? hw (Phase.ne_of_isSettled hph)
  obtain ⟨hvalue, _⟩ := hw.exists_value hi
  obtain ⟨cl, hcl, hmem, hwf, _⟩ := hw.exists_class
  rw [Recorded.recordDelete_of_live hw.steady.wellFormed (hw.recording?_eq ho) hi hcl]
  have hown : cell (Recorded.deletion e i cl) e p.name = [.sight e p (valueOf i p) .absent] := by
    rw [Recorded.cell_deletion_self hwf hmem, captured_value hw hi]
  have hshuts : Shuts e p (valueOf i p) (.sight e p (valueOf i p) .absent) :=
    ⟨rfl, rfl, rfl, rfl, rfl, hreads _ hvalue⟩
  have hshut : b.Shut e p first (valueOf i p)
      (cell o.entries e p.name ++ [.sight e p (valueOf i p) .absent]) := by
    have hholding := ht.holding
    rw [hvalue] at hholding
    generalize cell o.entries e p.name = cs at hholding
    cases hholding with
    | untouched starts => exact .alone starts hshuts
    | announced _ opens after => exact .after opens (Or.inl after) hshuts
    | recorded opens after => exact .after opens (Or.inr after) hshuts
    | unrecorded | outdated | assumed | doomed => cases hph
  refine IsTraced.setRecording (b := b)
    ⟨?_, ?_, ?_, ht.watched, ht.changes, ht.baselineFits, ?_, ht.idle, ?_⟩
  · rw [cell_append, hown, hvalue]
    exact .doomed hshut
  · have hin : UndoEntry.deleted e ∈ o.entries ++ Recorded.deletion e i cl :=
      List.mem_append_right _ List.mem_cons_self
    simp [hin]
  · rw [List.filter_append]
    exact ht.fits.append
      ((Recorded.fitEntries_deletion hw.steady.wellFormed hi hcl).filter _)
  · intro _
    refine ht.baseline ?_
    rintro rfl
    cases hph
  · intro hzero c hc hafter
    rw [cell_append, hown] at hc
    rcases List.mem_append.mp hc with hc | hc
    · exact ht.covered hzero c hc hafter
    · cases List.mem_singleton.mp hc
      exact absurd rfl hafter

/-- Deleting the entity after that. -/
theorem IsTraced.delete (h : b.IsTraced e p first .doomed) (hw : b.Watches e p) :
    (b.delete e).2.IsTraced e p first .gone := by
  obtain ⟨o, ho, ht⟩ := h
  obtain ⟨_, hset, hundo⟩ := hw.steady.delete e
  have hshut : ∃ v i, b.get? e = some i ∧ b.Shut e p first v (cell o.entries e p.name) := by
    have hholding := ht.holding
    generalize cell o.entries e p.name = cs at hholding
    generalize hvv : b.value? e p = w at hholding
    cases hholding with
    | @doomed v cs shut =>
      obtain ⟨i, hi, _⟩ := value?_eq_some.mp hvv
      exact ⟨v, i, hi, shut⟩
  obtain ⟨v, i, hi, hshut⟩ := hshut
  have hnone : (b.delete e).2.value? e p = none := by
    unfold value?
    rw [get?_delete_self hi (hw.steady.quiet e i hi).1]
    rfl
  refine ⟨o, hundo ▸ ho, ht.toPhase hset (by rw [hundo]) ?_ (by simp) (by simp)⟩
  obtain ⟨cl, payload, hmakes, _⟩ := hw.steady.wellFormed.exists_makes hi
  obtain ⟨cl', hcl', hmem, _⟩ := hw.exists_class
  cases hcl'.symm.trans hmakes.found
  obtain ⟨d, hd⟩ := hmakes.exists_value hmem
  rw [hnone]
  exact .gone hshut ⟨d, _, payload, hmakes, hd⟩

end Open

end Book

end EntityBook
