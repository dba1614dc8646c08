import EntityBook.Proofs.Undo.Snapshot

/-! # What an open operation knows

  `Recorded b₀ b o` ties an open operation to the book in which it was opened and
  to the present book. Every entity has lived one of four lives since, and the
  entries tell which: it never was there, it is there, it is gone, or it came and
  went. For each parameter of an entity that is or was there they hold a cell,
  which relates its value at first to its present one.

  The baseline holds values at first only, since an entity is added to it before
  its first change.
-/

namespace EntityBook

variable {P : PayloadFamily}

namespace Book

/-! ### The four lives -/

/-- The instance that an entity had at first, or was made with since. -/
inductive Origin (b₀ : Book P) (entries : List (UndoEntry P)) (e : Entity) : Instance P → Prop where
  /-- The entity was there. -/
  | old (i₀ : Instance P) (before : b₀.get? e = some i₀)
      (notMade : UndoEntry.created e ∉ entries) : Origin b₀ entries e i₀
  /-- The entity was made. -/
  | new (cl : ObjectClass P) (payload : Payload P) (before : b₀.get? e = none)
      (isMade : UndoEntry.created e ∈ entries) (makes : b₀.Makes e cl payload) :
      Origin b₀ entries e (b₀.newborn e payload)

/-- The cells of an entity that is there. -/
def OpenCells (b₀ : Book P) (entries : List (UndoEntry P)) (e : Entity) (i₀ i : Instance P) :
    Prop :=
  ∀ cl, b₀.registry.find? e.typeTag = some cl → ∀ p ∈ cl.copyable, ∀ v₀ v,
    i₀.value? p.accessor = some v₀ → i.value? p.accessor = some v →
      OpenCell p v₀ v (cell entries e p.name)

/-- The cells of an entity that was deleted. -/
def ShutCells (b₀ : Book P) (entries : List (UndoEntry P)) (e : Entity) (i₀ : Instance P) :
    Prop :=
  ∀ cl, b₀.registry.find? e.typeTag = some cl → ∀ p ∈ cl.copyable, ∀ v₀,
    i₀.value? p.accessor = some v₀ → ShutCell p v₀ (cell entries e p.name)

/-- The life of an entity since the operation was opened. -/
inductive Life (b₀ b : Book P) (entries : List (UndoEntry P)) (e : Entity) : Prop where
  /-- It never was there. -/
  | absent (before : b₀.get? e = none) (now : b.get? e = none)
      (notMade : UndoEntry.created e ∉ entries) (notGone : UndoEntry.deleted e ∉ entries)
      (unseen : ∀ name, cell entries e name = [])
  /-- It is there. -/
  | live (i₀ i : Instance P) (origin : Origin b₀ entries e i₀) (now : b.get? e = some i)
      (notGone : UndoEntry.deleted e ∉ entries) (cells : OpenCells b₀ entries e i₀ i)
  /-- It was there and is gone. -/
  | gone (i₀ : Instance P) (before : b₀.get? e = some i₀) (now : b.get? e = none)
      (notMade : UndoEntry.created e ∉ entries) (isGone : UndoEntry.deleted e ∈ entries)
      (cells : ShutCells b₀ entries e i₀)
  /-- It came and went. -/
  | passed (before : b₀.get? e = none) (now : b.get? e = none)
      (isMade : UndoEntry.created e ∈ entries) (isGone : UndoEntry.deleted e ∈ entries)

section Lives

variable {b₀ b b' : Book P} {entries entries' : List (UndoEntry P)} {e : Entity}

theorem Origin.congr {i₀ : Instance P} (h : Origin b₀ entries e i₀)
    (hmade : UndoEntry.created e ∈ entries' ↔ UndoEntry.created e ∈ entries) :
    Origin b₀ entries' e i₀ := by
  cases h with
  | old _ before notMade => exact .old _ before fun hm => notMade (hmade.mp hm)
  | new cl payload before isMade makes => exact .new cl payload before (hmade.mpr isMade) makes

/-- An entity lives on when neither its values nor its part of the entries change. -/
theorem Life.congr (h : Life b₀ b entries e)
    (hsome : ∀ i, b.get? e = some i → ∃ j, b'.get? e = some j ∧ ∀ a, j.value? a = i.value? a)
    (hnone : b.get? e = none → b'.get? e = none)
    (hmade : UndoEntry.created e ∈ entries' ↔ UndoEntry.created e ∈ entries)
    (hgone : UndoEntry.deleted e ∈ entries' ↔ UndoEntry.deleted e ∈ entries)
    (hcell : ∀ name, cell entries' e name = cell entries e name) : Life b₀ b' entries' e := by
  cases h with
  | absent before now notMade notGone unseen =>
    refine .absent before (hnone now) (fun hm => notMade (hmade.mp hm))
      (fun hm => notGone (hgone.mp hm)) ?_
    intro name
    exact (hcell name).trans (unseen name)
  | live i₀ i origin now notGone cells =>
    obtain ⟨j, hj, hvalue⟩ := hsome i now
    refine .live i₀ j (origin.congr hmade) hj (fun hm => notGone (hgone.mp hm)) ?_
    intro cl hcl p hp v₀ v hv₀ hv
    rw [hcell]
    exact cells cl hcl p hp v₀ v hv₀ ((hvalue p.accessor).symm.trans hv)
  | gone i₀ before now notMade isGone cells =>
    refine .gone i₀ before (hnone now) (fun hm => notMade (hmade.mp hm)) (hgone.mpr isGone) ?_
    intro cl hcl p hp v₀ hv₀
    rw [hcell]
    exact cells cl hcl p hp v₀ hv₀
  | passed before now isMade isGone =>
    exact .passed before (hnone now) (hmade.mpr isMade) (hgone.mpr isGone)

theorem mem_append_of_not_mem {u : UndoEntry P} {more : List (UndoEntry P)} (h : u ∉ more) :
    u ∈ entries ++ more ↔ u ∈ entries := by
  rw [List.mem_append]
  constructor
  · intro hm
    exact hm.resolve_right h
  · exact Or.inl

/-- It also lives on when the entries that are added are about others. -/
theorem Life.append (h : Life b₀ b entries e) (hget : b'.get? e = b.get? e)
    {more : List (UndoEntry P)} (hmade : UndoEntry.created e ∉ more)
    (hgone : UndoEntry.deleted e ∉ more) (hcell : ∀ name, cell more e name = []) :
    Life b₀ b' (entries ++ more) e := by
  refine h.congr ?_ ?_ (mem_append_of_not_mem hmade) (mem_append_of_not_mem hgone) ?_
  · intro i hi
    exact ⟨i, hget.trans hi, fun _ => rfl⟩
  · intro hn
    exact hget.trans hn
  · intro name
    rw [cell_append, hcell, List.append_nil]

end Lives

/-! ### The invariant -/

/-- What the baseline of an open operation holds. -/
structure Baseline (b₀ : Book P) (o : OpenOperation P) : Prop where
  changes : ∀ u ∈ o.baseline, ∃ c, u = UndoEntry.changed c ∧ c.kept = false
  fits : b₀.FitEntries o.baseline
  /-- All values are those at first. -/
  same : ∀ e i₀, b₀.get? e = some i₀ → ∀ cl, b₀.registry.find? e.typeTag = some cl →
    ∀ p ∈ cl.copyable, ∀ v₀, i₀.value? p.accessor = some v₀ →
      cell o.baseline e p.name = [] ∨
      v₀.Restorable p.kind ∧ cell o.baseline e p.name = captured e p (fun seen => seen) v₀
  /-- If no operation is applied, no entity is changed before it is added. -/
  covers : b₀.undo.cursor = 0 → ∀ e name, UndoEntry.deleted e ∉ o.entries →
    cell o.entries e name ≠ [] → ∃ u ∈ o.baseline, u.entity = e

/-- The baseline of an operation whose entries change, as long as every entity that
    they begin to tell of is in it. -/
theorem Baseline.withEntries {b₀ : Book P} {o : OpenOperation P} (h : Baseline b₀ o)
    {entries : List (UndoEntry P)}
    (hcovers : b₀.undo.cursor = 0 → ∀ e name, UndoEntry.deleted e ∉ entries →
      cell entries e name ≠ [] → (∃ u ∈ o.baseline, u.entity = e) ∨
        UndoEntry.deleted e ∉ o.entries ∧ cell o.entries e name ≠ []) :
    Baseline b₀ { o with entries } where
  changes := h.changes
  fits := h.fits
  same := h.same
  covers := by
    intro hcursor e name hgone hcell
    rcases hcovers hcursor e name hgone hcell with hin | ⟨hgone, hcell⟩
    · exact hin
    · exact h.covers hcursor e name hgone hcell

/-- What an open operation knows of the book in which it was opened and of the
    present one. -/
structure Recorded (b₀ b : Book P) (o : OpenOperation P) : Prop where
  initial : b₀.Steady
  lawful : b₀.Lawful
  enabled : b₀.config.undoEnabled = true
  accepting : ∀ calls i, b₀.backend.refusal calls i = none
  steady : b.Steady
  setup : b₀.SameSetup b
  log : b.undo = { b₀.undo with recording := some o }
  unwatched : o.watched = []
  fits : b₀.FitEntries o.entries
  life : ∀ e, Life b₀ b o.entries e
  baseline : Baseline b₀ o

/-! ### Small facts -/

theorem Steady.setRecording {b : Book P} (h : b.Steady) (o : Option (OpenOperation P)) :
    (b.setRecording o).Steady where
  wellFormed := h.wellFormed.of_eq rfl rfl rfl rfl
  quiet := h.quiet

/-- The values of an instance, where they can be read. -/
def valueOf (i : Instance P) (p : Param P) : ParamValue :=
  (i.value? p.accessor).getD (.slots .empty)

theorem WellFormed.exists_value {b : Book P} (h : b.WellFormed) {e : Entity} {i : Instance P}
    (hi : b.get? e = some i) {cl : ObjectClass P} (hcl : b.registry.find? e.typeTag = some cl)
    {p : Param P} (hp : p ∈ cl.copyable) : i.value? p.accessor = some (valueOf i p) := by
  obtain ⟨v, hv⟩ := (h.fits e i hi).exists_value hcl
    (ObjectClass.mem_params_of_mem_copyable hp)
  unfold valueOf
  rw [hv]
  rfl

/-- The changes of a snapshot are about parameters of the class. -/
theorem WellFormed.fitEntries_snapshotOf {b : Book P} (h : b.WellFormed) {e : Entity}
    {i : Instance P} (hi : b.get? e = some i) {cl : ObjectClass P}
    (hcl : b.registry.find? e.typeTag = some cl) (after : Capture → Capture) :
    b.FitEntries (snapshotOf e after (valueOf i) cl.copyable) := by
  intro c hc
  obtain ⟨p, hp, d, hd, hcd⟩ := mem_snapshotOf hc
  cases hcd
  obtain ⟨he, hparam, _, _, hm⟩ := mem_captured hd
  have hkind := Instance.hasKind_value (h.exists_value hi hcl hp)
  refine ⟨cl, he ▸ hcl, hparam ▸ hp, ?_⟩
  rw [hparam]
  exact isSome_path_of_mem_captures hkind hm

/-- What can be recorded is a copyable parameter of the class. -/
theorem undoableParam_eq_ok {b : Book P} {e : Entity} {name : String} {p : Param P} :
    b.undoableParam e name = .ok p ↔
      ∃ cl, b.registry.find? e.typeTag = some cl ∧ p ∈ cl.copyable ∧ cl.param? name = some p := by
  unfold undoableParam param?
  constructor
  · intro h
    split at h
    · cases h
    · next q hq =>
      split at h
      · next hc =>
        cases h
        obtain ⟨cl, hcl, hp⟩ := Registry.param?_eq_ok.mp hq
        exact ⟨cl, hcl, ObjectClass.mem_copyable (ObjectClass.mem_of_param? hp) hc, hp⟩
      · cases h
  · intro h
    obtain ⟨cl, hcl, hmem, hp⟩ := h
    have hok := Registry.param?_eq_ok.mpr ⟨cl, hcl, hp⟩
    have hc : p.isCopyable = true := by
      unfold Param.isCopyable
      rw [ObjectClass.isReadOnly_of_mem_copyable hmem]
      rfl
    rw [hok]
    dsimp only
    rw [if_pos hc]

/-! ### Reading -/

section Read

variable {b b' : Book P} {e : Entity} {name : String} {p : Param P}

theorem undoableParam_congr (h : b'.registry = b.registry) (e : Entity) (name : String) :
    b'.undoableParam e name = b.undoableParam e name := by
  unfold undoableParam param?
  rw [h]

theorem read_eq {i : Instance P} {v : ParamValue} (hp : b.undoableParam e name = .ok p)
    (hi : b.get? e = some i) (hv : i.value? p.accessor = some v) : b.read e name = .ok v := by
  obtain ⟨cl, hcl, _, hname⟩ := undoableParam_eq_ok.mp hp
  have hparam : b.param? e name = .ok p := Registry.param?_eq_ok.mpr ⟨cl, hcl, hname⟩
  unfold Book.read
  rw [hparam, instance?_eq hi]
  show i.read p = .ok v
  unfold Instance.read
  rw [hv]

theorem read_of_none (hp : b.undoableParam e name = .ok p) (hi : b.get? e = none) :
    b.read e name = .error (.entityNotFound e) := by
  obtain ⟨cl, hcl, _, hname⟩ := undoableParam_eq_ok.mp hp
  have hparam : b.param? e name = .ok p := Registry.param?_eq_ok.mpr ⟨cl, hcl, hname⟩
  unfold Book.read
  rw [hparam, instance?_of_none hi]
  rfl

end Read

/-! ### Baselines -/

/-- An entity that is there is added with all its values. -/
theorem ensureBaseline_of_live {b : Book P} (hb : b.WellFormed) {o : OpenOperation P} {e : Entity}
    (h : ¬ b.Enrolled o e) {i : Instance P} (hi : b.get? e = some i) {cl : ObjectClass P}
    (hcl : b.registry.find? e.typeTag = some cl) :
    b.ensureBaseline o e = .ok { o with
      baseline := o.baseline ++ snapshotOf e (fun seen => seen) (valueOf i) cl.copyable } := by
  -- A live entity has a value at every parameter, so all of them are captured.
  have hvalues : ∀ p ∈ cl.copyable, i.value? p.accessor = some (valueOf i p) := by
    intro p hp
    exact hb.exists_value hi hcl hp
  exact ensureBaseline_of_seen h (Registry.class?_eq_ok.mpr hcl) hi (snapshots_eq e i _ hvalues)

/-- Adding a live entity succeeds, whether it is in the baseline already or not. -/
theorem exists_ensureBaseline {b : Book P} (hb : b.WellFormed) (o : OpenOperation P) {e : Entity}
    {i : Instance P} (hi : b.get? e = some i) :
    ∃ baseline, b.ensureBaseline o e = .ok { o with baseline } := by
  by_cases hdone : b.Enrolled o e
  · exact ⟨o.baseline, ensureBaseline_of_enrolled hdone⟩
  · obtain ⟨cl, hcl, _⟩ := (hb.fits e i hi).known
    exact ⟨_, ensureBaseline_of_live hb hdone hi hcl⟩

/-- Nothing else is possible. -/
theorem ensureBaseline_cases {b : Book P} (hb : b.WellFormed) {o o' : OpenOperation P} {e : Entity}
    (h : b.ensureBaseline o e = .ok o') :
    o' = o ∧ b.Enrolled o e ∨
      b.undo.cursor = 0 ∧ (∀ u ∈ o.baseline, u.entity ≠ e) ∧ ∃ cl i,
        b.registry.find? e.typeTag = some cl ∧ b.get? e = some i ∧ o' = { o with
          baseline := o.baseline ++ snapshotOf e (fun seen => seen) (valueOf i) cl.copyable } := by
  have henrolls := b.enrolls o e
  rw [h] at henrolls
  cases henrolls with
  | present done => exact Or.inl ⟨rfl, done⟩
  | @added c i entries fresh known live _ =>
    have hcl : b.registry.find? e.typeTag = some c := Registry.class?_eq_ok.mp known
    obtain ⟨hcursor, hnew⟩ := not_or.mp fresh
    refine Or.inr ⟨Nat.eq_zero_of_not_pos hcursor, ?_, c, i, hcl, live, ?_⟩
    · intro u hu he
      exact hnew ⟨u, hu, he⟩
    · exact Except.ok.inj (h.symm.trans (ensureBaseline_of_live hb fresh live hcl))

/-- The value of a parameter of an entity is restored from what is captured of it. -/
def Restorable (b : Book P) (e : Entity) (p : Param P) : Prop :=
  ∀ i v, b.get? e = some i → i.value? p.accessor = some v → v.Restorable p.kind

/-- All values of an entity are restored from what is captured of them. -/
def RestorableAll (b : Book P) (e : Entity) : Prop :=
  ∀ cl, b.registry.find? e.typeTag = some cl → ∀ p ∈ cl.copyable, b.Restorable e p

namespace Recorded

variable {b₀ b : Book P} {o : OpenOperation P}

theorem recording?_eq (h : Recorded b₀ b o) : b.recording? = some o := by
  unfold recording?
  rw [h.setup.config, if_pos h.enabled, h.log]

theorem setRecording_self (h : Recorded b₀ b o) : b.setRecording (some o) = b :=
  Book.setRecording_self h.recording?_eq

theorem cursor_eq (h : Recorded b₀ b o) : b.undo.cursor = b₀.undo.cursor := by rw [h.log]

theorem registry_eq (h : Recorded b₀ b o) : b.registry = b₀.registry := h.setup.registry

/-- An operation that was just opened. -/
theorem start (h : b.Steady) (hl : b.Lawful) (he : b.config.undoEnabled = true)
    (ha : ∀ calls i, b.backend.refusal calls i = none) (label : String) :
    Recorded b (b.startOperation label) { label } := by
  unfold startOperation
  rw [if_pos he]
  refine ⟨h, hl, he, ha, h.setRecording _, ⟨rfl, rfl, rfl, rfl⟩, rfl, rfl, ?_, ?_, ?_⟩
  · intro c hc
    cases hc
  · intro e
    have hmem (u : UndoEntry P) : u ∉ ([] : List (UndoEntry P)) := List.not_mem_nil
    -- Nothing has happened yet: what is there is old and untouched, the rest is absent.
    cases hi : b.get? e with
    | none => exact .absent hi hi (hmem _) (hmem _) fun _ => rfl
    | some i =>
      refine .live i i (.old i hi (hmem _)) hi (hmem _) ?_
      intro cl _ p _ v₀ v hv₀ hv
      exact .untouched (Option.some.inj (hv.symm.trans hv₀))
  · refine ⟨?_, ?_, ?_, ?_⟩
    · intro u hu
      cases hu
    · intro c hc
      cases hc
    · intro e i₀ _ cl _ p _ v₀ _
      exact Or.inl rfl
    · intro _ e name _ hcell
      exact absurd rfl hcell

/-- An entity that is there and was not added to the baseline has not changed. -/
theorem valueOf_eq (h : Recorded b₀ b o) (hcursor : b₀.undo.cursor = 0) {e : Entity}
    (hnew : ∀ u ∈ o.baseline, u.entity ≠ e) {i₀ i : Instance P} (hi₀ : b₀.get? e = some i₀)
    (hi : b.get? e = some i) {cl : ObjectClass P}
    (hcl : b₀.registry.find? e.typeTag = some cl) {p : Param P} (hp : p ∈ cl.copyable)
    {v₀ : ParamValue} (hv₀ : i₀.value? p.accessor = some v₀) : valueOf i p = v₀ := by
  have hv := h.steady.wellFormed.exists_value hi (h.registry_eq ▸ hcl) hp
  cases h.life e with
  | absent _ now | gone _ _ now | passed _ now =>
    rw [now] at hi
    cases hi
  | live i₁ j origin now notGone cells =>
    cases now.symm.trans hi
    cases origin with
    | new _ _ before =>
      rw [before] at hi₀
      cases hi₀
    | old _ before =>
      cases before.symm.trans hi₀
      have hcell := cells cl hcl p hp v₀ _ hv₀ hv
      -- A recorded change would have put the entity into the baseline.
      by_cases hnil : cell o.entries e p.name = []
      · rw [hnil] at hcell
        cases hcell with
        | untouched same => exact same
      · obtain ⟨u, hu, hue⟩ := h.baseline.covers hcursor e p.name notGone hnil
        exact absurd hue (hnew u hu)

/-- The baseline with one more entity, which has not changed. -/
theorem baseline_append (h : Recorded b₀ b o) (hcursor : b₀.undo.cursor = 0) {e : Entity}
    (hnew : ∀ u ∈ o.baseline, u.entity ≠ e) {i : Instance P} (hi : b.get? e = some i)
    {cl : ObjectClass P} (hcl : b.registry.find? e.typeTag = some cl) (hr : b.RestorableAll e) :
    Baseline b₀ { o with
      baseline := o.baseline ++ snapshotOf e (fun seen => seen) (valueOf i) cl.copyable } where
  changes := by
    intro u hu
    rcases List.mem_append.mp hu with hu | hu
    · exact h.baseline.changes u hu
    · obtain ⟨p, _, c, hc, rfl⟩ := mem_snapshotOf hu
      exact ⟨c, rfl, (mem_captured hc).2.2.2.1⟩
  fits := by
    intro c hc
    rcases List.mem_append.mp hc with hc | hc
    · exact h.baseline.fits c hc
    · exact (h.steady.wellFormed.fitEntries_snapshotOf hi hcl _).of_setup h.setup.symm c hc
  same := by
    intro e' i₀ hi₀ cl' hcl' p hp v₀ hv₀
    have hcl₀ : b₀.registry.find? e.typeTag = some cl := h.registry_eq ▸ hcl
    dsimp only
    rw [cell_append]
    by_cases he : e' = e
    · subst he
      cases hcl'.symm.trans hcl₀
      -- The entity joins the baseline with the values that it had at first.
      have hold : cell o.baseline e' p.name = [] := by
        refine List.eq_nil_iff_forall_not_mem.mpr ?_
        intro c hc
        obtain ⟨hm, hce, _⟩ := mem_cell.mp hc
        exact hnew _ hm hce
      have hnodup := ObjectClass.nodup_copyable (h.steady.wellFormed.registry.of_find? hcl)
      have hsame := h.valueOf_eq hcursor hnew hi₀ hi hcl₀ hp hv₀
      right
      refine ⟨?_, ?_⟩
      · rw [← hsame]
        exact hr cl hcl p hp i _ hi (h.steady.wellFormed.exists_value hi hcl hp)
      · rw [hold, List.nil_append, cell_snapshotOf_self _ _ _ hnodup hp, hsame]
    · rw [cell_snapshotOf_of_ne he, List.append_nil]
      exact h.baseline.same e' i₀ hi₀ cl' hcl' p hp v₀ hv₀
  covers := by
    intro _ e' name hgone hcell
    obtain ⟨u, hu, he⟩ := h.baseline.covers hcursor e' name hgone hcell
    exact ⟨u, List.mem_append_left _ hu, he⟩

/-- A snapshot holds something of an entity with a parameter that is no side-table. -/
theorem exists_mem_snapshotOf (h : Recorded b₀ b o) {e : Entity} {i : Instance P}
    (hi : b.get? e = some i) {cl : ObjectClass P} (hcl : b.registry.find? e.typeTag = some cl)
    {p : Param P} (hp : p ∈ cl.copyable) (hs : p.isSlots = false) :
    ∃ u ∈ snapshotOf e (fun seen => seen) (valueOf i) cl.copyable, u.entity = e := by
  have hkind := Instance.hasKind_value (h.steady.wellFormed.exists_value hi hcl hp)
  have hnodup := ObjectClass.nodup_copyable (h.steady.wellFormed.registry.of_find? hcl)
  have hne : cell (snapshotOf e (fun seen => seen) (valueOf i) cl.copyable) e p.name ≠ [] := by
    rw [cell_snapshotOf_self e (fun seen => seen) (valueOf i) hnodup hp]
    unfold captured
    rw [ParamValue.captures_eq hkind hs]
    simp
  obtain ⟨c, hc⟩ := List.exists_mem_of_ne_nil _ hne
  obtain ⟨hm, he, _⟩ := mem_cell.mp hc
  exact ⟨_, hm, he⟩

/-- Adding an entity to the baseline. -/
theorem ensureBaseline (h : Recorded b₀ b o) {e : Entity} {o' : OpenOperation P}
    (hb : b.ensureBaseline o e = .ok o') (hr : b₀.undo.cursor = 0 → b.RestorableAll e) :
    Recorded b₀ (b.setRecording (some o')) o' ∧ o'.entries = o.entries ∧
      ∀ cl, b.registry.find? e.typeTag = some cl → ∀ p ∈ cl.copyable, p.isSlots = false →
        b₀.undo.cursor = 0 → ∃ u ∈ o'.baseline, u.entity = e := by
  have hcases := ensureBaseline_cases h.steady.wellFormed hb
  rw [h.cursor_eq] at hcases
  -- Nothing is added, or a snapshot of an entity that was not there before.
  rcases hcases with ⟨rfl, hdone⟩ | ⟨hcursor, hnew, cl, i, hcl, hi, rfl⟩
  · refine ⟨?_, rfl, ?_⟩
    · rw [h.setRecording_self]
      exact h
    · intro cl _ p _ _ hcursor
      refine hdone.resolve_left ?_
      rw [h.cursor_eq, hcursor]
      exact Nat.not_lt_zero 0
  · refine ⟨⟨h.initial, h.lawful, h.enabled, h.accepting, h.steady.setRecording _,
      h.setup.trans ⟨rfl, rfl, rfl, rfl⟩, ?_, h.unwatched, h.fits, ?_, ?_⟩, rfl, ?_⟩
    · unfold setRecording
      rw [h.log]
    · intro e'
      exact (h.life e').congr (fun j hj => ⟨j, hj, fun _ => rfl⟩) (fun hn => hn) Iff.rfl Iff.rfl
        fun _ => rfl
    · exact h.baseline_append hcursor hnew hi hcl (hr hcursor)
    · intro cl' hcl' p hp hs _
      cases hcl'.symm.trans hcl
      obtain ⟨u, hu, he⟩ := h.exists_mem_snapshotOf hi hcl hp hs
      exact ⟨u, List.mem_append_right _ hu, he⟩

end Recorded

end Book

end EntityBook
