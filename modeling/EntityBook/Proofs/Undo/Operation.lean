import EntityBook.Proofs.Undo.Steps

/-! # Replaying an operation

  `SameView` compares books by what they show: the live entities and the values
  of their copyable parameters. An operation that was recorded and closed takes
  any book that shows what there was after it back to what there was before it,
  and the other way round. The baseline of an operation changes nothing.
-/

namespace EntityBook

variable {P : PayloadFamily}

namespace Book

/-! ### Views -/

/-- The same entities are live in two books, with the same values of all
    parameters that take part in undo. -/
structure SameView (b b' : Book P) : Prop where
  registry : b'.registry = b.registry
  gone : ∀ e, b.get? e = none ↔ b'.get? e = none
  value : ∀ e i j, b.get? e = some i → b'.get? e = some j →
    ∀ cl, b.registry.find? e.typeTag = some cl → ∀ p ∈ cl.copyable,
      j.value? p.accessor = i.value? p.accessor

namespace SameView

variable {a b c : Book P}

theorem refl (b : Book P) : b.SameView b where
  registry := rfl
  gone _ := Iff.rfl
  value := by
    intro e i j hi hj _ _ _ _
    cases hi.symm.trans hj
    rfl

theorem symm (h : a.SameView b) : b.SameView a where
  registry := h.registry.symm
  gone e := (h.gone e).symm
  value := by
    intro e i j hi hj cl hcl p hp
    exact (h.value e j i hj hi cl (h.registry ▸ hcl) p hp).symm

theorem trans (h : a.SameView b) (h' : b.SameView c) : a.SameView c where
  registry := h'.registry.trans h.registry
  gone e := (h.gone e).trans (h'.gone e)
  value := by
    intro e i k hi hk cl hcl p hp
    cases hj : b.get? e with
    | none => exact absurd ((h'.gone e).mp hj) (by simp [hk])
    | some j =>
      rw [h'.value e j k hj hk cl (h.registry.symm ▸ hcl) p hp]
      exact h.value e i j hi hj cl hcl p hp

/-- An entity that is live in one of the books is live in the other. -/
theorem exists_live (h : a.SameView b) {e : Entity} {i : Instance P} (hi : a.get? e = some i) :
    ∃ j, b.get? e = some j := by
  cases hj : b.get? e with
  | none =>
    rw [(h.gone e).mpr hj] at hi
    cases hi
  | some j => exact ⟨j, rfl⟩

/-- Two books show the same if every entity does. -/
theorem of_entities (hr : b.registry = a.registry)
    (h : ∀ e, (a.get? e = none → b.get? e = none) ∧
      ∀ i, a.get? e = some i → ∃ j, b.get? e = some j ∧
        ∀ cl, a.registry.find? e.typeTag = some cl → ∀ p ∈ cl.copyable,
          j.value? p.accessor = i.value? p.accessor) : a.SameView b where
  registry := hr
  gone := by
    intro e
    refine ⟨(h e).1, ?_⟩
    intro hn
    cases hi : a.get? e with
    | none => rfl
    | some i =>
      obtain ⟨j, hj, _⟩ := (h e).2 i hi
      exact absurd (hn.symm.trans hj) (by simp)
  value := by
    intro e i j hi hj cl hcl p hp
    obtain ⟨k, hk, hvalue⟩ := (h e).2 i hi
    cases hk.symm.trans hj
    exact hvalue cl hcl p hp

/-- Books with the same instances show the same. -/
theorem of_get? (hr : b.registry = a.registry) (h : ∀ e, b.get? e = a.get? e) : a.SameView b where
  registry := hr
  gone e := by rw [h]
  value := by
    intro e i j hi hj _ _ _ _
    rw [h, hi] at hj
    cases hj
    rfl

end SameView

/-! ### Values after a replay -/

section Values

variable {b : Book P} {entries : List (UndoEntry P)} {d : Direction} {e : Entity}

/-- The values of an entity that was there before a replay. -/
theorem Steady.value?_replay_live (h : b.Steady) (hall : b.Lawful) (hfit : b.FitEntries entries)
    (hnot : e ∉ entitiesOf entries d.removed) {i : Instance P} (hi : b.get? e = some i) :
    ∃ k, (b.replay entries d).get? e = some k ∧
      ∀ cl, b.registry.find? e.typeTag = some cl → ∀ p ∈ cl.copyable, ∀ v,
        i.value? p.accessor = some v →
          k.value? p.accessor = some (d.replayValue (cell entries e p.name) v) := by
  obtain ⟨hlive, _⟩ := (h.get?_replay entries d e).2 hnot
  obtain ⟨k, hk, hsame⟩ := hlive i hi
  refine ⟨k, hk, ?_⟩
  intro cl hcl p hp v hv
  obtain ⟨cl', hcl', _, htype⟩ := (h.wellFormed.fits e i hi).known
  cases hcl'.symm.trans hcl
  rw [hsame.value?]
  exact value?_replayed h.wellFormed hfit d hcl (hall.of_find? hcl) htype hp hv

/-- The values of an entity that a replay makes. -/
theorem Steady.value?_replay_made (h : b.Steady) (hall : b.Lawful) (hfit : b.FitEntries entries)
    (hnot : e ∉ entitiesOf entries d.removed) (hnone : b.get? e = none)
    (hmem : e ∈ entitiesOf entries d.made) {cl : ObjectClass P} {payload : Payload P}
    (hmakes : b.Makes e cl payload) :
    ∃ k, (b.replay entries d).get? e = some k ∧
      ∀ p ∈ cl.copyable, ∀ v, (b.newborn e payload).value? p.accessor = some v →
        k.value? p.accessor = some (d.replayValue (cell entries e p.name) v) := by
  obtain ⟨_, _, hmade⟩ := (h.get?_replay entries d e).2 hnot
  obtain ⟨k, hk, hsame⟩ := hmade hnone hmem cl payload hmakes
  refine ⟨k, hk, ?_⟩
  intro p hp v hv
  have htype : (b.newborn e payload).payload.type = cl.payloadType :=
    ObjectClass.type_of_initialPayload hmakes.payload
  rw [hsame.value?]
  exact value?_replayed h.wellFormed hfit d hmakes.found (hall.of_find? hmakes.found) htype hp hv

/-- Every parameter of a new instance has a value. -/
theorem Makes.exists_value {cl : ObjectClass P} {payload : Payload P} (h : b.Makes e cl payload)
    {p : Param P} (hp : p ∈ cl.copyable) :
    ∃ v, (b.newborn e payload).value? p.accessor = some v := by
  refine Instance.exists_value ?_
  rw [show (b.newborn e payload).payload.type = cl.payloadType from
    ObjectClass.type_of_initialPayload h.payload]
  exact ObjectClass.isFor_of_mem_params (ObjectClass.mem_params_of_mem_copyable hp)

/-- A new instance has an empty side-table, so that any value can be restored on
    top of what it has. -/
theorem gives_of_newborn {payload : Payload P} {p : Param P} {v w : ParamValue}
    (hv : v.HasKind p.kind) (hw : (b.newborn e payload).value? p.accessor = some w) :
    w.Gives v := by
  cases v with
  | slots f =>
    have ha := Instance.accessor_of_isSlots (ParamValue.isSlots_of_hasKind hv)
    rw [ha] at hw
    cases hw
    exact Or.inl rfl
  | _ => trivial

end Values

/-! ### Closed operations -/

theorem mem_entitiesOf {entries : List (UndoEntry P)} {a : UndoAction} {e : Entity} :
    e ∈ entitiesOf entries a ↔ ∃ u ∈ entries, u.action = a ∧ u.entity = e := by
  unfold entitiesOf
  simp only [List.mem_map, List.mem_filter, beq_iff_eq, and_assoc]

theorem mem_entitiesOf_create {entries : List (UndoEntry P)} {e : Entity} :
    e ∈ entitiesOf entries .create ↔ UndoEntry.deleted e ∈ entries := by
  rw [mem_entitiesOf]
  constructor
  · rintro ⟨u, hu, ha, rfl⟩
    cases u with
    | created e' => cases ha
    | deleted e' => exact hu
    | changed c => cases hk : c.kept <;> simp [UndoEntry.action, hk] at ha
  · intro h
    exact ⟨_, h, rfl, rfl⟩

theorem mem_entitiesOf_delete {entries : List (UndoEntry P)} {e : Entity} :
    e ∈ entitiesOf entries .delete ↔ UndoEntry.created e ∈ entries := by
  rw [mem_entitiesOf]
  constructor
  · rintro ⟨u, hu, ha, rfl⟩
    cases u with
    | created e' => exact hu
    | deleted e' => cases ha
    | changed c => cases hk : c.kept <;> simp [UndoEntry.action, hk] at ha
  · intro h
    exact ⟨_, h, rfl, rfl⟩

/-- Entries that only change values make and remove nothing. -/
theorem entitiesOf_of_changes {entries : List (UndoEntry P)}
    (h : ∀ u ∈ entries, ∃ c, u = .changed c) (d : Direction) :
    entitiesOf entries d.made = [] ∧ entitiesOf entries d.removed = [] := by
  have hcreate : entitiesOf entries .create = [] := by
    refine List.eq_nil_iff_forall_not_mem.mpr ?_
    intro e he
    obtain ⟨c, hc⟩ := h _ (mem_entitiesOf_create.mp he)
    cases hc
  have hdelete : entitiesOf entries .delete = [] := by
    refine List.eq_nil_iff_forall_not_mem.mpr ?_
    intro e he
    obtain ⟨c, hc⟩ := h _ (mem_entitiesOf_delete.mp he)
    cases hc
  cases d with
  | undo => exact ⟨hcreate, hdelete⟩
  | redo => exact ⟨hdelete, hcreate⟩

/-- So replaying them only restores values. -/
theorem replay_of_changes {entries : List (UndoEntry P)}
    (h : ∀ u ∈ entries, ∃ c, u = .changed c) (b : Book P) (d : Direction) :
    b.replay entries d = (b.suspend.restoreAll d.side (changesOf entries d)).resume := by
  obtain ⟨hmade, hremoved⟩ := entitiesOf_of_changes h d
  rw [replay_eq, hmade, hremoved]
  rfl

theorem Revises.replay_of_changes {entries : List (UndoEntry P)}
    (h : ∀ u ∈ entries, ∃ c, u = .changed c) {b : Book P} (hb : b.WellFormed) (d : Direction) :
    b.Revises (b.replay entries d) := by
  have hsus := Revises.suspend b
  have hres := Revises.restoreAll (hsus.wellFormed hb) d.side (changesOf entries d)
  rw [Book.replay_of_changes h]
  exact (hsus.trans hres).trans (.resume _)

theorem mem_map_close {b : Book P} {entries : List (UndoEntry P)} {u : UndoEntry P}
    (hu : ∀ c, u ≠ .changed c) : u ∈ entries.map b.close ↔ u ∈ entries := by
  rw [List.mem_map]
  constructor
  · intro h
    obtain ⟨v, hv, heq⟩ := h
    cases v with
    | created _ | deleted _ => exact heq ▸ hv
    | changed c => exact absurd heq.symm (hu _)
  · intro h
    cases u with
    | created _ | deleted _ => exact ⟨_, h, rfl⟩
    | changed c => exact absurd rfl (hu c)

theorem FitEntries.close {b₀ b : Book P} {entries : List (UndoEntry P)}
    (h : b₀.FitEntries entries) : b₀.FitEntries (entries.map b.close) := by
  intro c hc
  obtain ⟨u, hu, heq⟩ := List.mem_map.mp hc
  cases u with
  | created _ | deleted _ => cases heq
  | changed d =>
    cases heq
    obtain ⟨cl, hcl, hfits⟩ := h d hu
    exact ⟨cl, hcl, hfits.param, hfits.path⟩

/-- Restoring what a baseline captured of a value gives the value. -/
theorem Baseline.replayValue {b₀ : Book P} {o : OpenOperation P} (h : Baseline b₀ o)
    (d : Direction) {e : Entity} {i₀ : Instance P} (hi₀ : b₀.get? e = some i₀)
    {cl : ObjectClass P} (hcl : b₀.registry.find? e.typeTag = some cl) {p : Param P}
    (hp : p ∈ cl.copyable) {v : ParamValue} (hv : i₀.value? p.accessor = some v) :
    d.replayValue (cell o.baseline e p.name) v = v := by
  -- The value was not captured, or all its captures are of the value it has.
  rcases h.same e i₀ hi₀ cl hcl p hp v hv with hnil | ⟨hrest, hcell⟩
  · rw [hnil]
    cases d <;> rfl
  · have hparam : ∀ c ∈ captured e p (fun seen => seen) v, c.param = p := by
      intro c hc
      exact (mem_captured hc).2.1
    have hseen : (captured e p (fun seen => seen) v).map (fun c => (c.path, d.side c)) =
        v.captures := by
      unfold captured
      rw [List.map_map]
      cases d <;> exact List.map_id _
    unfold Direction.replayValue
    rw [hcell, filter_captured]
    cases d with
    | undo =>
      refine ParamValue.foldl_restored_captures _ hrest (.refl _) ?_ (Or.inr ?_)
      · intro c hc
        exact hparam c (List.mem_reverse.mp hc)
      · rw [List.map_reverse, hseen]
    | redo => exact ParamValue.foldl_restored_captures _ hrest (.refl _) hparam (Or.inl hseen)

namespace Recorded

variable {b₀ b b' : Book P} {o : OpenOperation P}

theorem made_iff (b : Book P) (entries : List (UndoEntry P)) (e : Entity) :
    e ∈ entitiesOf (entries.map b.close) .delete ↔ UndoEntry.created e ∈ entries := by
  rw [mem_entitiesOf_delete]
  refine mem_map_close ?_
  intro c hc
  cases hc

theorem gone_iff (b : Book P) (entries : List (UndoEntry P)) (e : Entity) :
    e ∈ entitiesOf (entries.map b.close) .create ↔ UndoEntry.deleted e ∈ entries := by
  rw [mem_entitiesOf_create]
  refine mem_map_close ?_
  intro c hc
  cases hc

/-- The changes of a cell are about its entity. -/
theorem entity_of_mem_cell {entries : List (UndoEntry P)} {e : Entity} {name : String} :
    ∀ c ∈ cell entries e name, c.entity = e := by
  intro c hc
  exact (mem_cell.mp hc).2.1

/-- The values that an entity had at first. -/
theorem exists_first (h : Recorded b₀ b o) {e : Entity} {i₀ : Instance P}
    (horigin : Origin b₀ o.entries e i₀) {cl : ObjectClass P}
    (hcl : b₀.registry.find? e.typeTag = some cl) {p : Param P} (hp : p ∈ cl.copyable) :
    ∃ v₀, i₀.value? p.accessor = some v₀ := by
  cases horigin with
  | old _ before => exact ⟨_, h.initial.wellFormed.exists_value before hcl hp⟩
  | new cl' payload _ _ makes =>
    cases makes.found.symm.trans hcl
    exact makes.exists_value hp

/-- Undo, seen from a book that shows what there was at the end. -/
theorem undo (h : Recorded b₀ b o) (hs : b'.Steady) (hsetup : b.SameSetup b')
    (hview : b.SameView b') : b₀.SameView (b'.replay (o.entries.map b.close) .undo) := by
  have hset : b₀.SameSetup b' := h.setup.trans hsetup
  have hall : b'.Lawful := h.lawful.of_setup hset
  have hfit : b'.FitEntries (o.entries.map b.close) := (h.fits.close).of_setup hset
  have hreg : (b'.replay (o.entries.map b.close) .undo).registry = b₀.registry :=
    (hs.replay _ _).2.1.registry.trans hset.registry
  refine .of_entities hreg ?_
  intro e
  have hremoved := (hs.get?_replay (o.entries.map b.close) .undo e).1
  -- Entity by entity, by what became of it in the operation.
  cases h.life e with
  | absent before now notMade notGone _ =>
    refine ⟨?_, fun i₀ hi₀ => absurd (before.symm.trans hi₀) (by simp)⟩
    intro _
    have hkept := (hs.get?_replay (o.entries.map b.close) .undo e).2
      (fun hm => notMade ((made_iff b _ e).mp hm))
    exact hkept.2.1 ((hview.gone e).mp now) fun hm => notGone ((gone_iff b _ e).mp hm)
  | live i₀ i origin now notGone cells =>
    cases origin with
    | new cl payload before isMade makes =>
      refine ⟨fun _ => hremoved ((made_iff b _ e).mpr isMade), ?_⟩
      intro i₁ hi₁
      exact absurd (before.symm.trans hi₁) (by simp)
    | old _ before notMade =>
      refine ⟨fun hn => absurd (hn.symm.trans before) (by simp), ?_⟩
      intro i₁ hi₁
      cases before.symm.trans hi₁
      obtain ⟨j, hj⟩ := hview.exists_live now
      obtain ⟨k, hk, hvalue⟩ := hs.value?_replay_live (d := .undo) hall hfit
        (fun hm => notMade ((made_iff b _ e).mp hm)) hj
      refine ⟨k, hk, ?_⟩
      intro cl hcl p hp
      have hv₀ := h.initial.wellFormed.exists_value before hcl hp
      have hv := h.steady.wellFormed.exists_value now (h.registry_eq ▸ hcl) hp
      have hvj := (hview.value e i j now hj cl (h.registry_eq ▸ hcl) p hp).trans hv
      rw [hvalue cl (hset.registry ▸ hcl) p hp _ hvj, cell_close, hv₀]
      exact congrArg some ((cells cl hcl p hp _ _ hv₀ hv).undo entity_of_mem_cell now hv)
  -- Made anew, so its values are those of the class until the restores.
  | gone i₀ before now notMade isGone cells =>
    refine ⟨fun hn => absurd (hn.symm.trans before) (by simp), ?_⟩
    intro i₁ hi₁
    cases before.symm.trans hi₁
    obtain ⟨cl, payload, makes, _⟩ := h.initial.wellFormed.exists_makes before
    obtain ⟨k, hk, hvalue⟩ := hs.value?_replay_made (d := .undo) hall hfit
      (fun hm => notMade ((made_iff b _ e).mp hm)) ((hview.gone e).mp now)
      ((gone_iff b _ e).mpr isGone) (makes.of_setup hset)
    refine ⟨k, hk, ?_⟩
    intro cl' hcl p hp
    cases makes.found.symm.trans hcl
    have hv₀ := h.initial.wellFormed.exists_value before hcl hp
    obtain ⟨w, hw⟩ := (makes.of_setup hset).exists_value hp
    have hgives := gives_of_newborn (Instance.hasKind_value hv₀) hw
    rw [hvalue p hp w hw, cell_close, hv₀]
    exact congrArg some ((cells cl hcl p hp _ hv₀).undo entity_of_mem_cell now hgives)
  | passed before now isMade isGone =>
    refine ⟨fun _ => hremoved ((made_iff b _ e).mpr isMade), ?_⟩
    intro i₁ hi₁
    exact absurd (before.symm.trans hi₁) (by simp)

/-- Redo, seen from a book that shows what there was at first. -/
theorem redo (h : Recorded b₀ b o) (hs : b'.Steady) (hset : b₀.SameSetup b')
    (hview : b₀.SameView b') : b.SameView (b'.replay (o.entries.map b.close) .redo) := by
  have hall : b'.Lawful := h.lawful.of_setup hset
  have hfit : b'.FitEntries (o.entries.map b.close) := (h.fits.close).of_setup hset
  have hreg : (b'.replay (o.entries.map b.close) .redo).registry = b.registry :=
    ((hs.replay _ _).2.1.registry.trans hset.registry).trans h.registry_eq.symm
  refine .of_entities hreg ?_
  rw [h.registry_eq]
  intro e
  have hremoved := (hs.get?_replay (o.entries.map b.close) .redo e).1
  -- Entity by entity, by what became of it in the operation.
  cases h.life e with
  | absent before now notMade notGone _ =>
    refine ⟨?_, fun i hi => absurd (now.symm.trans hi) (by simp)⟩
    intro _
    have hkept := (hs.get?_replay (o.entries.map b.close) .redo e).2
      (fun hm => notGone ((gone_iff b _ e).mp hm))
    exact hkept.2.1 ((hview.gone e).mp before) fun hm => notMade ((made_iff b _ e).mp hm)
  | live i₀ i origin now notGone cells =>
    refine ⟨fun hn => absurd (hn.symm.trans now) (by simp), ?_⟩
    intro i₁ hi₁
    cases now.symm.trans hi₁
    have hnot : e ∉ entitiesOf (o.entries.map b.close) Direction.redo.removed :=
      fun hm => notGone ((gone_iff b _ e).mp hm)
    -- Old and new entities end alike: with the values that the close recorded.
    have hlast {k : Instance P} {cl : ObjectClass P}
        (hcl : b₀.registry.find? e.typeTag = some cl) {p : Param P} (hp : p ∈ cl.copyable)
        (hk : ∀ v₀, i₀.value? p.accessor = some v₀ → k.value? p.accessor =
          some (Direction.redo.replayValue (cell (o.entries.map b.close) e p.name) v₀)) :
        k.value? p.accessor = i.value? p.accessor := by
      obtain ⟨v₀, hv₀⟩ := h.exists_first origin hcl hp
      have hv := h.steady.wellFormed.exists_value now (h.registry_eq ▸ hcl) hp
      rw [hk v₀ hv₀, cell_close, hv]
      exact congrArg some ((cells cl hcl p hp _ _ hv₀ hv).redo entity_of_mem_cell now hv)
    cases origin with
    | old _ before notMade =>
      obtain ⟨j, hj⟩ := hview.exists_live before
      obtain ⟨k, hk, hvalue⟩ := hs.value?_replay_live hall hfit hnot hj
      refine ⟨k, hk, ?_⟩
      intro cl hcl p hp
      refine hlast hcl hp ?_
      intro v₀ hv₀
      refine hvalue cl (hset.registry ▸ hcl) p hp v₀ ?_
      exact (hview.value e i₀ j before hj cl hcl p hp).trans hv₀
    | new cl payload before isMade makes =>
      obtain ⟨k, hk, hvalue⟩ := hs.value?_replay_made (d := .redo) hall hfit hnot
        ((hview.gone e).mp before) ((made_iff b _ e).mpr isMade) (makes.of_setup hset)
      refine ⟨k, hk, ?_⟩
      intro cl' hcl p hp
      cases makes.found.symm.trans hcl
      refine hlast hcl hp ?_
      intro v₀ hv₀
      refine hvalue p hp v₀ ?_
      rw [hset.newborn]
      exact hv₀
  | gone i₀ before now notMade isGone cells =>
    refine ⟨fun _ => hremoved ((gone_iff b _ e).mpr isGone), ?_⟩
    intro i hi
    exact absurd (now.symm.trans hi) (by simp)
  | passed before now isMade isGone =>
    refine ⟨fun _ => hremoved ((gone_iff b _ e).mpr isGone), ?_⟩
    intro i hi
    exact absurd (now.symm.trans hi) (by simp)

/-- The baseline, seen from a book that shows what there was at first. -/
theorem baseline_replay (h : Recorded b₀ b o) (d : Direction) (hs : b'.Steady)
    (hset : b₀.SameSetup b') (hview : b₀.SameView b') : b₀.SameView (b'.replay o.baseline d) := by
  have hall : b'.Lawful := h.lawful.of_setup hset
  have hfit : b'.FitEntries o.baseline := h.baseline.fits.of_setup hset
  -- A baseline holds values only: nothing is made or removed by it.
  have hchanges : ∀ u ∈ o.baseline, ∃ c, u = .changed c := fun u hu =>
    (h.baseline.changes u hu).imp fun _ hc => hc.1
  obtain ⟨hmadeNil, hremovedNil⟩ := entitiesOf_of_changes hchanges d
  have hremoved (e : Entity) : e ∉ entitiesOf o.baseline d.removed := by simp [hremovedNil]
  have hmade (e : Entity) : e ∉ entitiesOf o.baseline d.made := by simp [hmadeNil]
  have hkept (e : Entity) := (hs.get?_replay o.baseline d e).2 (hremoved e)
  refine .of_entities ((hs.replay _ _).2.1.registry.trans hset.registry) ?_
  intro e
  constructor
  · intro hn
    exact (hkept e).2.1 ((hview.gone e).mp hn) (hmade e)
  · intro i₀ hi₀
    obtain ⟨i, hi⟩ := hview.exists_live hi₀
    obtain ⟨k, hk, hvalue⟩ := hs.value?_replay_live hall hfit (hremoved e) hi
    refine ⟨k, hk, ?_⟩
    intro cl hcl p hp
    have hv₀ := h.initial.wellFormed.exists_value hi₀ hcl hp
    have hvi := (hview.value e i₀ i hi₀ hi cl hcl p hp).trans hv₀
    rw [hvalue cl (hset.registry ▸ hcl) p hp _ hvi, hv₀]
    exact congrArg some (h.baseline.replayValue d hi₀ hcl hp hv₀)

end Recorded

end Book

end EntityBook
