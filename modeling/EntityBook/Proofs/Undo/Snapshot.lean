import EntityBook.Proofs.Undo.Cell

/-! # Snapshots

  A snapshot of parameters holds, for each of them, the captures of its value,
  and nothing else. So its part for one parameter is known, which is all that an
  operation looks at later.
-/

namespace EntityBook

variable {P : PayloadFamily}

namespace Book

/-! ### Parts of a list of entries -/

@[simp] theorem cell_nil (e : Entity) (name : String) :
    cell ([] : List (UndoEntry P)) e name = [] := rfl

theorem cell_append (xs ys : List (UndoEntry P)) (e : Entity) (name : String) :
    cell (xs ++ ys) e name = cell xs e name ++ cell ys e name := by
  unfold cell
  rw [List.filterMap_append, List.filter_append]

theorem cell_created (e' : Entity) (us : List (UndoEntry P)) (e : Entity) (name : String) :
    cell (.created e' :: us) e name = cell us e name := rfl

theorem cell_deleted (e' : Entity) (us : List (UndoEntry P)) (e : Entity) (name : String) :
    cell (.deleted e' :: us) e name = cell us e name := rfl

theorem mem_cell {entries : List (UndoEntry P)} {e : Entity} {name : String} {c : Change P} :
    c ∈ cell entries e name ↔
      UndoEntry.changed c ∈ entries ∧ c.entity = e ∧ c.param.name = name := by
  unfold cell
  rw [List.mem_filter, mem_change?]
  simp

/-- A list of entries has a part for a parameter if one of them is about it. -/
theorem any_targets {entries : List (UndoEntry P)} {e : Entity} {name : String} :
    (entries.any fun u => u.targets e name) = true ↔ cell entries e name ≠ [] := by
  rw [List.any_eq_true]
  constructor
  · intro h
    obtain ⟨u, hu, ht⟩ := h
    cases u with
    | created _ | deleted _ => cases ht
    | changed c =>
      have ht : c.entity = e ∧ c.param.name = name := by simpa [UndoEntry.targets] using ht
      exact List.ne_nil_of_mem (mem_cell.mpr ⟨hu, ht⟩)
  · intro h
    obtain ⟨c, hc⟩ := List.exists_mem_of_ne_nil _ h
    obtain ⟨hm, he, hn⟩ := mem_cell.mp hc
    exact ⟨_, hm, by simp [UndoEntry.targets, he, hn]⟩

theorem not_any_targets {entries : List (UndoEntry P)} {e : Entity} {name : String} :
    ¬ (entries.any fun u => u.targets e name) = true ↔ cell entries e name = [] := by
  rw [any_targets, not_not]

/-! ### The entries of a snapshot -/

/-- The captures of a value as changes of a parameter. -/
def captured (e : Entity) (p : Param P) (after : Capture → Capture) (v : ParamValue) :
    List (Change P) :=
  v.captures.map fun x =>
    { entity := e, param := p, path := x.1, before := x.2, after := after x.2 }

theorem mem_captured {e : Entity} {p : Param P} {after : Capture → Capture} {v : ParamValue}
    {c : Change P} (h : c ∈ captured e p after v) :
    c.entity = e ∧ c.param = p ∧ c.after = after c.before ∧ c.kept = false ∧
      (c.path, c.before) ∈ v.captures := by
  obtain ⟨x, hx, rfl⟩ := List.mem_map.mp h
  exact ⟨rfl, rfl, rfl, rfl, hx⟩

theorem map_before_captured (e : Entity) (p : Param P) (after : Capture → Capture)
    (v : ParamValue) : (captured e p after v).map (fun c => (c.path, c.before)) = v.captures := by
  unfold captured
  rw [List.map_map]
  exact List.map_id _

/-- All of them are replayed. -/
theorem filter_captured (e : Entity) (p : Param P) (after : Capture → Capture) (v : ParamValue) :
    (captured e p after v).filter (fun c => !c.kept) = captured e p after v := by
  apply List.filter_eq_self.mpr
  intro c hc
  simp [(mem_captured hc).2.2.2.1]

/-- The captures of an entity that is about to be deleted. -/
theorem lastSeen_captured (e : Entity) {p : Param P} {v : ParamValue} (h : v.Restorable p.kind) :
    LastSeen p v (captured e p (fun _ => .absent) v) where
  restorable := h
  param := by
    intro c hc
    exact (mem_captured hc).2.1
  before := map_before_captured e p _ v
  after := by
    intro c hc
    exact (mem_captured hc).2.2.1

/-- Only captures of a side-table have paths. -/
theorem isSome_path_of_mem_captures {p : Param P} {v : ParamValue} (hk : v.HasKind p.kind)
    {x : Option String × Capture} (hx : x ∈ v.captures) : x.1.isSome = p.isSlots := by
  have hslots : p.isSlots = p.accessor.isSlots := rfl
  unfold Param.kind at hk
  rw [hslots]
  cases hacc : p.accessor <;> rw [hacc] at hk <;> cases v <;> first
    | exact False.elim hk
    | (obtain ⟨y, _, rfl⟩ := List.mem_map.mp hx
       rfl)
    | (cases List.mem_singleton.mp hx
       rfl)

theorem cell_captured_self (e : Entity) (p : Param P) (after : Capture → Capture)
    (v : ParamValue) :
    cell ((captured e p after v).map .changed) e p.name = captured e p after v := by
  unfold cell
  rw [List.filterMap_map]
  have hid : (UndoEntry.change? ∘ UndoEntry.changed : Change P → Option (Change P)) = some := rfl
  rw [hid, List.filterMap_some]
  refine List.filter_eq_self.mpr ?_
  intro c hc
  obtain ⟨he, hp, _⟩ := mem_captured hc
  simp [he, hp]

theorem cell_captured_of_ne {e e' : Entity} {p : Param P} {after : Capture → Capture}
    {v : ParamValue} {name : String} (h : ¬ (e' = e ∧ name = p.name)) :
    cell ((captured e p after v).map .changed) e' name = [] := by
  refine List.eq_nil_iff_forall_not_mem.mpr ?_
  intro c hc
  obtain ⟨hm, he, hn⟩ := mem_cell.mp hc
  obtain ⟨d, hd, hcd⟩ := List.mem_map.mp hm
  cases hcd
  obtain ⟨he', hp, _⟩ := mem_captured hd
  exact h ⟨he.symm.trans he', by rw [← hn, hp]⟩

/-- The entries of a snapshot, given the values. -/
def snapshotOf (e : Entity) (after : Capture → Capture) (value : Param P → ParamValue)
    (ps : List (Param P)) : List (UndoEntry P) :=
  ps.flatMap fun p => (captured e p after (value p)).map .changed

/-- A snapshot of parameters that can be read. -/
theorem snapshots_eq (e : Entity) (i : Instance P) (after : Capture → Capture)
    {value : Param P → ParamValue} {ps : List (Param P)}
    (h : ∀ p ∈ ps, i.value? p.accessor = some (value p)) :
    snapshots e i after ps = .ok (snapshotOf e after value ps) := by
  induction ps with
  | nil => rfl
  | cons p rest ih =>
    have hrest : ∀ q ∈ rest, i.value? q.accessor = some (value q) := by
      intro q hq
      exact h q (List.mem_cons_of_mem p hq)
    unfold snapshots
    rw [snapshot_eq (h p List.mem_cons_self), ih hrest]
    show Except.ok (_ ++ _) = _
    unfold snapshotOf captured
    rw [List.flatMap_cons, List.map_map]
    rfl

theorem snapshots_singleton (e : Entity) {i : Instance P} (after : Capture → Capture) {p : Param P}
    {v : ParamValue} (h : i.value? p.accessor = some v) :
    snapshots e i after [p] = .ok ((captured e p after v).map .changed) := by
  have hvalues : ∀ q ∈ [p], i.value? q.accessor = some v := by
    intro q hq
    rw [List.mem_singleton.mp hq]
    exact h
  rw [snapshots_eq e i after hvalues]
  unfold snapshotOf
  rw [List.flatMap_singleton]

theorem mem_snapshotOf {e : Entity} {after : Capture → Capture} {value : Param P → ParamValue}
    {ps : List (Param P)} {u : UndoEntry P} (h : u ∈ snapshotOf e after value ps) :
    ∃ p ∈ ps, ∃ c ∈ captured e p after (value p), u = .changed c := by
  obtain ⟨p, hp, hu⟩ := List.mem_flatMap.mp h
  obtain ⟨c, hc, rfl⟩ := List.mem_map.mp hu
  exact ⟨p, hp, c, hc, rfl⟩

/-- The part of a snapshot for one of its parameters. -/
theorem cell_snapshotOf_self (e : Entity) (after : Capture → Capture)
    (value : Param P → ParamValue) {ps : List (Param P)} (hps : (ps.map Param.name).Nodup)
    {p : Param P} (hp : p ∈ ps) :
    cell (snapshotOf e after value ps) e p.name = captured e p after (value p) := by
  induction ps with
  | nil => cases hp
  | cons q rest ih =>
    obtain ⟨hq, hrest⟩ := List.nodup_cons.mp hps
    unfold snapshotOf
    rw [List.flatMap_cons, cell_append]
    -- The names differ from each other, so the parameter has captures in one place only.
    by_cases hpq : p = q
    · subst hpq
      have hnone : cell (snapshotOf e after value rest) e p.name = [] := by
        refine List.eq_nil_iff_forall_not_mem.mpr ?_
        intro c hc
        obtain ⟨hm, _, hn⟩ := mem_cell.mp hc
        obtain ⟨r, hr, d, hd, hcd⟩ := mem_snapshotOf hm
        cases hcd
        refine hq ?_
        rw [← hn, (mem_captured hd).2.1]
        exact List.mem_map.mpr ⟨r, hr, rfl⟩
      unfold snapshotOf at hnone
      rw [cell_captured_self, hnone, List.append_nil]
    · have hmem := (List.mem_cons.mp hp).resolve_left hpq
      have hname : p.name ≠ q.name := by
        intro hn
        exact hq (hn ▸ List.mem_map.mpr ⟨p, hmem, rfl⟩)
      rw [cell_captured_of_ne (by simp [hname]), List.nil_append]
      exact ih hrest hmem

/-- A snapshot is about one entity. -/
theorem cell_snapshotOf_of_ne {e e' : Entity} (h : e' ≠ e) (after : Capture → Capture)
    (value : Param P → ParamValue) (ps : List (Param P)) (name : String) :
    cell (snapshotOf e after value ps) e' name = [] := by
  refine List.eq_nil_iff_forall_not_mem.mpr ?_
  intro c hc
  obtain ⟨hm, he, _⟩ := mem_cell.mp hc
  obtain ⟨p, _, d, hd, hcd⟩ := mem_snapshotOf hm
  cases hcd
  exact h (he.symm.trans (mem_captured hd).1)

end Book

end EntityBook
