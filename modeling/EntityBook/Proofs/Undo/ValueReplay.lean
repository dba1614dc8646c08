import EntityBook.Proofs.Undo.ValueStep

/-! # Undo and redo of an operation on a value

  An operation that traced a value to the end of a phase in which it may close leads from
  the value at first to the value at the end, and so does its baseline from the value at
  first to itself.
-/

namespace EntityBook

variable {P : PayloadFamily}

namespace Book

/-! ### A replay, seen from a value -/

section Replay

variable {b : Book P} {e : Entity} {p : Param P} {entries : List (UndoEntry P)} {d : Direction}
  {v : ParamValue}

theorem value?_replay_removed (hw : b.Watches e p) (h : e ∈ entitiesOf entries d.removed) :
    (b.replay entries d).value? e p = none := by
  unfold value?
  rw [(hw.steady.get?_replay entries d e).1 h]
  rfl

theorem value?_replay_absent (hw : b.Watches e p) (hn : b.value? e p = none)
    (hmade : e ∉ entitiesOf entries d.made) : (b.replay entries d).value? e p = none := by
  by_cases h : e ∈ entitiesOf entries d.removed
  · exact value?_replay_removed hw h
  · unfold value?
    rw [((hw.steady.get?_replay entries d e).2 h).2.1 (hw.get?_eq_none.mpr hn) hmade]
    rfl

/-- An entity that is there when values are restored. -/
theorem value?_replay_prepared (hw : b.Watches e p) (h : e ∉ entitiesOf entries d.removed)
    (hfit : b.FitEntries (entries.filter fun u => u.entity == e)) {i : Instance P}
    (hi : (b.prepared entries d).get? e = some i) (hv : i.value? p.accessor = some v) :
    (b.replay entries d).value? e p = some (d.replayValue (cell entries e p.name) v) := by
  obtain ⟨cl, hcl, hp, _, hlaw⟩ := hw.exists_class
  obtain ⟨hwf, hset⟩ := hw.steady.wellFormed.prepared entries d
  obtain ⟨cl', hcl', _, htype⟩ := (hwf.fits e i hi).known
  rw [hset.registry] at hcl'
  cases hcl'.symm.trans hcl
  obtain ⟨k, hk, _, hvalue⟩ :=
    value?_replay_of_spared hw.steady.wellFormed h hi hfit hcl hlaw htype
  exact (value?_of_get? hk).trans (hvalue p hp v hv)

theorem value?_replay_there (hw : b.Watches e p) (h : e ∉ entitiesOf entries d.removed)
    (hfit : b.FitEntries (entries.filter fun u => u.entity == e)) (hv : b.value? e p = some v) :
    (b.replay entries d).value? e p = some (d.replayValue (cell entries e p.name) v) := by
  obtain ⟨i, hi, hvi⟩ := value?_eq_some.mp hv
  exact value?_replay_prepared hw h hfit (get?_prepared_of_some hi) hvi

theorem value?_replay_new (hw : b.Watches e p) (h : e ∉ entitiesOf entries d.removed)
    (hfit : b.FitEntries (entries.filter fun u => u.entity == e)) (hn : b.value? e p = none)
    (hmade : e ∈ entitiesOf entries d.made) (hinitial : b.Initial e p v) :
    (b.replay entries d).value? e p = some (d.replayValue (cell entries e p.name) v) := by
  obtain ⟨cl, payload, hmakes, hv⟩ := hinitial
  exact value?_replay_prepared hw h hfit
    (get?_prepared_of_none (hw.get?_eq_none.mpr hn) hmade hmakes) hv

end Replay

/-! ### Closed changes -/

section Closed

variable {b : Book P} {e : Entity} {p : Param P} {first : Option ParamValue} {v v₀ w : ParamValue}
  {c : Change P} {cs : List (Change P)}

theorem Starts.unique (h : b.Starts e p first v) (h' : b.Starts e p first w) : v = w := by
  rcases h with rfl | ⟨rfl, h⟩
  · rcases h' with h' | ⟨hn, _⟩
    · exact Option.some.inj h'
    · cases hn
  · rcases h' with h' | ⟨_, h'⟩
    · cases h'
    · exact h.unique h'

/-- The first change of a value of an entity that is there ends with its value. -/
theorem Opens.closed_of_value (h : b.Opens e p first c) (hv : b.value? e p = some v)
    (hafter : c.after = .pending ∨ c.after = .value v.text) :
    b.closed c = { c with after := .value v.text, kept := c.before = .value v.text } := by
  obtain ⟨i, hi, hvi⟩ := value?_eq_some.mp hv
  unfold closed
  rw [h.entity, h.param, h.path, capture_eq hi hvi]
  rcases hafter with ha | ha
  · simp [ha]
  · simp [ha]

/-- Undo of it gives the value that the entity had. -/
theorem Opens.undo (h : b.Opens e p (some v₀) c) (hreads : ParamValue.parse p.kind v.text = .ok v) :
    Direction.undo.replayValue
      [{ c with after := .value v.text, kept := c.before = .value v.text }] v = v₀ := by
  rcases h.before with ⟨u, hu, hu', hbefore⟩ | ⟨hn, _⟩
  · have huv : u = v₀ := hu.unique (Or.inl rfl)
    subst huv
    have hkept : decide (c.before = .value v.text) = decide (u.text = v.text) := by
      rw [hbefore]
      simp
    rw [hkept, undo_single h.param h.path hbefore hu' hreads]
    split
    · next heq => exact heq.symm
    · rfl
  · cases hn

/-- Redo of it gives the value at the end, whether the entity was there or is new. -/
theorem Opens.redo (h : b.Opens e p first c) (hw : b.Starts e p first w)
    (hreads : ParamValue.parse p.kind v.text = .ok v) :
    Direction.redo.replayValue
      [{ c with after := .value v.text, kept := c.before = .value v.text }] w = v := by
  rcases h.before with ⟨u, hu, hu', hbefore⟩ | ⟨_, hbefore⟩
  · have huw : u = w := hu.unique hw
    subst huw
    have hkept : decide (c.before = .value v.text) = decide (u.text = v.text) := by
      rw [hbefore]
      simp
    rw [hkept, redo_single h.param h.path hu' hreads]
    split
    · next heq => exact heq
    · rfl
  · -- with no value before, the one after is always written
    have hkept : decide (c.before = .value v.text) = false := by
      rw [hbefore]
      simp
    rw [hkept]
    exact restored_value h.param h.path hreads w

theorem Assumes.closed_eq (h : Assumes e p v c) : b.closed c = { c with kept := false } := by
  unfold closed
  rw [if_neg (by rw [h.after]; simp)]
  simp [h.after, h.before]

/-- A change that assumes a value leaves it in a replay. -/
theorem Assumes.replay (h : Assumes e p v c) (hreads : ParamValue.parse p.kind v.text = .ok v)
    (d : Direction) : d.replayValue [b.closed c] v = v := by
  rw [h.closed_eq]
  cases d with
  | undo =>
    show v.restored { c with kept := false } c.before = v
    rw [h.before]
    unfold ParamValue.restored
    rw [h.path]
  | redo =>
    show v.restored { c with kept := false } c.after = v
    rw [h.after]
    exact restored_value h.param h.path hreads v

theorem Shuts.closed_eq (h : Shuts e p v c) : b.closed c = { c with kept := false } := by
  unfold closed
  rw [if_neg (by rw [h.after]; simp)]
  simp [h.after, h.before]

theorem Shuts.restored (h : Shuts e p v c) (w : ParamValue) :
    w.restored { c with kept := false } c.before = v := by
  rw [h.before]
  exact restored_value h.param h.path h.reads w

/-- The changes of a value of a deleted entity give the value at first to a new one. -/
theorem Shut.undo (h : b.Shut e p (some v₀) v cs) (hgone : b.get? e = none) (w : ParamValue) :
    Direction.undo.replayValue (cs.map b.closed) w = v₀ := by
  cases h with
  | alone starts shuts =>
    have hsame : v = v₀ := starts.unique (Or.inl rfl)
    subst hsame
    rw [List.map_singleton, shuts.closed_eq]
    exact shuts.restored w
  | @after c d opens seen shuts =>
    obtain ⟨u, hu, hu', hbefore⟩ := opens.before.resolve_right fun hn => by cases hn.1
    have huv : u = v₀ := hu.unique (Or.inl rfl)
    subst huv
    have hd : d.before = .value v.text := shuts.before
    rw [List.map_cons, List.map_singleton, shuts.closed_eq]
    unfold Direction.replayValue
    dsimp only
    cases hk : (b.closed c).kept with
    | true =>
      -- Kept is what was filled in with the text of the value at first.
      have htext : u.text = v.text := by
        have hk : decide (c.before = if c.after = .pending then
            b.capture c.entity c.param c.path else c.after) = true := hk
        have hcapture := capture_of_none (b := b) (opens.entity.symm ▸ hgone) c.param c.path
        rcases seen with ha | ha
        · rw [ha, if_pos rfl, hcapture, hbefore] at hk
          simp at hk
        · rw [ha, hbefore] at hk
          simpa using hk
      rw [List.filter_cons_of_neg (by simp [hk]), List.filter_cons_of_pos (by simp),
        List.filter_nil, text_inj hu' shuts.reads htext]
      exact shuts.restored w
    | false =>
      rw [List.filter_cons_of_pos (by simp [hk]), List.filter_cons_of_pos (by simp),
        List.filter_nil, List.reverse_cons, List.reverse_singleton, List.singleton_append,
        List.foldl_cons, List.foldl_cons, List.foldl_nil]
      show (w.restored _ _).restored (b.closed c) c.before = u
      rw [hbefore]
      exact restored_value (c := b.closed c) opens.param opens.path hu' _

end Closed

/-! ### The entries of a closed operation -/

section Close

variable {b : Book P} {e : Entity} {p : Param P} {first : Option ParamValue} {ph : Phase}
  {o : OpenOperation P}

/-- The entries for new slots that the end of an operation adds are about other parameters. -/
theorem exists_addNewSlots_eq (hw : b.Watches e p) (entries : List (UndoEntry P))
    {watched : List (Entity × Param P)} (h : ∀ w ∈ watched, w.1 = e → w.2.isSlots = true ∧
      ∃ cl, b.registry.find? e.typeTag = some cl ∧ w.2 ∈ cl.copyable) :
    ∃ more, b.addNewSlots entries watched = entries ++ more ∧
      b.Others e p (more.filter fun u => u.entity == e) ∧ ∀ u ∈ more, ∃ c, u = .changed c := by
  induction watched generalizing entries with
  | nil =>
    refine ⟨[], (List.append_nil _).symm, ?_, ?_⟩
    · intro u hu
      cases hu
    · intro u hu
      cases hu
  | cons w rest ih =>
    obtain ⟨x, q⟩ := w
    obtain ⟨more, hmore, hothers, hchanges⟩ := ih (entries ++ b.newSlots entries x q)
      fun w hw' => h w (List.mem_cons_of_mem _ hw')
    refine ⟨b.newSlots entries x q ++ more, ?_, ?_, ?_⟩
    · rw [← List.append_assoc]
      exact hmore
    · intro u hu
      rw [List.filter_append] at hu
      rcases List.mem_append.mp hu with hu | hu
      · by_cases hx : x = e
        · subst hx
          obtain ⟨hs, cl, hcl, hq⟩ := h _ List.mem_cons_self rfl
          exact others_newSlots hw entries hs hcl hq u (List.mem_filter.mp hu).1
        · rw [(elsewhere_newSlots hx b entries q).filter_eq_nil] at hu
          cases hu
      · exact hothers u hu
    · intro u hu
      rcases List.mem_append.mp hu with hu | hu
      · unfold newSlots at hu
        split at hu
        · cases hu
        · obtain ⟨y, _, rfl⟩ := List.mem_map.mp hu
          exact ⟨_, rfl⟩
      · exact hchanges u hu

/-- What the log gets of a traced value. -/
structure Logs (b : Book P) (e : Entity) (p : Param P) (o : OpenOperation P)
    (entries : List (UndoEntry P)) : Prop where
  cell : cell entries e p.name = (cell o.entries e p.name).map b.closed
  fits : b.FitEntries (entries.filter fun u => u.entity == e)
  created : UndoEntry.created e ∈ entries ↔ UndoEntry.created e ∈ o.entries
  deleted : UndoEntry.deleted e ∈ entries ↔ UndoEntry.deleted e ∈ o.entries

theorem Traces.logs (h : b.Traces e p first ph o) (hw : b.Watches e p) :
    b.Logs e p o ((b.addNewSlots o.entries o.watched).map b.close) := by
  obtain ⟨more, hmore, hothers, hchanges⟩ := exists_addNewSlots_eq hw o.entries h.watched
  have hold {u : UndoEntry P} (hu : ∀ c, u ≠ .changed c) :
      u ∈ (o.entries ++ more).map b.close ↔ u ∈ o.entries := by
    refine (mem_map_close hu).trans (mem_append_of_not_mem ?_)
    intro hm
    obtain ⟨c, hc⟩ := hchanges u hm
    exact hu c hc
  rw [hmore]
  refine ⟨?_, ?_, hold (by simp), hold (by simp)⟩
  · rw [cell_close, cell_append, ← cell_filter_entity more, hothers.cell_eq_nil, List.append_nil]
  · rw [filter_entity_map (entity_close b), List.filter_append]
    exact (h.fits.append hothers.fitEntries).close

section Logs

variable {entries : List (UndoEntry P)} {v : ParamValue}

/-- An entity that is there has the value of a new one if it is one. -/
theorem Watches.exists_initial (hw : b.Watches e p) {i : Instance P} (hi : b.get? e = some i) :
    ∃ x, b.Initial e p x := by
  obtain ⟨cl, payload, hmakes, _⟩ := hw.steady.wellFormed.exists_makes hi
  obtain ⟨cl', hcl', hmem, _⟩ := hw.exists_class
  cases hcl'.symm.trans hmakes.found
  obtain ⟨x, hx⟩ := hmakes.exists_value hmem
  exact ⟨x, _, payload, hmakes, hx⟩

/-- Undo and redo of an operation that leaves the entity there. If it is new, undo removes
    it and redo makes it again. -/
theorem Logs.replay_there (h : b.Logs e p o entries) (hw : b.Watches e p)
    (hv : b.value? e p = some v) (hdeleted : UndoEntry.deleted e ∉ o.entries)
    (hmade : UndoEntry.created e ∈ o.entries ↔ first = none)
    (hundo : ∀ v₀, first = some v₀ →
      Direction.undo.replayValue ((Book.cell o.entries e p.name).map b.closed) v = v₀)
    (hredo : ∀ x, b.Starts e p first x →
      Direction.redo.replayValue ((Book.cell o.entries e p.name).map b.closed) x = v)
    {c : Book P} (hc : c.Steady) (hset : b.SameSetup c) :
    (c.value? e p = some v → (c.replay entries .undo).value? e p = first) ∧
      (c.value? e p = first → (c.replay entries .redo).value? e p = some v) := by
  have hwc := hw.of_setup hc hset
  have hfit := h.fits.of_setup hset
  have hkept : e ∉ entitiesOf entries .create := by
    rw [mem_entitiesOf_create, h.deleted]
    exact hdeleted
  cases first with
  | some v₀ =>
    have hold : e ∉ entitiesOf entries .delete := by
      rw [mem_entitiesOf_delete, h.created, hmade]
      simp
    constructor
    · intro hvc
      rw [value?_replay_there (d := .undo) hwc hold hfit hvc, h.cell, hundo v₀ rfl]
    · intro hvc
      rw [value?_replay_there (d := .redo) hwc hkept hfit hvc, h.cell, hredo v₀ (Or.inl rfl)]
  | none =>
    have hnew : e ∈ entitiesOf entries .delete := by
      rw [mem_entitiesOf_delete, h.created, hmade]
    obtain ⟨i, hi, _⟩ := value?_eq_some.mp hv
    obtain ⟨x, hx⟩ := hw.exists_initial hi
    constructor
    · intro _
      exact value?_replay_removed (d := .undo) hwc hnew
    · intro hvc
      rw [value?_replay_new (d := .redo) hwc hkept hfit hvc hnew (hx.of_setup hset), h.cell,
        hredo x (Or.inr ⟨rfl, hx⟩)]

/-- Undo and redo of an operation that deleted the entity. If it made it as well, it is gone
    either way. -/
theorem Logs.replay_gone (h : b.Logs e p o entries) (hw : b.Watches e p)
    (hdeleted : UndoEntry.deleted e ∈ o.entries)
    (hmade : UndoEntry.created e ∈ o.entries ↔ first = none)
    (hundo : ∀ v₀, first = some v₀ → ∀ x,
      Direction.undo.replayValue ((Book.cell o.entries e p.name).map b.closed) x = v₀)
    (hrenewable : ∃ x, b.Initial e p x) {c : Book P} (hc : c.Steady) (hset : b.SameSetup c) :
    (c.value? e p = none → (c.replay entries .undo).value? e p = first) ∧
      (c.replay entries .redo).value? e p = none := by
  have hwc := hw.of_setup hc hset
  have hgone : e ∈ entitiesOf entries .create := by
    rw [mem_entitiesOf_create, h.deleted]
    exact hdeleted
  refine ⟨?_, value?_replay_removed (d := .redo) hwc hgone⟩
  intro hn
  cases first with
  | some v₀ =>
    have hold : e ∉ entitiesOf entries .delete := by
      rw [mem_entitiesOf_delete, h.created, hmade]
      simp
    obtain ⟨x, hx⟩ := hrenewable
    rw [value?_replay_new (d := .undo) hwc hold (h.fits.of_setup hset) hn hgone
      (hx.of_setup hset), h.cell, hundo v₀ rfl x]
  | none =>
    have hnew : e ∈ entitiesOf entries .delete := by
      rw [mem_entitiesOf_delete, h.created, hmade]
    exact value?_replay_removed (d := .undo) hwc hnew

/-- Undo and redo of an operation that knows nothing of the entity. -/
theorem Logs.replay_away (h : b.Logs e p o entries) (hw : b.Watches e p)
    (hdeleted : UndoEntry.deleted e ∉ o.entries) (hmade : UndoEntry.created e ∉ o.entries)
    {c : Book P} (hc : c.Steady) (hset : b.SameSetup c) (hn : c.value? e p = none)
    (d : Direction) : (c.replay entries d).value? e p = none := by
  refine value?_replay_absent (hw.of_setup hc hset) hn ?_
  cases d with
  | undo =>
    show e ∉ entitiesOf entries .create
    rw [mem_entitiesOf_create, h.deleted]
    exact hdeleted
  | redo =>
    show e ∉ entitiesOf entries .delete
    rw [mem_entitiesOf_delete, h.created]
    exact hmade

/-- An operation that knows nothing of the entity leads from nothing to nothing. -/
theorem Logs.leads_away (h : b.Logs e p o entries) (hw : b.Watches e p)
    (hdeleted : UndoEntry.deleted e ∉ o.entries) (hmade : UndoEntry.created e ∉ o.entries)
    (hcell : Book.cell o.entries e p.name = []) : b.Leads e p entries none none := by
  refine ⟨fun c hc hset hn => h.replay_away hw hdeleted hmade hc hset hn .undo,
    fun c hc hset hn => h.replay_away hw hdeleted hmade hc hset hn .redo, readsBack_none,
    readsBack_none, h.fits, fun _ => Or.inl rfl, ?_⟩
  intro c hc
  rw [h.cell, hcell] at hc
  cases hc

/-- An operation that leaves the entity there leads to its value if undo and redo do. -/
theorem Logs.leads_there (h : b.Logs e p o entries) (hw : b.Watches e p)
    (hv : b.value? e p = some v) (hdeleted : UndoEntry.deleted e ∉ o.entries)
    (hmade : UndoEntry.created e ∈ o.entries ↔ first = none) {cs : List (Change P)}
    (hcell : (Book.cell o.entries e p.name).map b.closed = cs)
    (hundo : ∀ v₀, first = some v₀ → Direction.undo.replayValue cs v = v₀)
    (hredo : ∀ x, b.Starts e p first x → Direction.redo.replayValue cs x = v)
    (hfirst : p.ReadsBack first) (hreads : ParamValue.parse p.kind v.text = .ok v)
    (hsilent : cs = [] → b.Starts e p first v)
    (hlast : ∀ c, cs.getLast? = some c → c.path = none ∧ c.after = .value v.text) :
    b.Leads e p entries first (some v) := by
  subst hcell
  have hreplay {c : Book P} (hc : c.Steady) (hset : b.SameSetup c) :=
    h.replay_there hw hv hdeleted hmade hundo hredo hc hset
  refine ⟨fun c hc hset => (hreplay hc hset).1, fun c hc hset => (hreplay hc hset).2, hfirst,
    readsBack_some hreads, h.fits, ?_, ?_⟩
  · intro hnil
    rw [h.cell] at hnil
    rcases hsilent hnil with heq | ⟨hn, hinitial⟩
    · exact Or.inl heq.symm
    · exact Or.inr ⟨hn, v, hinitial, rfl⟩
  · intro c hc
    rw [h.cell] at hc
    obtain ⟨hpath, hafter⟩ := hlast c hc
    exact ⟨hpath, Or.inr ⟨_, hafter, v, Or.inl rfl, rfl⟩⟩

/-- An operation that holds one change of the value of an entity that is there. -/
theorem Logs.leads_noted (h : b.Logs e p o entries) (hw : b.Watches e p)
    (hv : b.value? e p = some v) (hdeleted : UndoEntry.deleted e ∉ o.entries)
    (hmade : UndoEntry.created e ∈ o.entries ↔ first = none) {c : Change P}
    (hcell : Book.cell o.entries e p.name = [c]) (hopens : b.Opens e p first c)
    (hafter : c.after = .pending ∨ c.after = .value v.text) (hfirst : p.ReadsBack first)
    (hreads : ParamValue.parse p.kind v.text = .ok v) :
    b.Leads e p entries first (some v) := by
  have hone : (Book.cell o.entries e p.name).map b.closed =
      [{ c with after := .value v.text, kept := c.before = .value v.text }] := by
    rw [hcell, List.map_singleton, hopens.closed_of_value hv hafter]
  refine h.leads_there hw hv hdeleted hmade hone ?_ (fun x hx => hopens.redo hx hreads) hfirst hreads
    (fun hnil => nomatch hnil) ?_
  · intro v₀ heq
    subst heq
    exact hopens.undo hreads
  · intro d hd
    cases hd
    exact ⟨hopens.path, rfl⟩

/-- An operation that recorded the value as it was. -/
theorem Logs.leads_assumed (h : b.Logs e p o entries) (hw : b.Watches e p)
    (hv : b.value? e p = some v) (hdeleted : UndoEntry.deleted e ∉ o.entries)
    (hmade : UndoEntry.created e ∈ o.entries ↔ some v = none) {c : Change P}
    (hcell : Book.cell o.entries e p.name = [c]) (hassumes : Assumes e p v c)
    (hreads : ParamValue.parse p.kind v.text = .ok v) :
    b.Leads e p entries (some v) (some v) := by
  have hone : (Book.cell o.entries e p.name).map b.closed = [b.closed c] := by
    rw [hcell, List.map_singleton]
  refine h.leads_there hw hv hdeleted hmade hone ?_ ?_ (readsBack_some hreads) hreads
    (fun hnil => nomatch hnil) ?_
  · intro v₀ heq
    cases heq
    exact hassumes.replay hreads .undo
  · intro x hx
    cases hx.unique (Or.inl rfl)
    exact hassumes.replay hreads .redo
  · intro d hd
    cases hd
    rw [hassumes.closed_eq]
    exact ⟨hassumes.path, hassumes.after⟩

/-- An operation that deleted the entity leads to nothing. -/
theorem Logs.leads_gone (h : b.Logs e p o entries) (hw : b.Watches e p)
    (hn : b.value? e p = none) (hdeleted : UndoEntry.deleted e ∈ o.entries)
    (hmade : UndoEntry.created e ∈ o.entries ↔ first = none)
    (hshut : b.Shut e p first v (Book.cell o.entries e p.name))
    (hrenewable : ∃ x, b.Initial e p x) (hfirst : p.ReadsBack first) :
    b.Leads e p entries first none := by
  have hgone := hw.get?_eq_none.mpr hn
  have hreplay {c : Book P} (hc : c.Steady) (hset : b.SameSetup c) :=
    h.replay_gone hw hdeleted hmade
      (fun v₀ heq x => by subst heq; exact hshut.undo hgone x) hrenewable hc hset
  refine ⟨fun c hc hset => (hreplay hc hset).1, fun c hc hset _ => (hreplay hc hset).2, hfirst,
    readsBack_none, h.fits, ?_, ?_⟩
  · intro hnil
    rw [h.cell] at hnil
    generalize Book.cell o.entries e p.name = cs at hnil hshut
    cases hshut <;> cases hnil
  · -- The last capture is the one of the deletion.
    intro c hc
    rw [h.cell] at hc
    have hin : UndoEntry.deleted e ∈ entries := h.deleted.mpr hdeleted
    generalize Book.cell o.entries e p.name = cs at hc hshut
    cases hshut with
    | alone _ shuts =>
      rw [List.map_singleton, shuts.closed_eq] at hc
      cases hc
      exact ⟨shuts.path, Or.inl ⟨shuts.after, hin⟩⟩
    | after _ _ shuts =>
      rw [List.map_cons, List.map_singleton, shuts.closed_eq] at hc
      cases hc
      exact ⟨shuts.path, Or.inl ⟨shuts.after, hin⟩⟩

end Logs

/-- A traced operation that may close leads from the value at first to the present one. The
    entity was made in it if it was not there at first but has been since. -/
theorem Traces.leads (h : b.Traces e p first ph o) (hw : b.Watches e p)
    (hph : ph.closes = true)
    (hmade : UndoEntry.created e ∈ o.entries ↔ first = none ∧ ph ≠ .away)
    (hfirst : p.ReadsBack first) (hlast : p.ReadsBack (b.value? e p)) :
    b.Leads e p ((b.addNewSlots o.entries o.watched).map b.close) first (b.value? e p) := by
  have hlogs := h.logs hw
  have hdeleted := h.deleted
  generalize (b.addNewSlots o.entries o.watched).map b.close = entries at hlogs
  have hholding := h.holding
  generalize hcs : cell o.entries e p.name = cs at hholding
  generalize hvalue : b.value? e p = w at hholding hlast ⊢
  cases hholding with
  | unrecorded | outdated | doomed => cases hph
  | away absent =>
    subst absent
    exact hlogs.leads_away hw (by simp [hdeleted]) (by simp [hmade]) hcs
  | @untouched v starts reads =>
    refine hlogs.leads_there hw hvalue (by simp [hdeleted]) (by simp [hmade])
      (congrArg (List.map b.closed) hcs) ?_ (fun x hx => hx.unique starts) hfirst reads
      (fun _ => starts) (fun c hc => nomatch hc)
    intro v₀ heq
    subst heq
    exact starts.unique (Or.inl rfl)
  | announced v opens after =>
    exact hlogs.leads_noted hw hvalue (by simp [hdeleted]) (by simp [hmade]) hcs opens
      (Or.inl after) hfirst (hlast v rfl)
  | recorded opens after =>
    exact hlogs.leads_noted hw hvalue (by simp [hdeleted]) (by simp [hmade]) hcs opens
      (Or.inr after) hfirst (hlast _ rfl)
  | assumed same assumes =>
    subst same
    exact hlogs.leads_assumed hw hvalue (by simp [hdeleted]) (by simp [hmade]) hcs assumes
      (hlast _ rfl)
  | gone shut renewable =>
    exact hlogs.leads_gone hw hvalue (by simp [hdeleted]) (by simp [hmade]) (hcs ▸ shut) renewable
      hfirst

/-- Entries that hold nothing but the value lead from it to itself. -/
theorem Watches.leads_same (hw : b.Watches e p) {entries : List (UndoEntry P)}
    {w : Option ParamValue} (hcreated : UndoEntry.created e ∉ entries)
    (hdeleted : UndoEntry.deleted e ∉ entries)
    (hfits : b.FitEntries (entries.filter fun u => u.entity == e)) (hreads : p.ReadsBack w)
    (hcell : cell entries e p.name = [] ∨ ∃ v, b.Starts e p w v ∧
      ParamValue.parse p.kind v.text = .ok v ∧
      cell entries e p.name = [.sight e p v (.value v.text)]) : b.Leads e p entries w w := by
  have hremoved (d : Direction) : e ∉ entitiesOf entries d.removed := by
    cases d with
    | undo => exact fun hm => hcreated (mem_entitiesOf_delete.mp hm)
    | redo => exact fun hm => hdeleted (mem_entitiesOf_create.mp hm)
  have hmade (d : Direction) : e ∉ entitiesOf entries d.made := by
    cases d with
    | undo => exact fun hm => hdeleted (mem_entitiesOf_create.mp hm)
    | redo => exact fun hm => hcreated (mem_entitiesOf_delete.mp hm)
  have hreplay (d : Direction) (c : Book P) (hc : c.Steady) (hset : b.SameSetup c)
      (hv : c.value? e p = w) : (c.replay entries d).value? e p = w := by
    have hwc := hw.of_setup hc hset
    cases w with
    | none => exact value?_replay_absent hwc hv (hmade d)
    | some v₀ =>
      rw [value?_replay_there hwc (hremoved d) (hfits.of_setup hset) hv]
      rcases hcell with hnil | ⟨v, hv, hparse, hcell⟩
      · rw [hnil]
        cases d <;> rfl
      · have hsame : v = v₀ := hv.unique (Or.inl rfl)
        subst hsame
        have hone : v.restored (.sight e p v (.value v.text)) (.value v.text) = v :=
          restored_value rfl rfl hparse v
        rw [hcell]
        cases d with
        | undo => exact congrArg some hone
        | redo => exact congrArg some hone
  refine ⟨hreplay .undo, hreplay .redo, hreads, hreads, hfits, fun _ => Or.inl rfl, ?_⟩
  intro c hc
  rcases hcell with hnil | ⟨v, hv, _, hcell⟩
  · rw [hnil] at hc
    cases hc
  · rw [hcell] at hc
    cases hc
    exact ⟨rfl, Or.inr ⟨_, rfl, v, hv, rfl⟩⟩

/-- The baseline of a traced operation leads from the value at first to itself. -/
theorem Traces.leads_baseline (h : b.Traces e p first ph o) (hw : b.Watches e p)
    (hph : ph ≠ .unrecorded) (hfirst : p.ReadsBack first) :
    b.Leads e p o.baseline first first := by
  have hmem (u : UndoEntry P) (hu : u.entity = e) (hne : ∀ c, u ≠ .changed c) : u ∉ o.baseline := by
    intro hm
    obtain ⟨c, hc⟩ := h.changes u hm hu
    exact hne c hc
  exact hw.leads_same (hmem _ rfl (by simp)) (hmem _ rfl (by simp)) h.baselineFits hfirst
    (h.baseline hph)

/-- Operations that hold nothing of the value lead from any value to itself. -/
theorem Watches.history_of_mute (hw : b.Watches e p) {ops : List (UndoOperation P)}
    {w : Option ParamValue} (hmute : Mute e p.name ops)
    (hfits : ∀ op ∈ ops, b.FitEntries (op.entries.filter fun u => u.entity == e))
    (hreads : p.ReadsBack w) : b.History e p w ops w := by
  induction ops with
  | nil => rfl
  | cons op rest ih =>
    obtain ⟨hcreated, hdeleted, hcell⟩ := hmute op List.mem_cons_self
    refine ⟨w, ?_, ih (fun x hx => hmute x (List.mem_cons_of_mem _ hx))
      fun x hx => hfits x (List.mem_cons_of_mem _ hx)⟩
    exact hw.leads_same hcreated hdeleted (hfits op List.mem_cons_self) hreads (Or.inl hcell)

/-- So do operations that are about other entities. -/
theorem Watches.history_of_elsewhere (hw : b.Watches e p) {ops : List (UndoOperation P)}
    {w : Option ParamValue} (h : ∀ op ∈ ops, Elsewhere e op.entries) (hreads : p.ReadsBack w) :
    b.History e p w ops w := by
  refine hw.history_of_mute ?_ ?_ hreads
  · intro op hop
    refine ⟨fun hm => h op hop _ hm rfl, fun hm => h op hop _ hm rfl, ?_⟩
    rw [← cell_filter_entity, (h op hop).filter_eq_nil]
    rfl
  · intro op hop
    rw [(h op hop).filter_eq_nil]
    intro c hc
    cases hc

end Close

end Book

end EntityBook
