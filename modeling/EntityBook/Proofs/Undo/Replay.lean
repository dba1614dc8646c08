import EntityBook.Proofs.Undo.Restore

/-! # What a replay comes to

  A replay makes, restores and deletes, in this order. For one entity that means:
  it is gone if it had to be deleted, it is live if it was or had to be made, and
  then each of its parameters is what the captures of that parameter make of the
  value it had, or of the value of a new instance.
-/

namespace EntityBook

variable {P : PayloadFamily}

namespace Book

/-! ### Steady books -/

/-- No instance is being edited. -/
def Quiet (b : Book P) : Prop := ∀ e i, b.get? e = some i → i.level = 0 ∧ i.deleting = false

/-- A well-formed book in which nothing is being edited. -/
structure Steady (b : Book P) : Prop where
  wellFormed : b.WellFormed
  quiet : b.Quiet

/-- All classes of a book are lawful. -/
def Lawful (b : Book P) : Prop := ∀ c ∈ b.registry.classes, c.IsLawful

/-- Two books have the same surroundings for instances. -/
structure SameSetup (b b' : Book P) : Prop where
  id : b'.id = b.id
  registry : b'.registry = b.registry
  config : b'.config = b.config
  backend : b'.backend = b.backend

theorem Lawful.of_find? {b : Book P} (h : b.Lawful) {tag : TypeTag} {cl : ObjectClass P}
    (hfind : b.registry.find? tag = some cl) : cl.IsLawful :=
  h cl (List.mem_of_find?_eq_some hfind)

theorem Lawful.of_setup {a b : Book P} (h : a.Lawful) (hs : a.SameSetup b) : b.Lawful := by
  unfold Lawful
  rw [hs.registry]
  exact h

namespace SameSetup

variable {a b c : Book P}

theorem refl (b : Book P) : b.SameSetup b := ⟨rfl, rfl, rfl, rfl⟩

theorem symm (h : a.SameSetup b) : b.SameSetup a :=
  ⟨h.id.symm, h.registry.symm, h.config.symm, h.backend.symm⟩

theorem trans (h : a.SameSetup b) (h' : b.SameSetup c) : a.SameSetup c :=
  ⟨h'.id.trans h.id, h'.registry.trans h.registry, h'.config.trans h.config,
    h'.backend.trans h.backend⟩

theorem of_revises (h : a.Revises b) : a.SameSetup b := ⟨h.id, h.registry, h.config, h.backend⟩

theorem newborn (h : a.SameSetup b) (e : Entity) (payload : Payload P) :
    b.newborn e payload = a.newborn e payload := by
  unfold Book.newborn
  rw [h.id]

theorem create (b : Book P) (tag : TypeTag) (g : Guid) : b.SameSetup (b.create tag g).2 := by
  cases hc : b.create tag g with
  | mk r b' =>
    cases r with
    | error err => exact create_eq_error hc ▸ refl b'
    | ok e =>
      obtain ⟨_, _, _, _, _, _, _, rfl⟩ := create_eq_ok.mp hc
      exact ⟨rfl, rfl, rfl, rfl⟩

theorem instantiate (b : Book P) (e : Entity) : b.SameSetup (b.instantiate e) := by
  unfold Book.instantiate
  split
  · exact refl b
  · exact create b _ _

end SameSetup

theorem WellFormed.instantiate {b : Book P} (h : b.WellFormed) (e : Entity) :
    (b.instantiate e).WellFormed := by
  unfold Book.instantiate
  split
  · exact h
  · exact h.create _ _

/-- Making entities keeps a book well-formed and its surroundings as they are. -/
theorem WellFormed.instantiateAll {b : Book P} (h : b.WellFormed) (es : List Entity) :
    (es.foldl Book.instantiate b).WellFormed ∧ b.SameSetup (es.foldl Book.instantiate b) := by
  induction es generalizing b with
  | nil => exact ⟨h, .refl b⟩
  | cons e rest ih =>
    obtain ⟨hlast, hset⟩ := ih (h.instantiate e)
    exact ⟨hlast, (SameSetup.instantiate b e).trans hset⟩

/-- A class can make instances for an entity. -/
structure Makes (b : Book P) (e : Entity) (cl : ObjectClass P) (payload : Payload P) : Prop where
  guid : e.guid.isNull = false
  found : b.registry.find? e.typeTag = some cl
  payload : cl.initialPayload? = some payload

theorem Makes.of_setup {a b : Book P} {e : Entity} {cl : ObjectClass P} {payload : Payload P}
    (h : a.Makes e cl payload) (hs : a.SameSetup b) : b.Makes e cl payload :=
  ⟨h.guid, hs.registry ▸ h.found, h.payload⟩

/-- The class of a live entity can make instances for it. -/
theorem WellFormed.exists_makes {b : Book P} (h : b.WellFormed) {e : Entity} {i : Instance P}
    (hi : b.get? e = some i) :
    ∃ cl payload, b.Makes e cl payload ∧ i.payload.type = cl.payloadType := by
  have hfit := h.fits e i hi
  obtain ⟨cl, hfind, hcon, htype⟩ := hfit.known
  obtain ⟨d, hd⟩ := Option.isSome_iff_exists.mp hcon
  exact ⟨cl, ⟨cl.payloadType, d⟩, ⟨hfit.guid, hfind, by simp [ObjectClass.initialPayload?, hd]⟩,
    htype⟩

theorem Steady.of_revises {b b' : Book P} (h : b.Steady) (hr : b.Revises b') : b'.Steady where
  wellFormed := hr.wellFormed h.wellFormed
  quiet := by
    intro e j hj
    cases hi : b.get? e with
    | none => exact absurd ((hr.gone hi).symm.trans hj) (by simp)
    | some i =>
      obtain ⟨k, hk, hik⟩ := hr.live hi
      cases hk.symm.trans hj
      obtain ⟨hl, hd⟩ := h.quiet e i hi
      exact ⟨hik.level.trans hl, hik.deleting.trans hd⟩

theorem Steady.create {b : Book P} (h : b.Steady) (tag : TypeTag) (g : Guid) :
    (b.create tag g).2.Steady ∧ b.SameSetup (b.create tag g).2 ∧
      (b.create tag g).2.undo = b.undo := by
  cases hc : b.create tag g with
  | mk r b' =>
    cases r with
    | error err =>
      have heq := create_eq_error hc
      subst heq
      exact ⟨h, .refl _, rfl⟩
    | ok e =>
      obtain ⟨_, hg, _, c, payload, hf, hp, rfl⟩ := create_eq_ok.mp hc
      refine ⟨⟨h.wellFormed.adopt hg hf hp, ?_⟩, ⟨rfl, rfl, rfl, rfl⟩, rfl⟩
      intro e' i hi
      -- The newborn is not being edited, nor deleted.
      by_cases he : e' = ⟨tag, g⟩
      · subst he
        cases (get?_adopt_self b (b.newborn _ payload)).symm.trans hi
        exact ⟨rfl, rfl⟩
      · rw [get?_adopt_of_ne b he] at hi
        exact h.quiet e' i hi

theorem Steady.delete {b : Book P} (h : b.Steady) (e : Entity) :
    (b.delete e).2.Steady ∧ b.SameSetup (b.delete e).2 ∧ (b.delete e).2.undo = b.undo := by
  have hk := Keeps.delete b e
  refine ⟨⟨h.wellFormed.delete e, ?_⟩, ⟨hk.id, hk.registry, hk.config, hk.backend⟩, hk.undo⟩
  intro e' i hi
  by_cases he : e' = e
  · subst he
    cases hj : b.get? e' with
    | none =>
      rw [delete_snd, edit_of_none hj] at hi
      exact absurd (hj.symm.trans hi) (by simp)
    | some j => exact absurd ((get?_delete_self hj (h.quiet _ _ hj).1).symm.trans hi) (by simp)
  · rw [get?_delete_of_ne b he] at hi
    exact h.quiet e' i hi

/-! ### Making entities -/

theorem Steady.instantiate {b : Book P} (h : b.Steady) (e : Entity) :
    (b.instantiate e).Steady ∧ b.SameSetup (b.instantiate e) ∧ (b.instantiate e).undo = b.undo := by
  unfold Book.instantiate
  split
  · exact ⟨h, .refl b, rfl⟩
  · exact h.create _ _

theorem get?_instantiate_of_ne {b : Book P} {e e' : Entity} (h : e' ≠ e) :
    (b.instantiate e).get? e' = b.get? e' := by
  unfold instantiate
  split
  · rfl
  · cases hc : b.create e.typeTag e.guid with
    | mk r b' =>
      cases r with
      | error err => rw [create_eq_error hc]
      | ok x =>
        obtain ⟨_, _, _, _, payload, _, _, rfl⟩ := create_eq_ok.mp hc
        exact get?_adopt_of_ne b h

theorem get?_instantiate_of_some {b : Book P} {e : Entity} {i : Instance P}
    (h : b.get? e = some i) : (b.instantiate e).get? e = some i := by
  have hc : b.contains e = true := contains_of_some h
  unfold instantiate
  rw [if_pos hc]
  exact h

theorem get?_instantiate_of_none {b : Book P} {e : Entity} (h : b.get? e = none)
    {cl : ObjectClass P} {payload : Payload P} (hm : b.Makes e cl payload) :
    (b.instantiate e).get? e = some (b.newborn e payload) := by
  have hc : b.contains e = false := contains_of_none h
  unfold instantiate
  rw [if_neg (by simp [hc])]
  have hcreate : b.create e.typeTag e.guid = (.ok e, b.adopt (b.newborn e payload)) :=
    create_eq_ok.mpr ⟨rfl, hm.guid, hc, cl, payload, hm.found, hm.payload, rfl⟩
  rw [hcreate]
  exact get?_adopt_self b (b.newborn e payload)

/-- What making a list of entities comes to. -/
theorem Steady.instantiateAll {b : Book P} (h : b.Steady) (es : List Entity) :
    (es.foldl Book.instantiate b).Steady ∧ b.SameSetup (es.foldl Book.instantiate b) ∧
      (es.foldl Book.instantiate b).undo = b.undo ∧
      ∀ e, (∀ i, b.get? e = some i → (es.foldl Book.instantiate b).get? e = some i) ∧
        (b.get? e = none → e ∉ es → (es.foldl Book.instantiate b).get? e = none) ∧
        (b.get? e = none → e ∈ es → ∀ cl payload, b.Makes e cl payload →
          (es.foldl Book.instantiate b).get? e = some (b.newborn e payload)) := by
  -- Induction on the entities to make; one that is there already is left alone.
  induction es generalizing b with
  | nil =>
    refine ⟨h, .refl b, rfl, ?_⟩
    intro e
    refine ⟨fun i hi => hi, fun hn _ => hn, ?_⟩
    intro _ hm
    cases hm
  | cons d rest ih =>
    obtain ⟨hs, hset, hundo⟩ := h.instantiate d
    obtain ⟨hs', hset', hundo', hget⟩ := ih hs
    refine ⟨hs', hset.trans hset', hundo'.trans hundo, ?_⟩
    intro e
    obtain ⟨hsome, hnone, hmade⟩ := hget e
    refine ⟨?_, ?_, ?_⟩
    · intro i hi
      by_cases he : e = d
      · subst he
        exact hsome i (get?_instantiate_of_some hi)
      · exact hsome i ((get?_instantiate_of_ne he).trans hi)
    · intro hn hm
      have he : e ≠ d := by
        rintro rfl
        exact hm List.mem_cons_self
      exact hnone ((get?_instantiate_of_ne he).trans hn) fun hr => hm (List.mem_cons_of_mem d hr)
    · intro hn hm cl payload hmakes
      by_cases he : e = d
      · subst he
        exact hsome _ (get?_instantiate_of_none hn hmakes)
      · have hmem := (List.mem_cons.mp hm).resolve_left he
        rw [← hset.newborn]
        exact hmade ((get?_instantiate_of_ne he).trans hn) hmem cl payload (hmakes.of_setup hset)

/-! ### Deleting entities -/

theorem Steady.destroy {b : Book P} (h : b.Steady) (e : Entity) :
    (b.destroy e).Steady ∧ b.SameSetup (b.destroy e) ∧ (b.destroy e).undo = b.undo := by
  unfold Book.destroy
  split
  · exact h.delete e
  · exact ⟨h, .refl b, rfl⟩

theorem get?_destroy_of_ne {b : Book P} {e e' : Entity} (h : e' ≠ e) :
    (b.destroy e).get? e' = b.get? e' := by
  unfold destroy
  split
  · exact get?_delete_of_ne b h
  · rfl

theorem Steady.get?_destroy_self {b : Book P} (h : b.Steady) (e : Entity) :
    (b.destroy e).get? e = none := by
  unfold Book.destroy
  cases hi : b.get? e with
  | none =>
    have hc : b.contains e = false := contains_of_none hi
    rw [if_neg (by simp [hc])]
    exact hi
  | some i =>
    have hc : b.contains e = true := contains_of_some hi
    rw [if_pos hc]
    exact get?_delete_self hi (h.quiet e i hi).1

/-- What deleting a list of entities comes to. -/
theorem Steady.destroyAll {b : Book P} (h : b.Steady) (es : List Entity) :
    (es.foldl Book.destroy b).Steady ∧ b.SameSetup (es.foldl Book.destroy b) ∧
      (es.foldl Book.destroy b).undo = b.undo ∧
      ∀ e, (e ∈ es → (es.foldl Book.destroy b).get? e = none) ∧
        (e ∉ es → (es.foldl Book.destroy b).get? e = b.get? e) := by
  -- Induction on the entities to delete; in a steady book each goes at once.
  induction es generalizing b with
  | nil =>
    refine ⟨h, .refl b, rfl, ?_⟩
    intro e
    refine ⟨?_, fun _ => rfl⟩
    intro hm
    cases hm
  | cons d rest ih =>
    obtain ⟨hs, hset, hundo⟩ := h.destroy d
    obtain ⟨hs', hset', hundo', hget⟩ := ih hs
    refine ⟨hs', hset.trans hset', hundo'.trans hundo, ?_⟩
    intro e
    obtain ⟨hgone, hkept⟩ := hget e
    constructor
    · intro hm
      by_cases hr : e ∈ rest
      · exact hgone hr
      · have he := (List.mem_cons.mp hm).resolve_right hr
        subst he
        rw [List.foldl_cons, hkept hr]
        exact h.get?_destroy_self e
    · intro hm
      have he : e ≠ d := by
        rintro rfl
        exact hm List.mem_cons_self
      rw [List.foldl_cons, hkept fun hr => hm (List.mem_cons_of_mem d hr)]
      exact get?_destroy_of_ne he

/-! ### A replay, entity by entity -/

/-- The action of entries whose entities a replay makes. -/
def Direction.made : Direction → UndoAction
  | .undo => .create
  | .redo => .delete

/-- The action of entries whose entities a replay deletes. -/
def Direction.removed : Direction → UndoAction
  | .undo => .delete
  | .redo => .create

/-- The side of a change that a replay restores. -/
def Direction.side : Direction → Change P → Capture
  | .undo, c => c.before
  | .redo, c => c.after

theorem replay_eq (b : Book P) (entries : List (UndoEntry P)) (d : Direction) :
    b.replay entries d =
      ((entitiesOf entries d.removed).foldl destroy
        (((entitiesOf entries d.made).foldl instantiate b.suspend).restoreAll d.side
          (changesOf entries d))).resume := by
  cases d <;> rfl

/-- The book in which a replay restores values: the entities that have to be there are. -/
def prepared (b : Book P) (entries : List (UndoEntry P)) (d : Direction) : Book P :=
  (entitiesOf entries d.made).foldl instantiate b.suspend

/-- A replay that has nothing to delete. -/
theorem replay_of_kept (b : Book P) {entries : List (UndoEntry P)} {d : Direction}
    (h : entitiesOf entries d.removed = []) :
    b.replay entries d =
      ((b.prepared entries d).restoreAll d.side (changesOf entries d)).resume := by
  rw [replay_eq, h, List.foldl_nil]
  rfl

/-- A replay leaves a steady book and does not touch the log. -/
theorem Steady.replay {b : Book P} (h : b.Steady) (entries : List (UndoEntry P)) (d : Direction) :
    (b.replay entries d).Steady ∧ b.SameSetup (b.replay entries d) ∧
      (b.replay entries d).undo = b.undo := by
  rw [replay_eq]
  have hsus := Revises.suspend b
  obtain ⟨h1, s1, u1, _⟩ := (h.of_revises hsus).instantiateAll (entitiesOf entries d.made)
  have hres := Revises.restoreAll h1.wellFormed d.side (changesOf entries d)
  obtain ⟨h3, s3, u3, _⟩ := (h1.of_revises hres).destroyAll (entitiesOf entries d.removed)
  have hend := Revises.resume ((entitiesOf entries d.removed).foldl Book.destroy
    (((entitiesOf entries d.made).foldl Book.instantiate b.suspend).restoreAll d.side
      (changesOf entries d)))
  refine ⟨h3.of_revises hend, ?_, ?_⟩
  · exact ((SameSetup.of_revises hsus).trans s1).trans
      (((SameSetup.of_revises hres).trans s3).trans (.of_revises hend))
  · rw [hend.undo, u3, hres.undo, u1, hsus.undo]

/-- What restoring makes of an instance. -/
def replayed (i : Instance P) (e : Entity) (entries : List (UndoEntry P)) (d : Direction) :
    Instance P :=
  ((changesOf entries d).filter fun c => c.entity == e).foldl
    (fun i c => i.restored c (d.side c)) i

/-- A replay, seen from one entity. -/
theorem Steady.get?_replay {b : Book P} (h : b.Steady) (entries : List (UndoEntry P))
    (d : Direction) (e : Entity) :
    (e ∈ entitiesOf entries d.removed → (b.replay entries d).get? e = none) ∧
    (e ∉ entitiesOf entries d.removed →
      (∀ i, b.get? e = some i →
        ∃ k, (b.replay entries d).get? e = some k ∧ k.Same (replayed i e entries d)) ∧
      (b.get? e = none → e ∉ entitiesOf entries d.made → (b.replay entries d).get? e = none) ∧
      (b.get? e = none → e ∈ entitiesOf entries d.made → ∀ cl payload, b.Makes e cl payload →
        ∃ k, (b.replay entries d).get? e = some k ∧
          k.Same (replayed (b.newborn e payload) e entries d))) := by
  rw [replay_eq]
  -- A replay makes entities, restores values and deletes entities, in this order.
  have hsus := Revises.suspend b
  obtain ⟨h1, _, _, hmade⟩ := (h.of_revises hsus).instantiateAll (entitiesOf entries d.made)
  have hres := Revises.restoreAll h1.wellFormed d.side (changesOf entries d)
  obtain ⟨_, _, _, hgone⟩ := (h1.of_revises hres).destroyAll (entitiesOf entries d.removed)
  obtain ⟨hsome, hnone, hnew⟩ := hmade e
  obtain ⟨hrem, hkept⟩ := hgone e
  refine ⟨hrem, ?_⟩
  intro hnot
  have hlast := hkept hnot
  refine ⟨?_, ?_, ?_⟩
  · intro i hi
    obtain ⟨k, hk, hsame⟩ := get?_restoreAll h1.wellFormed d.side (changesOf entries d)
      (hsome i hi)
    exact ⟨k, hlast.trans hk, hsame⟩
  · intro hn hm
    exact hlast.trans (hres.gone (hnone hn hm))
  · intro hn hm cl payload hmakes
    obtain ⟨k, hk, hsame⟩ := get?_restoreAll h1.wellFormed d.side (changesOf entries d)
      (hnew hn hm cl payload (hmakes.of_setup (.of_revises hsus)))
    exact ⟨k, hlast.trans hk, hsame⟩

/-! ### A replay, parameter by parameter -/

/-- The changes that entries hold of a parameter, in order. -/
def cell (entries : List (UndoEntry P)) (e : Entity) (name : String) : List (Change P) :=
  (entries.filterMap UndoEntry.change?).filter fun c => c.entity == e && c.param.name == name

/-- What a replay makes of a value, given the changes of its parameter: those that
    turned out to keep the value are passed over. -/
def Direction.replayValue (d : Direction) (cs : List (Change P)) (v : ParamValue) : ParamValue :=
  let replayed := match d with
    | .undo => (cs.filter fun (c : Change P) => !c.kept).reverse
    | .redo => cs.filter fun (c : Change P) => !c.kept
  replayed.foldl (fun v c => v.restored c (d.side c)) v

/-- Entries are about parameters of the classes of their entities. -/
def FitEntries (b : Book P) (entries : List (UndoEntry P)) : Prop :=
  ∀ c, UndoEntry.changed c ∈ entries →
    ∃ cl, b.registry.find? c.entity.typeTag = some cl ∧ c.Fits cl

theorem FitEntries.of_setup {a b : Book P} {entries : List (UndoEntry P)}
    (h : a.FitEntries entries) (hs : a.SameSetup b) : b.FitEntries entries := by
  unfold FitEntries
  rw [hs.registry]
  exact h

theorem filterMap_change?_modify (entries : List (UndoEntry P)) :
    (entries.filter fun u => u.action == .modify).filterMap UndoEntry.change? =
      (entries.filterMap UndoEntry.change?).filter fun c => !c.kept := by
  induction entries with
  | nil => rfl
  | cons u rest ih =>
    cases u with
    | created e =>
      rw [List.filter_cons_of_neg (by simp [UndoEntry.action])]
      exact ih
    | deleted e =>
      rw [List.filter_cons_of_neg (by simp [UndoEntry.action])]
      exact ih
    | changed c =>
      have hcons (us : List (UndoEntry P)) : (UndoEntry.changed c :: us).filterMap
          UndoEntry.change? = c :: us.filterMap UndoEntry.change? := rfl
      -- A change that kept its value does not count as a modification.
      cases hk : c.kept with
      | true =>
        rw [List.filter_cons_of_neg (by simp [UndoEntry.action, hk]), hcons,
          List.filter_cons_of_neg (by simp [hk])]
        exact ih
      | false =>
        rw [List.filter_cons_of_pos (by simp [UndoEntry.action, hk]), hcons, hcons,
          List.filter_cons_of_pos (by simp [hk]), ih]

theorem mem_change? {entries : List (UndoEntry P)} {c : Change P} :
    c ∈ entries.filterMap UndoEntry.change? ↔ UndoEntry.changed c ∈ entries := by
  rw [List.mem_filterMap]
  constructor
  · rintro ⟨u, hu, hc⟩
    cases u with
    | changed c' =>
      cases hc
      exact hu
    | _ => cases hc
  · intro h
    exact ⟨_, h, rfl⟩

theorem mem_of_mem_changesOf {entries : List (UndoEntry P)} {d : Direction} {c : Change P}
    (h : c ∈ changesOf entries d) : UndoEntry.changed c ∈ entries := by
  have hm : c ∈ (entries.filterMap UndoEntry.change?).filter fun c => !c.kept := by
    cases d with
    | undo => exact filterMap_change?_modify entries ▸ List.mem_reverse.mp h
    | redo => exact filterMap_change?_modify entries ▸ h
  exact mem_change?.mp (List.mem_filter.mp hm).1

/-- The changes of an entity are those of its entries. -/
theorem filterMap_change?_entity (entries : List (UndoEntry P)) (e : Entity) :
    (entries.filter fun u => u.entity == e).filterMap UndoEntry.change? =
      (entries.filterMap UndoEntry.change?).filter fun c => c.entity == e := by
  induction entries with
  | nil => rfl
  | cons u rest ih =>
    cases u with
    | created x | deleted x =>
      rw [List.filter_cons]
      split
      · exact ih
      · exact ih
    | changed c =>
      have hchange (us : List (UndoEntry P)) : (UndoEntry.changed c :: us).filterMap
          UndoEntry.change? = c :: us.filterMap UndoEntry.change? := rfl
      have hentity : (UndoEntry.changed c).entity = c.entity := rfl
      rw [List.filter_cons, hentity, hchange, List.filter_cons]
      split
      · rw [hchange, ih]
      · exact ih

theorem cell_filter_entity (entries : List (UndoEntry P)) (e : Entity) (name : String) :
    cell (entries.filter fun u => u.entity == e) e name = cell entries e name := by
  unfold cell
  rw [filterMap_change?_entity, List.filter_filter]
  refine List.filter_congr ?_
  intro c _
  cases c.entity == e <;> simp

/-- The changes that a replay makes to a parameter. -/
theorem changesOf_cell (entries : List (UndoEntry P)) (d : Direction) (e : Entity)
    (name : String) :
    (((changesOf entries d).filter fun c => c.entity == e).filter fun c => c.param.name == name) =
      match d with
      | .undo => ((cell entries e name).filter fun c => !c.kept).reverse
      | .redo => (cell entries e name).filter fun c => !c.kept := by
  -- Undo or redo, the same changes are selected; undo takes them from the last one.
  have hcell : (((entries.filterMap UndoEntry.change?).filter fun c => !c.kept).filter
      fun c => c.entity == e).filter (fun c => c.param.name == name) =
      (cell entries e name).filter fun c => !c.kept := by
    unfold cell
    rw [List.filter_filter, List.filter_filter, List.filter_filter]
    refine List.filter_congr ?_
    intro c _
    cases c.kept <;> cases c.entity == e <;> cases c.param.name == name <;> rfl
  cases d with
  | redo =>
    show (((entries.filter fun u => u.action == .modify).filterMap UndoEntry.change?).filter _).filter
      _ = _
    rw [filterMap_change?_modify, hcell]
  | undo =>
    show (((entries.filter fun u => u.action == .modify).filterMap
      UndoEntry.change?).reverse.filter _).filter _ = _
    rw [filterMap_change?_modify, List.filter_reverse, List.filter_reverse, hcell]

/-- What restoring makes of a value. -/
theorem value?_replayed {b : Book P} (h : b.WellFormed) {entries : List (UndoEntry P)}
    (hfit : b.FitEntries entries) (d : Direction) {e : Entity} {cl : ObjectClass P}
    (hfind : b.registry.find? e.typeTag = some cl) (hlaw : cl.IsLawful) {i : Instance P}
    (htype : i.payload.type = cl.payloadType) {p : Param P} (hp : p ∈ cl.copyable)
    {v : ParamValue} (hv : i.value? p.accessor = some v) :
    (replayed i e entries d).value? p.accessor =
      some (d.replayValue (cell entries e p.name) v) := by
  have hwf : cl.WellFormed := h.registry.of_find? hfind
  -- Changes of one entity are about the parameters of its class.
  have hcs : ∀ c ∈ (changesOf entries d).filter fun c => c.entity == e, c.Fits cl := by
    intro c hc
    obtain ⟨hm, he⟩ := List.mem_filter.mp hc
    obtain ⟨cl', hcl', hfits⟩ := hfit c (mem_of_mem_changesOf hm)
    have he : c.entity = e := by simpa using he
    rw [he] at hcl'
    cases hfind.symm.trans hcl'
    exact hfits
  unfold replayed
  rw [Instance.value?_foldl_restored hwf hlaw htype d.side hcs hp hv, changesOf_cell]
  unfold Direction.replayValue
  cases d <;> rfl

/-- What restoring makes of an instance depends on the entries of its entity. -/
theorem replayed_filter_entity (i : Instance P) (e : Entity) (entries : List (UndoEntry P))
    (d : Direction) :
    replayed i e (entries.filter fun u => u.entity == e) d = replayed i e entries d := by
  have hmodify : (((entries.filter fun u => u.entity == e).filter fun u =>
      u.action == .modify).filterMap
      UndoEntry.change?).filter (fun c => c.entity == e) =
      ((entries.filter fun u => u.action == .modify).filterMap UndoEntry.change?).filter
        fun c => c.entity == e := by
    rw [filterMap_change?_modify, filterMap_change?_modify, filterMap_change?_entity,
      List.filter_filter, List.filter_filter, List.filter_filter]
    refine List.filter_congr ?_
    intro c _
    cases c.kept <;> cases c.entity == e <;> rfl
  unfold replayed changesOf
  cases d with
  | undo =>
    dsimp only
    rw [List.filter_reverse, List.filter_reverse, hmodify]
  | redo =>
    dsimp only
    rw [hmodify]

/-! ### A replay that spares an entity -/

section Spared

variable {b : Book P} {e : Entity} {es : List Entity}

theorem get?_foldl_instantiate_of_some {i : Instance P} (h : b.get? e = some i) :
    (es.foldl Book.instantiate b).get? e = some i := by
  induction es generalizing b with
  | nil => exact h
  | cons x rest ih =>
    by_cases hx : e = x
    · subst hx
      exact ih (get?_instantiate_of_some h)
    · exact ih ((get?_instantiate_of_ne hx).trans h)

theorem get?_foldl_instantiate_of_none {cl : ObjectClass P} {payload : Payload P}
    (h : b.get? e = none) (hes : e ∈ es) (hm : b.Makes e cl payload) :
    (es.foldl Book.instantiate b).get? e = some (b.newborn e payload) := by
  induction es generalizing b with
  | nil => cases hes
  | cons x rest ih =>
    by_cases hx : e = x
    · subst hx
      rw [List.foldl_cons]
      exact get?_foldl_instantiate_of_some (get?_instantiate_of_none h hm)
    · have hset := SameSetup.instantiate b x
      rw [← hset.newborn]
      exact ih ((get?_instantiate_of_ne hx).trans h) ((List.mem_cons.mp hes).resolve_left hx)
        (hm.of_setup hset)

theorem get?_foldl_destroy_of_not_mem (h : e ∉ es) :
    (es.foldl Book.destroy b).get? e = b.get? e := by
  induction es generalizing b with
  | nil => rfl
  | cons x rest ih =>
    have hx : e ≠ x := List.ne_of_not_mem_cons h
    exact (ih (List.not_mem_of_not_mem_cons h)).trans (get?_destroy_of_ne hx)

variable {entries : List (UndoEntry P)} {d : Direction}

theorem SameSetup.destroyAll (b : Book P) (es : List Entity) :
    b.SameSetup (es.foldl Book.destroy b) := by
  induction es generalizing b with
  | nil => exact .refl b
  | cons x rest ih =>
    have hone : b.SameSetup (b.destroy x) := by
      unfold Book.destroy
      split
      · have hk := Keeps.delete b x
        exact ⟨hk.id, hk.registry, hk.config, hk.backend⟩
      · exact .refl b
    exact hone.trans (ih (b.destroy x))

/-- A replay keeps the surroundings of instances. -/
theorem SameSetup.replay (h : b.WellFormed) (entries : List (UndoEntry P)) (d : Direction) :
    b.SameSetup (b.replay entries d) := by
  obtain ⟨hwf, hset⟩ := (h.of_eq rfl rfl rfl rfl : b.suspend.WellFormed).instantiateAll
    (entitiesOf entries d.made)
  have hrest := Revises.restoreAll hwf d.side (changesOf entries d)
  have hsuspended : b.SameSetup b.suspend := ⟨rfl, rfl, rfl, rfl⟩
  have hlast := ((hsuspended.trans hset).trans (.of_revises hrest)).trans
    (.destroyAll _ (entitiesOf entries d.removed))
  rw [replay_eq]
  exact hlast.trans ⟨rfl, rfl, rfl, rfl⟩

/-- An entity that was there is there when values are restored. -/
theorem get?_prepared_of_some {i : Instance P} (h : b.get? e = some i) :
    (b.prepared entries d).get? e = some i :=
  get?_foldl_instantiate_of_some (b := b.suspend) h

/-- One that was not has been made. -/
theorem get?_prepared_of_none {cl : ObjectClass P} {payload : Payload P} (h : b.get? e = none)
    (hmade : e ∈ entitiesOf entries d.made) (hm : b.Makes e cl payload) :
    (b.prepared entries d).get? e = some (b.newborn e payload) :=
  get?_foldl_instantiate_of_none (b := b.suspend) h hmade (hm.of_setup ⟨rfl, rfl, rfl, rfl⟩)

/-- Then its values are restored, whatever becomes of other entities. Open edits stay
    open. -/
theorem get?_replay_of_spared (hb : b.WellFormed) (hspared : e ∉ entitiesOf entries d.removed)
    {i : Instance P} (hi : (b.prepared entries d).get? e = some i) :
    ∃ k, (b.replay entries d).get? e = some k ∧ i.Rewrites k ∧
      k.Same (replayed i e entries d) := by
  have hprepared : (b.prepared entries d).WellFormed :=
    (WellFormed.instantiateAll (hb.of_eq rfl rfl rfl rfl : b.suspend.WellFormed) _).1
  have hrev := Revises.restoreAll hprepared d.side (changesOf entries d)
  obtain ⟨k, hk, hsame⟩ := get?_restoreAll hprepared d.side (changesOf entries d) hi
  obtain ⟨k', hk', hrewrites⟩ := hrev.live hi
  cases hk.symm.trans hk'
  refine ⟨k, ?_, hrewrites, hsame⟩
  rw [replay_eq]
  exact (get?_foldl_destroy_of_not_mem hspared).trans hk

/-- Each of its parameters has a value then. -/
theorem value?_replay_of_spared (hb : b.WellFormed) (hspared : e ∉ entitiesOf entries d.removed)
    {i : Instance P} (hi : (b.prepared entries d).get? e = some i)
    (hfit : b.FitEntries (entries.filter fun u => u.entity == e)) {cl : ObjectClass P}
    (hfind : b.registry.find? e.typeTag = some cl) (hlaw : cl.IsLawful)
    (htype : i.payload.type = cl.payloadType) :
    ∃ k, (b.replay entries d).get? e = some k ∧ i.Rewrites k ∧
      ∀ p ∈ cl.copyable, ∀ v, i.value? p.accessor = some v →
        k.value? p.accessor = some (d.replayValue (cell entries e p.name) v) := by
  obtain ⟨k, hk, hrewrites, hsame⟩ := get?_replay_of_spared hb hspared hi
  refine ⟨k, hk, hrewrites, ?_⟩
  intro p hp v hv
  rw [hsame.value?, ← replayed_filter_entity, ← cell_filter_entity]
  exact value?_replayed hb hfit d hfind hlaw htype hp hv

end Spared

/-! ### A replay that deletes nothing -/

section Kept

variable {b : Book P} {entries : List (UndoEntry P)} {d : Direction}

theorem WellFormed.prepared (h : b.WellFormed) (entries : List (UndoEntry P)) (d : Direction) :
    (b.prepared entries d).WellFormed ∧ b.SameSetup (b.prepared entries d) := by
  have hsus := Revises.suspend b
  obtain ⟨hwf, hset⟩ := (hsus.wellFormed h).instantiateAll (entitiesOf entries d.made)
  exact ⟨hwf, (SameSetup.of_revises hsus).trans hset⟩

/-- The values of an entity after such a replay. -/
theorem value?_replay_of_kept (h : b.WellFormed) (hkept : entitiesOf entries d.removed = [])
    (hfit : b.FitEntries entries) {e : Entity} {cl : ObjectClass P}
    (hfind : b.registry.find? e.typeTag = some cl) (hlaw : cl.IsLawful) {i : Instance P}
    (hi : (b.prepared entries d).get? e = some i) (htype : i.payload.type = cl.payloadType) :
    ∃ k, (b.replay entries d).get? e = some k ∧
      ∀ p ∈ cl.copyable, ∀ v, i.value? p.accessor = some v →
        k.value? p.accessor = some (d.replayValue (cell entries e p.name) v) := by
  obtain ⟨k, hk, hsame⟩ :=
    get?_restoreAll (h.prepared entries d).1 d.side (changesOf entries d) hi
  refine ⟨k, ?_, ?_⟩
  · rw [Book.replay_of_kept b hkept]
    exact hk
  · intro p hp v hv
    rw [hsame.value?]
    exact value?_replayed h hfit d hfind hlaw htype hp hv

end Kept

end Book

end EntityBook
