import EntityBook.Proofs.SideTable.Canonical
import EntityBook.Proofs.Undo.Timeline

/-! # What a deletion loses

  A deletion is recorded as the texts of all values of the entity. Undo makes the
  entity again, with the initial values of its class, and gives each parameter what
  its text reads as. So the entity always comes back, and a value comes back as far
  as its text carries it: `Survives` says when, and `deletion_undone_iff` that the
  values for which it holds are exactly those that come back.

  A side-table has a text for each leaf, under the path of the leaf. It survives if
  its names can stand in a path and every leaf is read back.
-/

namespace EntityBook

variable {P : PayloadFamily}

/-! ### Values up to NaNs -/

namespace ParamValue

/-- The value, with one NaN for all in it. -/
def canonical : ParamValue → ParamValue
  | scalar .double x => scalar .double x.canonical
  | slots f => slots f.canonical
  | v => v

/-- The same value, where a NaN counts as equal to a NaN. -/
def Alike (v w : ParamValue) : Prop := v.canonical = w.canonical

instance (v w : ParamValue) : Decidable (v.Alike w) :=
  inferInstanceAs (Decidable (v.canonical = w.canonical))

theorem Alike.refl (v : ParamValue) : v.Alike v := rfl

/-- What the text of a value makes of the initial one; a text that is not read leaves
    it as it is. -/
def carried (v : ParamValue) (k : ParamKind) (initial : ParamValue) : ParamValue :=
  match parse k v.text with
  | .ok w => w
  | .error _ => initial

/-- What is captured of a value carries it over to a new instance. -/
def Survives (v : ParamValue) (k : ParamKind) (initial : ParamValue) : Prop :=
  match v with
  | slots f => f.Tidy ∧ f.Readable
  | v => (v.carried k initial).Alike v

theorem survives_scalar {kind : ScalarKind} {x : kind.Value} {k : ParamKind} {w : ParamValue}
    (h : parse k (scalar kind x).text = .ok w) (hw : w.Alike (scalar kind x))
    (initial : ParamValue) : (scalar kind x).Survives k initial := by
  show ((scalar kind x).carried k initial).Alike (scalar kind x)
  unfold carried
  rw [h]
  exact hw

end ParamValue

/-! ### Tables from the texts of their leaves -/

namespace Frame

/-- A leaf that is there after a leaf was written was there before, or is the one. -/
theorem leafAt_setAt_cases {f : Frame} {v t : Slot} (hv : v.isLeaf = true)
    {ms ns : List String} (h : (f.setAt v ms).leafAt ns = some t) :
    f.leafAt ns = some t ∨ (ms = ns ∧ v = t) := by
  by_cases hms : ms = []
  · subst hms
    exact Or.inl h
  by_cases hbelow : ms <+: ns
  · obtain ⟨ks, rfl⟩ := hbelow
    rw [leafAt_setAt_below v hms] at h
    by_cases hks : ks = []
    · subst hks
      rw [Slot.leafAt, if_pos hv] at h
      exact Or.inr ⟨(List.append_nil ms).symm, Option.some.inj h⟩
    · rw [leafAt_of_isLeaf hv hks] at h
      cases h
  · left
    by_cases habove : ns <+: ms
    · have hne : ns ≠ ms := by
        rintro rfl
        exact hbelow (List.prefix_refl _)
      rw [leafAt_setAt_above v habove hne] at h
      cases h
    · rwa [leafAt_setAt_apart v ⟨hbelow, habove⟩] at h

/-- Writing leaves brings no other ones. -/
theorem leafAt_foldl_write {f : Frame} {xs : List Patch} {ns : List String} {t : Slot}
    (hxs : ∀ x ∈ xs, ∃ v, x.2 = some v ∧ v.isLeaf = true)
    (h : (xs.foldl apply f).leafAt ns = some t) :
    f.leafAt ns = some t ∨ (ns, some t) ∈ xs := by
  induction xs generalizing f with
  | nil => exact Or.inl h
  | cons x rest ih =>
    obtain ⟨ms, action⟩ := x
    obtain ⟨v, rfl, hv⟩ := hxs _ List.mem_cons_self
    rcases ih (fun y hy => hxs y (List.mem_cons_of_mem _ hy)) h with hleaf | hmem
    · have hset : (f.setAt v ms).leafAt ns = some t := hleaf
      rcases leafAt_setAt_cases hv hset with hold | ⟨rfl, rfl⟩
      · exact Or.inl hold
      · exact Or.inr List.mem_cons_self
    · exact Or.inr (List.mem_cons_of_mem _ hmem)

/-- The patches that the texts of slots stand for, where they can be read. -/
def rereads (xs : List (String × Slot)) : List Patch :=
  xs.filterMap fun x => patch? x.1 (.value x.2.text)

theorem mem_rereads {xs : List (String × Slot)} {x : Patch} (h : x ∈ rereads xs) :
    ∃ path s t, (path, s) ∈ xs ∧ Slot.parse s.text = .ok t ∧ x = (names path, some t) := by
  obtain ⟨⟨path, s⟩, hm, hpatch⟩ := List.mem_filterMap.mp h
  unfold patch? at hpatch
  dsimp only at hpatch
  cases ht : Slot.parse s.text with
  | error err =>
    rw [ht] at hpatch
    cases hpatch
  | ok t =>
    rw [ht] at hpatch
    exact ⟨path, s, t, hm, ht, (Option.some.inj hpatch).symm⟩

/-- What undo makes of an empty table, given the texts of the leaves: the last leaf
    is restored first. -/
def recovered (f : Frame) : Frame := (rereads f.leaves.reverse).foldl apply empty

/-- A leaf that is restored was read from the text of a leaf. -/
theorem mem_rereads_leaves {f : Frame} {x : Patch} (h : x ∈ rereads f.leaves.reverse) :
    ∃ path s t, (path, s) ∈ f.leaves ∧ s.isLeaf = true ∧ Slot.parse s.text = .ok t ∧
      t.isLeaf = true ∧ x = (names path, some t) := by
  obtain ⟨path, s, t, hm, ht, rfl⟩ := mem_rereads h
  have hm := List.mem_reverse.mp hm
  have hs := isLeaf_of_mem_leavesBelow hm
  exact ⟨path, s, t, hm, hs, ht, Slot.isLeaf_of_parse_text hs ht, rfl⟩

theorem tidy_recovered (f : Frame) : f.recovered.Tidy := by
  refine tidy_foldl_apply (show Frame.empty.Tidy from trivial) ?_
  intro x hx v hv
  obtain ⟨path, _, t, _, _, _, ht, rfl⟩ := mem_rereads_leaves hx
  cases hv
  exact ⟨Slot.tidy_of_isLeaf ht, fun n hn => properName_of_mem_names hn⟩

/-- A recovered leaf stands where the table had one, and is what its text reads as. -/
theorem leafAt_recovered {f : Frame} (hf : f.Tidy) {ns : List String} {t : Slot}
    (h : f.recovered.leafAt ns = some t) :
    ∃ s, f.leafAt ns = some s ∧ Slot.parse s.text = .ok t := by
  have hwrites : ∀ x ∈ rereads f.leaves.reverse, ∃ v, x.2 = some v ∧ v.isLeaf = true := by
    intro x hx
    obtain ⟨_, _, t, _, _, _, ht, rfl⟩ := mem_rereads_leaves hx
    exact ⟨t, rfl, ht⟩
  rcases leafAt_foldl_write hwrites h with hempty | hmem
  · rw [leafAt_empty] at hempty
    cases hempty
  · obtain ⟨path, s, _, hm, _, ht, _, heq⟩ := mem_rereads_leaves hmem
    rw [leaves_eq] at hm
    obtain ⟨⟨ms, u⟩, hu, hpath⟩ := List.mem_map.mp hm
    have hleaf := (mem_leafList hf).mp hu
    cases hpath
    rw [names_pathOf (properName_of_leafAt hf hleaf)] at heq
    cases heq
    exact ⟨_, hleaf, ht⟩

/-- Only a table whose leaves all read back is recovered, even up to NaNs. -/
theorem tidy_readable_of_recovered {f : Frame} (h : f.recovered.canonical = f.canonical) :
    f.Tidy ∧ f.Readable := by
  have htidy : f.Tidy := by
    rw [← tidy_canonical, ← h, tidy_canonical]
    exact tidy_recovered f
  refine ⟨htidy, ?_⟩
  intro ns s hs
  have hleaf : f.recovered.canonical.leafAt ns = some s.canonical := by
    rw [h, leafAt_canonical, hs, Option.map_some]
  rw [leafAt_canonical] at hleaf
  obtain ⟨t, ht, heq⟩ := Option.map_eq_some_iff.mp hleaf
  obtain ⟨s', hs', hread⟩ := leafAt_recovered htidy ht
  cases hs.symm.trans hs'
  rw [Slot.eq_of_parse_text_canonical (isLeaf_of_leafAt hs) hread heq] at hread
  exact hread

end Frame

/-! ### Values from their captures -/

namespace ParamValue

/-- Restoring the texts of slots writes those that can be read. -/
theorem foldl_restored_rereads (side : Change P → Capture) {cs : List (Change P)}
    {xs : List (String × Slot)}
    (hcs : cs.map (fun c => (c.path, side c)) = xs.map fun x => (some x.1, .value x.2.text))
    (f : Frame) :
    cs.foldl (fun v c => v.restored c (side c)) (slots f) =
      slots ((Frame.rereads xs).foldl Frame.apply f) := by
  induction xs generalizing cs f with
  | nil =>
    rw [List.map_nil, List.map_eq_nil_iff] at hcs
    rw [hcs]
    rfl
  | cons x rest ih =>
    obtain ⟨c, cs', rfl, hc, hrest⟩ := List.map_eq_cons_iff.mp hcs
    obtain ⟨hpath, hside⟩ := Prod.mk.inj hc
    have hstep : Frame.rereads (x :: rest) =
        (Frame.patch? x.1 (.value x.2.text)).toList ++ Frame.rereads rest := by
      unfold Frame.rereads
      cases h : Frame.patch? x.1 (.value x.2.text) <;> simp [h]
    rw [List.foldl_cons, restored_slots hpath, hside, ih hrest, hstep, List.foldl_append]
    cases Frame.patch? x.1 (.value x.2.text) <;> rfl

/-- Restoring the captures of a value on a new instance gives a value like it just if
    it survives. -/
theorem alike_foldl_restored_iff (side : Change P → Capture) {p : Param P} {u v : ParamValue}
    (hv : v.HasKind p.kind) (hu : p.isSlots = true → u = slots .empty) {cs : List (Change P)}
    (hparam : ∀ c ∈ cs, c.param = p)
    (hcs : cs.map (fun c => (c.path, side c)) = v.captures.reverse) :
    (cs.foldl (fun v c => v.restored c (side c)) u).Alike v ↔ v.Survives p.kind u := by
  cases v with
  | slots f =>
    rw [hu (isSlots_of_hasKind hv)]
    constructor
    · intro h
      have hleaves : (slots f).captures.reverse =
          f.leaves.reverse.map fun x => (some x.1, Capture.value x.2.text) :=
        List.map_reverse.symm
      rw [foldl_restored_rereads side (hcs.trans hleaves)] at h
      exact Frame.tidy_readable_of_recovered (slots.inj h)
    · intro h
      have hrest : (slots f).Restorable p.kind := h
      rw [foldl_restored_captures side hrest (Or.inl rfl) hparam (Or.inr hcs)]
      exact .refl _
  | scalar _ _ | reference _ | choice _ | collection _ | book _ =>
    obtain ⟨c, rest, rfl, hc, hnil⟩ := List.map_eq_cons_iff.mp hcs
    cases List.map_eq_nil_iff.mp hnil
    obtain ⟨hpath, hside⟩ := Prod.mk.inj hc
    have hp : c.param = p := hparam c List.mem_cons_self
    rw [List.foldl_cons, List.foldl_nil]
    unfold restored
    rw [hpath, hside, hp]
    exact Iff.rfl

end ParamValue

namespace Book

open Recorded (deletion)

variable {b c : Book P} {e : Entity} {i : Instance P} {cl : ObjectClass P}

/-! ### The entries of a deletion -/

theorem entitiesOf_deletion_create (e : Entity) (i : Instance P) (cl : ObjectClass P) :
    entitiesOf (deletion e i cl) .create = [e] := by
  have hrest : entitiesOf (snapshotOf e (fun _ => .absent) (valueOf i) cl.copyable) .create =
      [] := by
    refine List.eq_nil_iff_forall_not_mem.mpr ?_
    intro x hx
    obtain ⟨_, _, d, _, hd⟩ := mem_snapshotOf (mem_entitiesOf_create.mp hx)
    cases hd
  show e :: entitiesOf (snapshotOf e (fun _ => .absent) (valueOf i) cl.copyable) .create = [e]
  rw [hrest]

theorem entitiesOf_deletion_delete (e : Entity) (i : Instance P) (cl : ObjectClass P) :
    entitiesOf (deletion e i cl) .delete = [] := by
  refine List.eq_nil_iff_forall_not_mem.mpr ?_
  intro x hx
  refine Recorded.not_mem_deletion ?_ ?_ (mem_entitiesOf_delete.mp hx)
  · intro d hd
    cases hd
  · intro hd
    cases hd

/-- They hold both sides, so that closing the operation adds nothing. -/
theorem map_close_deletion (b : Book P) (e : Entity) (i : Instance P) (cl : ObjectClass P) :
    (deletion e i cl).map b.close = deletion e i cl := by
  refine (List.map_congr_left ?_).trans (List.map_id _)
  intro u hu
  rcases List.mem_cons.mp hu with rfl | hu
  · rfl
  · obtain ⟨p, _, d, hd, rfl⟩ := mem_snapshotOf hu
    obtain ⟨_, _, hafter, hkept, hm⟩ := mem_captured hd
    show UndoEntry.changed (b.closed d) = .changed d
    rw [closed_of_absent hm hafter, ← hkept]

/-! ### The operation and its undo -/

/-- Recording a deletion and deleting the entity is an operation that is committed. -/
theorem session_delete (hb : b.WellFormed) (enabled : b.config.undoEnabled = true)
    (label : String) (live : b.get? e = some i) (idle : i.level = 0)
    (hcl : b.registry.find? e.typeTag = some cl) :
    ∃ (c : Book P) (l : UndoLog P), c.WellFormed ∧ b.SameSetup c ∧ c.get? e = none ∧
      b.session label [.delete e] =
        (true, c.withLog (l.push ⟨label, deletion e i cl⟩ b.config.undoLimit)) := by
  have hstart : b.startOperation label = b.setRecording (some { label }) := if_pos enabled
  have hopen : (b.setRecording (some { label })).WellFormed := hb.withLog _
  have hrecord := Recorded.recordDelete_of_live hopen (o := { label }) (if_pos enabled) live hcl
  generalize hr : (b.setRecording (some { label })).addEntries { label } (deletion e i cl) = r
    at hrecord
  have hwf : r.WellFormed := hr ▸ hopen.withLog _
  have hset : b.SameSetup r := by
    subst hr
    exact ⟨rfl, rfl, rfl, rfl⟩
  have hlive : r.get? e = some i := hr ▸ live
  have hk := Keeps.delete r e
  have hduring : b.during label [.delete e] = (r.delete e).2 := by
    show (((b.startOperation label).recordDelete e).2.delete e).2 = _
    rw [hstart, hrecord]
  have hrecording : (r.delete e).2.undo.recording =
      some { label, entries := deletion e i cl } := by
    rw [hk.undo, ← hr]
    rfl
  obtain ⟨l, hl⟩ := exists_push_of_entries hrecording rfl (List.cons_ne_nil _ _)
  refine ⟨(r.delete e).2, l, hwf.delete e, ?_, get?_delete_self hlive idle, ?_⟩
  · exact hset.trans ⟨hk.id, hk.registry, hk.config, hk.backend⟩
  · unfold session
    rw [hduring, hl, map_close_deletion, hk.config, hset.config]

/-- Undo of a deletion makes the entity again. -/
theorem prepared_deletion (c : Book P) (e : Entity) (i : Instance P) (cl : ObjectClass P) :
    c.prepared (deletion e i cl) .undo = c.suspend.instantiate e := by
  have hmade : entitiesOf (deletion e i cl) Direction.undo.made = [e] :=
    entitiesOf_deletion_create e i cl
  unfold prepared
  rw [hmade]
  rfl

/-- The values of an entity after the undo of its deletion. -/
theorem get?_replay_deletion (hc : c.WellFormed) (hfit : c.FitEntries (deletion e i cl))
    (lawful : cl.IsLawful) (gone : c.get? e = none) {payload : Payload P}
    (hm : c.Makes e cl payload) :
    ∃ k, (c.replay (deletion e i cl) .undo).get? e = some k ∧
      ∀ p ∈ cl.copyable, ∀ u, (c.newborn e payload).value? p.accessor = some u →
        k.value? p.accessor = some (Direction.undo.replayValue
          (captured e p (fun _ => .absent) (valueOf i p)) u) := by
  have hnew : (c.prepared (deletion e i cl) .undo).get? e = some (c.newborn e payload) := by
    rw [prepared_deletion]
    exact get?_instantiate_of_none (b := c.suspend) gone
      (hm.of_setup (.of_revises (.suspend c)))
  obtain ⟨k, hk, hvalue⟩ := value?_replay_of_kept hc (entitiesOf_deletion_delete e i cl) hfit
    hm.found lawful hnew (ObjectClass.type_of_initialPayload hm.payload)
  refine ⟨k, hk, ?_⟩
  intro p hp u hu
  rw [← Recorded.cell_deletion_self (hc.registry.of_find? hm.found) hp]
  exact hvalue p hp u hu

/-- What undo makes of the initial value is like the value that was captured just if
    that one survives. -/
theorem alike_replayValue_iff {p : Param P} {u v : ParamValue} (hv : v.HasKind p.kind)
    (hu : p.isSlots = true → u = .slots .empty) :
    (Direction.undo.replayValue (captured e p (fun _ => .absent) v) u).Alike v ↔
      v.Survives p.kind u := by
  unfold Direction.replayValue
  dsimp only
  rw [filter_captured]
  refine ParamValue.alike_foldl_restored_iff Direction.undo.side hv hu ?_ ?_
  · intro d hd
    exact (mem_captured (List.mem_reverse.mp hd)).2.1
  · rw [List.map_reverse]
    exact congrArg List.reverse (map_before_captured e p _ v)

/-- An entity that no one edits is deleted in an operation of its own. Undo makes it
    live again, whatever the backend answers, and each of its parameters has a value
    then. It is the one that the parameter had just if that one survives. -/
theorem deletion_undone_iff (hb : b.WellFormed) (enabled : b.config.undoEnabled = true)
    (limit : 0 < b.config.undoLimit) (label : String) (live : b.get? e = some i)
    (idle : i.level = 0) (hcl : b.registry.find? e.typeTag = some cl) (lawful : cl.IsLawful) :
    (b.session label [.delete e]).1 = true ∧
    (b.session label [.delete e]).2.contains e = false ∧
    (b.session label [.delete e]).2.undoLast.1 = true ∧
    (b.session label [.delete e]).2.undoLast.2.contains e = true ∧
    ∃ payload, cl.initialPayload? = some payload ∧
      ∀ p ∈ cl.copyable, ∃ u v w, (b.newborn e payload).value? p.accessor = some u ∧
        b.read e p.name = .ok v ∧
        (b.session label [.delete e]).2.undoLast.2.read e p.name = .ok w ∧
        (w.Alike v ↔ v.Survives p.kind u) := by
  obtain ⟨c, l, hc, hset, gone, hsession⟩ := session_delete hb enabled label live idle hcl
  obtain ⟨cl', payload, hmakes, _⟩ := hb.exists_makes live
  cases hcl.symm.trans hmakes.found
  -- Undo moves the cursor and replays the entries.
  obtain ⟨u, hundo⟩ : ∃ u, (b.session label [.delete e]).2.undoLast =
      (true, (c.withLog u).replay (deletion e i cl) .undo) := by
    rw [hsession]
    exact ⟨_, undoLast_of_push (b := c.withLog _) rfl limit⟩
  have hwf : (c.withLog u).WellFormed := hc.withLog u
  have hset' : b.SameSetup (c.withLog u) := hset.trans (.withLog c u)
  have hfit := (Recorded.fitEntries_deletion hb live hcl).of_setup hset'
  obtain ⟨k, hk, hvalue⟩ := get?_replay_deletion hwf hfit lawful gone (hmakes.of_setup hset')
  refine ⟨congrArg Prod.fst hsession, ?_, congrArg Prod.fst hundo, ?_, payload, hmakes.payload,
    ?_⟩
  · rw [hsession]
    exact contains_of_none gone
  · rw [hundo]
    exact contains_of_some hk
  intro p hp
  have hv := hb.exists_value live hcl hp
  obtain ⟨u₀, hu₀⟩ := hmakes.exists_value hp
  have hname := ObjectClass.param?_of_mem (hb.registry.of_find? hcl)
    (ObjectClass.mem_params_of_mem_copyable hp)
  have hparam : b.undoableParam e p.name = .ok p := undoableParam_eq_ok.mpr ⟨cl, hcl, hp, hname⟩
  have hagain : (b.session label [.delete e]).2.undoLast.2.undoableParam e p.name = .ok p := by
    have hback := SameSetup.replay hwf (deletion e i cl) .undo
    rw [hundo, undoableParam_congr (hback.registry.trans hset'.registry)]
    exact hparam
  have hw := hvalue p hp u₀ ((congrArg (fun j => j.value? p.accessor)
    (hset'.newborn e payload)).trans hu₀)
  refine ⟨u₀, valueOf i p, _, hu₀, read_eq hparam live hv, read_eq hagain (hundo ▸ hk) hw, ?_⟩
  refine alike_replayValue_iff (Instance.hasKind_value hv) ?_
  intro hslots
  rw [Instance.accessor_of_isSlots hslots] at hu₀
  exact (Option.some.inj hu₀).symm

/-! ### Items that are deleted -/

section Items

open Bag

/-- When an item is due. -/
def dueColumn : Column := { kind := .scalar .time, name := "due", compartment := "due" }

/-- The rate of an item. -/
def rateColumn : Column := { kind := .scalar .double, name := "rate", compartment := "rate" }

/-- The side-table of an item. -/
def tableColumn : Column := { kind := .slots, name := "slots", compartment := "slots" }

/-- Items. -/
def itemClass : ObjectClass bags :=
  .build "item" .alpha (some .empty)
    ([dueColumn, rateColumn, tableColumn].map (Column.param .alpha))

theorem isLawful_itemClass : itemClass.IsLawful :=
  isLawful_build "item" (some .empty) [dueColumn, rateColumn, tableColumn] (by decide)

/-- The only item. -/
def item : Entity := ⟨"item", ⟨1⟩⟩

/-- A book of items without any. -/
def emptyStock : Book bags := { id := ⟨2⟩, registry := ⟨[itemClass]⟩ }

/-- A book with an item that was given these values. -/
def stocked (due : Timestamp) (rate : Double) (table : Frame) : Book bags :=
  let b := (emptyStock.create "item" item.guid).2
  let b := (b.write item "due" (.scalar .time due)).2
  let b := (b.write item "rate" (.scalar .double rate)).2
  (b.write item "slots" (.slots table)).2

theorem wellFormed_stocked (due : Timestamp) (rate : Double) (table : Frame) :
    (stocked due rate table).WellFormed := by
  have hempty : emptyStock.WellFormed := by
    refine ⟨OrderedMap.sorted_empty, ?_, ?_⟩
    · intro c hc
      cases List.mem_singleton.mp hc
      exact ObjectClass.wellFormed_build ..
    · intro e i h
      cases h
  have hwrite {b : Book bags} (h : b.WellFormed) (name : String) (v : ParamValue) :
      (b.write item name v).2.WellFormed := (Revises.write h item name v).wellFormed h
  exact hwrite (hwrite (hwrite (hempty.create "item" item.guid) "due" _) "rate" _) "slots" _

/-- Noon of a day. -/
def noon : Timestamp := ⟨1700049600, 0, by decide⟩

/-- The last second of the year 9999, an hour to the west of the meridian. -/
def farDue : Timestamp := ⟨253402304399, 0, by decide⟩

/-- A NaN that is not the usual one. -/
def oddNaN : Double := .ofMagnitude true 0x7FF8000000000001

/-- A table with a number and, in a frame, a text and a frame without slots. -/
def smallTable : Frame :=
  ((Frame.empty.setAt (.int64 2) ["count"]).setAt (.string "a/b") ["notes", "first"]).setAt
    (.frame .empty) ["notes", "rest"]

/-- A table with a limit that is infinite, and with a name that no path can hold. -/
def oddTable : Frame :=
  (Frame.empty.setAt (.double (.infinity false)) ["limit"]).setAt
    (.frame (.cons "a/b" (.int64 3) .empty)) ["sizes"]

theorem restorable_smallTable : smallTable.Tidy ∧ smallTable.Readable := by
  have hset {f : Frame} (h : f.Tidy ∧ f.Readable) {v : Slot} (hv : v.isLeaf = true)
      (hread : Slot.parse v.text = .ok v) (ns : List String)
      (hns : ∀ n ∈ ns, Frame.ProperName n) : (f.setAt v ns).Tidy ∧ (f.setAt v ns).Readable :=
    ⟨h.1.setAt (Slot.tidy_of_isLeaf hv) hns, h.2.setAt (Slot.readable_of_isLeaf hv hread) ns⟩
  have hempty : Frame.empty.Tidy ∧ Frame.empty.Readable := ⟨trivial, Frame.readable_empty⟩
  have hcount := hset hempty (v := .int64 2) rfl (by decide +kernel) ["count"] (by decide)
  have hfirst := hset hcount (v := .string "a/b") rfl (by decide +kernel) ["notes", "first"]
    (by decide)
  exact hset hfirst (v := .frame .empty) rfl Slot.parse_text_empty ["notes", "rest"] (by decide)

/-- A book with an item whose values all survive. -/
def plainStock : Book bags := stocked noon oddNaN smallTable

/-- A book with an item whose instant and side-table do not survive. -/
def oddStock : Book bags := stocked farDue oddNaN oddTable

/-- All values of a plain item come back, the NaN as a NaN. -/
theorem plain_item_restored :
    (plainStock.session "drop" [.delete item]).1 = true ∧
    (plainStock.session "drop" [.delete item]).2.contains item = false ∧
    (∃ w, (plainStock.session "drop" [.delete item]).2.undoLast.2.read item "due" = .ok w ∧
      w.Alike (.scalar .time noon)) ∧
    (∃ w, (plainStock.session "drop" [.delete item]).2.undoLast.2.read item "rate" = .ok w ∧
      w.Alike (.scalar .double oddNaN)) ∧
    ∃ w, (plainStock.session "drop" [.delete item]).2.undoLast.2.read item "slots" = .ok w ∧
      w.Alike (.slots smallTable) := by
  have hlevel : (plainStock.get? item).map Instance.level = some 0 := by decide +kernel
  obtain ⟨i, hi, hidle⟩ := Option.map_eq_some_iff.mp hlevel
  have hwf : plainStock.WellFormed := wellFormed_stocked noon oddNaN smallTable
  have hclass : plainStock.registry.find? item.typeTag = some itemClass := rfl
  obtain ⟨hcommit, hgone, _, _, payload, _, hall⟩ := deletion_undone_iff hwf rfl (by decide) "drop"
    hi hidle hclass isLawful_itemClass
  have back {x : Column} (hx : (x.param .alpha).val ∈ itemClass.copyable) {v : ParamValue}
      (hv : plainStock.read item x.name = .ok v)
      (hs : ∀ u, v.Survives (x.param .alpha).val.kind u) :
      ∃ w, (plainStock.session "drop" [.delete item]).2.undoLast.2.read item x.name = .ok w ∧
        w.Alike v := by
    obtain ⟨u, v', w, _, hv', hw, hiff⟩ := hall _ hx
    cases hv'.symm.trans hv
    exact ⟨w, hw, hiff.mpr (hs u)⟩
  refine ⟨hcommit, hgone, ?_, ?_, ?_⟩
  · refine back (x := dueColumn) (.head _) (by decide +kernel) ?_
    exact ParamValue.survives_scalar (w := .scalar .time noon) (by decide +kernel) (.refl _)
  · refine back (x := rateColumn) (.tail _ (.head _)) (by decide +kernel) ?_
    exact ParamValue.survives_scalar (w := .scalar .double .nan) (by decide +kernel)
      (by decide +kernel)
  · exact back (x := tableColumn) (.tail _ (.tail _ (.head _))) (by decide +kernel)
      fun _ => restorable_smallTable

/-- An instant past the year 9999 comes back as the epoch, an infinite slot does not
    come back, and a slot whose name holds a separator comes back elsewhere. -/
theorem odd_item_not_restored :
    oddStock.WellFormed ∧ itemClass.IsLawful ∧
    (oddStock.get? item).map Instance.level = some 0 ∧
    (oddStock.session "drop" [.delete item]).1 = true ∧
    oddStock.read item "due" = .ok (.scalar .time farDue) ∧
    (oddStock.session "drop" [.delete item]).2.undoLast.2.read item "due" =
      .ok (.scalar .time .epoch) ∧
    ¬ (ParamValue.scalar .time .epoch).Alike (.scalar .time farDue) ∧
    oddStock.read item "slots" = .ok (.slots oddTable) ∧
    (oddStock.session "drop" [.delete item]).2.undoLast.2.read item "slots" =
      .ok (.slots (Frame.empty.setAt (.int64 3) ["sizes", "a", "b"])) ∧
    ¬ (ParamValue.slots (Frame.empty.setAt (.int64 3) ["sizes", "a", "b"])).Alike
      (.slots oddTable) := by
  refine ⟨wellFormed_stocked _ _ _, isLawful_itemClass, ?_, ?_, ?_, ?_, ?_, ?_, ?_, ?_⟩
  all_goals decide +kernel

end Items

end Book

end EntityBook
