import EntityBook.Proofs.Undo.Captures

/-! # Changes of a side-table as patches

  An operation that changes a side-table records paths, each with what was seen
  there before. Paths where the same is seen afterwards are passed over; the
  others are restored, for undo from the last to the first.

  Two kinds of records lead back and forth: one of all leaves of the old table
  and of the new leaves besides, and, if the old table was empty, one of any paths
  that reach all new leaves, as long as nothing was seen at any of them.
-/

namespace EntityBook.Frame

/-! ### What is seen at a path -/

/-- What is seen of a table at a path. -/
def seenAt (f : Frame) (path : String) : Capture :=
  match f.get path with
  | some s => .value s.text
  | none => .absent

/-- A list of names that has a path of its own. -/
def Named (ns : List String) : Prop := ns ≠ [] ∧ ∀ n ∈ ns, ProperName n

section Seen

variable {f g : Frame} {ns : List String} {s t : Slot}

theorem named_of_leafAt (hf : f.Tidy) (h : f.leafAt ns = some s) : Named ns := by
  refine ⟨?_, properName_of_leafAt hf h⟩
  rintro rfl
  rw [leafAt_nil] at h
  cases h

theorem seenAt_of_some (hn : Named ns) (h : f.getAt ns = some s) :
    f.seenAt (pathOf ns) = .value s.text := by
  unfold seenAt get
  rw [names_pathOf hn.2, h]

theorem seenAt_of_none (hn : Named ns) (h : f.getAt ns = none) :
    f.seenAt (pathOf ns) = .absent := by
  unfold seenAt get
  rw [names_pathOf hn.2, h]

/-- A leaf looks the same in two tables only if it is the same. -/
theorem seenAt_eq_iff (hf : f.Tidy) (hfr : f.Readable) (hg : g.Tidy) (hgr : g.Readable)
    (h : f.leafAt ns = some s) :
    Capture.value s.text = g.seenAt (pathOf ns) ↔ g.leafAt ns = some s := by
  have hn := named_of_leafAt hf h
  constructor
  · intro heq
    cases hget : g.getAt ns with
    | none =>
      rw [seenAt_of_none hn hget] at heq
      cases heq
    | some t =>
      rw [seenAt_of_some hn hget] at heq
      have htext : s.text = t.text := Capture.value.inj heq
      -- A text stands for one tidy slot only.
      have hparse : Slot.parse t.text = .ok s := htext ▸ hfr ns s h
      have hst : s = t := Slot.eq_of_parse_text (hg.getAt hget) (hgr.getAt hget) hparse
      unfold leafAt
      rw [hget, ← hst, Option.filter_some, isLeaf_of_leafAt h]
      rfl
  · intro hleaf
    rw [seenAt_of_some hn (getAt_of_leafAt hleaf)]

end Seen

/-! ### Patches of a record -/

/-- The patches that undo a change to the table `g`, given what was seen before. -/
def undoPatches (g : Frame) (seen : List (String × Capture)) : List Patch :=
  (seen.filter fun x => !decide (x.2 = g.seenAt x.1)).reverse.filterMap fun x => patch? x.1 x.2

/-- The patches that redo a change to the table `g`, given what was seen before. -/
def redoPatches (g : Frame) (seen : List (String × Capture)) : List Patch :=
  (seen.filter fun x => !decide (x.2 = g.seenAt x.1)).filterMap fun x => patch? x.1 (g.seenAt x.1)

theorem undoPatches_append (g : Frame) (xs ys : List (String × Capture)) :
    g.undoPatches (xs ++ ys) = g.undoPatches ys ++ g.undoPatches xs := by
  unfold undoPatches
  rw [List.filter_append, List.reverse_append, List.filterMap_append]

theorem redoPatches_append (g : Frame) (xs ys : List (String × Capture)) :
    g.redoPatches (xs ++ ys) = g.redoPatches xs ++ g.redoPatches ys := by
  unfold redoPatches
  rw [List.filter_append, List.filterMap_append]

theorem mem_undoPatches {g : Frame} {seen : List (String × Capture)} {x : Patch} :
    x ∈ g.undoPatches seen ↔ ∃ y ∈ seen, y.2 ≠ g.seenAt y.1 ∧ patch? y.1 y.2 = some x := by
  unfold undoPatches
  simp only [List.mem_filterMap, List.mem_reverse, List.mem_filter, Bool.not_eq_true',
    decide_eq_false_iff_not, and_assoc]

theorem mem_redoPatches {g : Frame} {seen : List (String × Capture)} {x : Patch} :
    x ∈ g.redoPatches seen ↔
      ∃ y ∈ seen, y.2 ≠ g.seenAt y.1 ∧ patch? y.1 (g.seenAt y.1) = some x := by
  unfold redoPatches
  simp only [List.mem_filterMap, List.mem_filter, Bool.not_eq_true', decide_eq_false_iff_not,
    and_assoc]

theorem patch?_absent {ns : List String} (hn : Named ns) :
    patch? (pathOf ns) .absent = some (ns, none) := by
  show some (names (pathOf ns), none) = _
  rw [names_pathOf hn.2]

theorem patch?_value {ns : List String} (hn : Named ns) {s : Slot}
    (hs : Slot.parse s.text = .ok s) : patch? (pathOf ns) (.value s.text) = some (ns, some s) := by
  unfold patch?
  dsimp only
  rw [hs, names_pathOf hn.2]

/-- What is seen of a readable table is a write of the slot there, a deletion if
    there is none, or nothing if the slot is nested too deeply. -/
theorem patch?_seenAt {g : Frame} (hg : g.Tidy) (hgr : g.Readable) {ns : List String}
    (hn : Named ns) {x : Patch} (h : patch? (pathOf ns) (g.seenAt (pathOf ns)) = some x) :
    x.1 = ns ∧ ∀ v, (x.2 = some v → g.getAt ns = some v) ∧ (x.2 = none → g.getAt ns = none) := by
  cases hget : g.getAt ns with
  | none =>
    rw [seenAt_of_none hn hget, patch?_absent hn] at h
    cases h
    refine ⟨rfl, ?_⟩
    intro v
    refine ⟨?_, fun _ => rfl⟩
    intro hv
    cases hv
  | some t =>
    rw [seenAt_of_some hn hget] at h
    unfold patch? at h
    dsimp only at h
    -- A slot nested too deeply does not read back, and then there is no patch.
    cases hparse : Slot.parse t.text with
    | error err =>
      rw [hparse] at h
      cases h
    | ok u =>
      have hut : u = t := Slot.eq_of_parse_text (hg.getAt hget) (hgr.getAt hget) hparse
      rw [hparse, names_pathOf hn.2, hut] at h
      cases h
      refine ⟨rfl, ?_⟩
      intro v
      refine ⟨fun hv => hv, ?_⟩
      intro hv
      cases hv

theorem undoPatches_map (g : Frame) (c : List String × Slot → Capture)
    (xs : List (List String × Slot)) :
    g.undoPatches (xs.map fun x => (pathOf x.1, c x)) =
      (xs.filter fun x => !decide (c x = g.seenAt (pathOf x.1))).reverse.filterMap
        fun x => patch? (pathOf x.1) (c x) := by
  unfold undoPatches
  rw [List.filter_map, ← List.map_reverse, List.filterMap_map]
  rfl

theorem redoPatches_map (g : Frame) (c : List String × Slot → Capture)
    (xs : List (List String × Slot)) :
    g.redoPatches (xs.map fun x => (pathOf x.1, c x)) =
      (xs.filter fun x => !decide (c x = g.seenAt (pathOf x.1))).filterMap
        fun x => patch? (pathOf x.1) (g.seenAt (pathOf x.1)) := by
  unfold redoPatches
  rw [List.filter_map, List.filterMap_map]
  rfl

/-- Patches of slots that are apart are apart. -/
theorem pairwise_filterMap {xs : List (List String × Slot)}
    (h : xs.Pairwise fun x y => Apart x.1 y.1) {m : List String × Slot → Option Patch}
    (hm : ∀ x ∈ xs, ∀ y, m x = some y → y.1 = x.1) :
    (xs.filterMap m).Pairwise fun x y => Apart x.1 y.1 := by
  refine List.pairwise_filterMap.mpr (List.Pairwise.imp_of_mem ?_ h)
  intro x y hx hy hxy u hu v hv
  rw [hm x hx u hu, hm y hy v hv]
  exact hxy

/-! ### A record that was begun before the change -/

/-- The record of a change that was announced: the leaves of the old table, and
    those of the new one at other paths. -/
def announced (f g : Frame) : List (String × Capture) :=
  (f.leaves.map fun x => (x.1, .value x.2.text)) ++
    (g.leaves.filter fun x => !(f.leaves.map (·.1)).contains x.1).map fun x => (x.1, .absent)

section Announced

variable {f g : Frame}

/-- The leaves at paths where the old table has none. -/
def newLeaves (f g : Frame) : List (List String × Slot) :=
  g.leafList.filter fun x => (f.leafAt x.1).isNone

theorem mem_newLeaves (hg : g.Tidy) {ns : List String} {t : Slot} :
    (ns, t) ∈ newLeaves f g ↔ g.leafAt ns = some t ∧ f.leafAt ns = none := by
  unfold newLeaves
  rw [List.mem_filter, mem_leafList hg]
  simp

theorem contains_path (hf : f.Tidy) {ns : List String} (hn : Named ns) :
    (f.leaves.map (·.1)).contains (pathOf ns) = (f.leafAt ns).isSome := by
  have hmem : pathOf ns ∈ f.leaves.map (·.1) ↔ (f.leafAt ns).isSome = true := by
    rw [leaves_eq, List.map_map]
    constructor
    · intro h
      obtain ⟨x, hx, heq⟩ := List.mem_map.mp h
      have hleaf := (mem_leafList hf).mp hx
      have hns : x.1 = ns := pathOf_inj (properName_of_leafAt hf hleaf) hn.2 heq
      rw [← hns, hleaf]
      rfl
    · intro h
      obtain ⟨s, hs⟩ := Option.isSome_iff_exists.mp h
      exact List.mem_map.mpr ⟨(ns, s), (mem_leafList hf).mpr hs, rfl⟩
  cases hs : (f.leafAt ns).isSome with
  | true => exact List.contains_iff_mem.mpr (hmem.mpr hs)
  | false =>
    refine Bool.eq_false_iff.mpr ?_
    intro hc
    rw [hmem.mp (List.contains_iff_mem.mp hc)] at hs
    cases hs

theorem announced_eq (hf : f.Tidy) (hg : g.Tidy) :
    announced f g = (f.leafList.map fun x => (pathOf x.1, .value x.2.text)) ++
      (newLeaves f g).map fun x => (pathOf x.1, .absent) := by
  have hold : (f.leaves.map fun x => (x.1, Capture.value x.2.text)) =
      f.leafList.map fun x => (pathOf x.1, Capture.value x.2.text) := by
    rw [leaves_eq, List.map_map]
    rfl
  have hnew : (g.leaves.filter fun x => !(f.leaves.map (·.1)).contains x.1) =
      (newLeaves f g).map fun x => (pathOf x.1, x.2) := by
    unfold newLeaves
    rw [leaves_eq g, List.filter_map]
    congr 1
    -- A leaf is new if its path is, since paths determine their names.
    refine List.filter_congr ?_
    intro x hx
    have hn := named_of_leafAt hg ((mem_leafList hg).mp hx)
    show (!(f.leaves.map (·.1)).contains (pathOf x.1)) = _
    rw [contains_path hf hn, Option.not_isSome]
  unfold announced
  rw [hold, hnew, List.map_map]
  rfl

/-- The paths of an announced change: a leaf of the old table or a new one. -/
theorem mem_announced (hf : f.Tidy) (hg : g.Tidy) {y : String × Capture} :
    y ∈ announced f g ↔ ∃ ns s, y.1 = pathOf ns ∧
      (f.leafAt ns = some s ∧ y.2 = .value s.text ∨
        g.leafAt ns = some s ∧ f.leafAt ns = none ∧ y.2 = .absent) := by
  rw [announced_eq hf hg, List.mem_append, List.mem_map, List.mem_map]
  constructor
  · intro h
    rcases h with ⟨x, hx, rfl⟩ | ⟨x, hx, rfl⟩
    · exact ⟨x.1, x.2, rfl, Or.inl ⟨(mem_leafList hf).mp hx, rfl⟩⟩
    · obtain ⟨hgx, hfx⟩ := (mem_newLeaves hg).mp hx
      exact ⟨x.1, x.2, rfl, Or.inr ⟨hgx, hfx, rfl⟩⟩
  · intro h
    obtain ⟨ns, s, hpath, h⟩ := h
    obtain ⟨path, c⟩ := y
    rcases h with ⟨hs, hc⟩ | ⟨hgs, hfs, hc⟩
    · exact Or.inl ⟨(ns, s), (mem_leafList hf).mpr hs, Prod.ext hpath.symm hc.symm⟩
    · exact Or.inr ⟨(ns, s), (mem_newLeaves hg).mpr ⟨hgs, hfs⟩, Prod.ext hpath.symm hc.symm⟩

variable (hf : f.Tidy) (hfr : f.Readable) (hg : g.Tidy) (hgr : g.Readable)
include hf hfr hg hgr

/-- Undoing an announced change writes the leaves that changed and deletes the new
    ones. -/
theorem mem_undoPatches_announced {x : Patch} :
    x ∈ g.undoPatches (announced f g) ↔
      (∃ s, x.2 = some s ∧ f.leafAt x.1 = some s ∧ g.leafAt x.1 ≠ some s) ∨
        (x.2 = none ∧ f.leafAt x.1 = none ∧ ∃ t, g.leafAt x.1 = some t) := by
  rw [mem_undoPatches]
  constructor
  · intro h
    obtain ⟨y, hy, hne, hpatch⟩ := h
    obtain ⟨ns, s, hpath, h⟩ := (mem_announced hf hg).mp hy
    rw [hpath] at hne hpatch
    -- A leaf of the old table, or a new one.
    rcases h with ⟨hs, hc⟩ | ⟨hgs, hfs, hc⟩
    · rw [hc, patch?_value (named_of_leafAt hf hs) (hfr ns s hs)] at hpatch
      cases hpatch
      left
      refine ⟨s, rfl, hs, ?_⟩
      intro hleaf
      exact hne (hc.trans ((seenAt_eq_iff hf hfr hg hgr hs).mpr hleaf))
    · rw [hc, patch?_absent (named_of_leafAt hg hgs)] at hpatch
      cases hpatch
      exact Or.inr ⟨rfl, hfs, s, hgs⟩
  · intro h
    obtain ⟨ns, action⟩ := x
    rcases h with ⟨s, hx, hs, hne⟩ | ⟨hx, hfs, t, ht⟩
    · cases hx
      refine ⟨(pathOf ns, .value s.text), (mem_announced hf hg).mpr
        ⟨ns, s, rfl, Or.inl ⟨hs, rfl⟩⟩, ?_, patch?_value (named_of_leafAt hf hs) (hfr ns s hs)⟩
      intro heq
      exact hne ((seenAt_eq_iff hf hfr hg hgr hs).mp heq)
    · cases hx
      refine ⟨(pathOf ns, .absent), (mem_announced hf hg).mpr
        ⟨ns, t, rfl, Or.inr ⟨ht, hfs, rfl⟩⟩, ?_, patch?_absent (named_of_leafAt hg ht)⟩
      rw [seenAt_of_some (named_of_leafAt hg ht) (getAt_of_leafAt ht)]
      intro heq
      cases heq

/-- Redoing an announced change writes or deletes the leaves that changed, and
    writes the new ones. -/
theorem mem_redoPatches_announced {x : Patch} :
    x ∈ g.redoPatches (announced f g) ↔
      (∃ s, f.leafAt x.1 = some s ∧ g.leafAt x.1 ≠ some s ∧
        patch? (pathOf x.1) (g.seenAt (pathOf x.1)) = some x) ∨
      (f.leafAt x.1 = none ∧ ∃ t, x.2 = some t ∧ g.leafAt x.1 = some t) := by
  rw [mem_redoPatches]
  constructor
  · intro h
    obtain ⟨y, hy, hne, hpatch⟩ := h
    obtain ⟨ns, s, hpath, h⟩ := (mem_announced hf hg).mp hy
    rw [hpath] at hne hpatch
    -- A leaf of the old table, or a new one.
    rcases h with ⟨hs, hc⟩ | ⟨hgs, hfs, hc⟩
    · obtain ⟨hx, _⟩ := patch?_seenAt hg hgr (named_of_leafAt hf hs) hpatch
      rw [hx]
      left
      refine ⟨s, hs, ?_, hpatch⟩
      intro hleaf
      exact hne (hc.trans ((seenAt_eq_iff hf hfr hg hgr hs).mpr hleaf))
    · have hn := named_of_leafAt hg hgs
      rw [seenAt_of_some hn (getAt_of_leafAt hgs), patch?_value hn (hgr ns s hgs)] at hpatch
      cases hpatch
      exact Or.inr ⟨hfs, s, rfl, hgs⟩
  · intro h
    rcases h with ⟨s, hs, hne, hpatch⟩ | ⟨hfs, t, hx, ht⟩
    · refine ⟨(pathOf x.1, .value s.text), (mem_announced hf hg).mpr
        ⟨x.1, s, rfl, Or.inl ⟨hs, rfl⟩⟩, ?_, hpatch⟩
      intro heq
      exact hne ((seenAt_eq_iff hf hfr hg hgr hs).mp heq)
    · obtain ⟨ns, action⟩ := x
      cases hx
      have hn := named_of_leafAt hg ht
      have hseen := seenAt_of_some hn (getAt_of_leafAt ht)
      refine ⟨(pathOf ns, .absent), (mem_announced hf hg).mpr
        ⟨ns, t, rfl, Or.inr ⟨ht, hfs, rfl⟩⟩, ?_, ?_⟩
      · rw [hseen]
        intro heq
        cases heq
      · show patch? (pathOf ns) (g.seenAt (pathOf ns)) = _
        rw [hseen]
        exact patch?_value hn (hgr ns t ht)

omit hgr in
/-- A new leaf is deleted before anything is written. -/
theorem pairwise_undoPatches :
    (g.undoPatches (announced f g)).Pairwise fun x y => y.2 = none → Apart x.1 y.1 := by
  have hwrite : ∀ y ∈ g.undoPatches (f.leafList.map fun x => (pathOf x.1, .value x.2.text)),
      y.2 ≠ none := by
    intro y hy hnone
    obtain ⟨z, hz, _, hpatch⟩ := mem_undoPatches.mp hy
    obtain ⟨x, hx, rfl⟩ := List.mem_map.mp hz
    have hs := (mem_leafList hf).mp hx
    rw [patch?_value (named_of_leafAt hf hs) (hfr _ _ hs)] at hpatch
    cases hpatch
    cases hnone
  rw [announced_eq hf hg, undoPatches_append]
  -- Undo goes backwards, so the new leaves, which were recorded last, come first.
  refine List.pairwise_append.mpr ⟨?_, ?_, ?_⟩
  · rw [undoPatches_map]
    have hsub : (newLeaves f g).Pairwise fun x y => Apart x.1 y.1 :=
      (pairwise_apart_leafList hg).sublist List.filter_sublist
    refine List.Pairwise.imp ?_ (pairwise_filterMap (List.pairwise_reverse.mpr
      ((hsub.sublist List.filter_sublist).imp Apart.symm)) ?_)
    · intro x y h _
      exact h
    intro x hx y hy
    have hm := (List.mem_filter.mp (List.mem_reverse.mp hx)).1
    obtain ⟨hgx, _⟩ := (mem_newLeaves hg).mp hm
    rw [patch?_absent (named_of_leafAt hg hgx)] at hy
    cases hy
    rfl
  · exact pairwise_of_writes hwrite
  · intro x _ y hy hnone
    exact absurd hnone (hwrite y hy)

omit hfr in
/-- Only leaves of the old table are deleted when the change is redone. -/
theorem pairwise_redoPatches :
    (g.redoPatches (announced f g)).Pairwise fun x y => y.2 = none → Apart x.1 y.1 := by
  have hwrite : ∀ y ∈ g.redoPatches ((newLeaves f g).map fun x => (pathOf x.1, .absent)),
      y.2 ≠ none := by
    intro y hy hnone
    obtain ⟨z, hz, _, hpatch⟩ := mem_redoPatches.mp hy
    obtain ⟨x, hx, rfl⟩ := List.mem_map.mp hz
    obtain ⟨hgx, _⟩ := (mem_newLeaves hg).mp hx
    have hn := named_of_leafAt hg hgx
    rw [seenAt_of_some hn (getAt_of_leafAt hgx), patch?_value hn (hgr _ _ hgx)] at hpatch
    cases hpatch
    cases hnone
  rw [announced_eq hf hg, redoPatches_append]
  -- Redo goes forwards, so the leaves of the old table come first.
  refine List.pairwise_append.mpr ⟨?_, ?_, ?_⟩
  · rw [redoPatches_map]
    refine List.Pairwise.imp ?_ (pairwise_filterMap
      ((pairwise_apart_leafList hf).sublist List.filter_sublist) ?_)
    · intro x y h _
      exact h
    intro x hx y hy
    have hs := (mem_leafList hf).mp (List.mem_filter.mp hx).1
    exact (patch?_seenAt hg hgr (named_of_leafAt hf hs) hy).1
  · exact pairwise_of_writes hwrite
  · intro x _ y hy hnone
    exact absurd hnone (hwrite y hy)

/-- Undoing an announced change gives the old table. -/
theorem undo_announced : (g.undoPatches (announced f g)).foldl apply g = f := by
  refine patch_eq hf hg ?_ ?_ ?_ (pairwise_undoPatches hf hfr hg) ?_ ?_
  · intro x hx
    rcases (mem_undoPatches_announced hf hfr hg hgr).mp hx with ⟨s, _, hs, _⟩ | ⟨_, _, t, ht⟩
    · exact properName_of_leafAt hf hs
    · exact properName_of_leafAt hg ht
  · intro x hx v hv
    rcases (mem_undoPatches_announced hf hfr hg hgr).mp hx with ⟨s, hsome, hs, _⟩ | ⟨hnone, _⟩
    · cases hsome.symm.trans hv
      exact ⟨hf.getAt (getAt_of_leafAt hs), getAt_of_leafAt hs⟩
    · rw [hnone] at hv
      cases hv
  · intro x hx hnone
    rcases (mem_undoPatches_announced hf hfr hg hgr).mp hx with ⟨s, hsome, _⟩ | ⟨_, hfx, t, ht⟩
    · rw [hnone] at hsome
      cases hsome
    · exact ⟨by rw [ht]; rfl, hfx⟩
  -- Every old leaf is there or written again.
  · intro ns s hs
    by_cases hsame : g.leafAt ns = some s
    · exact Or.inl hsame
    · right
      exact ⟨(ns, some s), (mem_undoPatches_announced hf hfr hg hgr).mpr
        (Or.inl ⟨s, rfl, hs, hsame⟩), rfl, List.prefix_refl ns⟩
  -- Every leaf of the new table is new, or changed, or the same in the old one.
  · intro ns t ht
    cases hfs : f.leafAt ns with
    | none =>
      right
      exact ⟨(ns, none), (mem_undoPatches_announced hf hfr hg hgr).mpr
        (Or.inr ⟨rfl, hfs, t, ht⟩), Or.inl (List.prefix_refl ns)⟩
    | some s =>
      by_cases hsame : s = t
      · exact Or.inl (by rw [hsame])
      · right
        refine ⟨(ns, some s), (mem_undoPatches_announced hf hfr hg hgr).mpr
          (Or.inl ⟨s, rfl, hfs, ?_⟩), Or.inl (List.prefix_refl ns)⟩
        rw [ht]
        intro heq
        exact hsame (Option.some.inj heq).symm

/-- Redo writes what is now at a path at which a leaf has changed. -/
theorem mem_redoPatches_of_changed {ns : List String} {s t : Slot} (hs : f.leafAt ns = some s)
    (hne : g.leafAt ns ≠ some s) (ht : g.getAt ns = some t) (hparse : Slot.parse t.text = .ok t) :
    (ns, some t) ∈ g.redoPatches (announced f g) := by
  have hn := named_of_leafAt hf hs
  refine (mem_redoPatches_announced hf hfr hg hgr).mpr (Or.inl ⟨s, hs, hne, ?_⟩)
  show patch? (pathOf ns) (g.seenAt (pathOf ns)) = _
  rw [seenAt_of_some hn ht]
  exact patch?_value hn hparse

/-- Every new leaf is there or written by redo. -/
theorem supplied_redo : Supplied g f (g.redoPatches (announced f g)) := by
  intro ns t ht
  cases hfs : f.leafAt ns with
  | none =>
    right
    exact ⟨(ns, some t), (mem_redoPatches_announced hf hfr hg hgr).mpr
      (Or.inr ⟨hfs, t, rfl, ht⟩), rfl, List.prefix_refl ns⟩
  | some s =>
    by_cases hsame : s = t
    · exact Or.inl (by rw [hsame])
    · right
      refine ⟨(ns, some t), mem_redoPatches_of_changed hf hfr hg hgr hfs ?_ (getAt_of_leafAt ht)
        (hgr ns t ht), rfl, List.prefix_refl ns⟩
      rw [ht]
      intro heq
      exact hsame (Option.some.inj heq).symm

/-- Every old leaf is the same in the new table, or deleted or replaced by redo. -/
theorem cleared_redo : Cleared g f (g.redoPatches (announced f g)) := by
  intro ns s hs
  have hn := named_of_leafAt hf hs
  by_cases hsame : g.leafAt ns = some s
  · exact Or.inl hsame
  right
  cases hget : g.getAt ns with
  | none =>
    refine ⟨(ns, none), (mem_redoPatches_announced hf hfr hg hgr).mpr
      (Or.inl ⟨s, hs, hsame, ?_⟩), Or.inl (List.prefix_refl ns)⟩
    show patch? (pathOf ns) (g.seenAt (pathOf ns)) = _
    rw [seenAt_of_none hn hget]
    exact patch?_absent hn
  | some t =>
    cases hparse : Slot.parse t.text with
    | ok u =>
      have hut := Slot.eq_of_parse_text (hg.getAt hget) (hgr.getAt hget) hparse
      rw [hut] at hparse
      exact ⟨(ns, some t), mem_redoPatches_of_changed hf hfr hg hgr hs hsame hget hparse,
        Or.inl (List.prefix_refl ns)⟩
    | error err =>
      -- The slot is nested too deeply to be written, but the leaves below it are new.
      obtain ⟨ks, v, hv⟩ := exists_slotLeaf t
      have hgv : g.leafAt (ns ++ ks) = some v := by
        rw [leafAt_append hget]
        exact hv
      have hks : ks ≠ [] := by
        rintro rfl
        rw [List.append_nil] at hgv
        have hvt : t = v := Option.some.inj (hget.symm.trans (getAt_of_leafAt hgv))
        rw [hvt, hgr ns v hgv] at hparse
        cases hparse
      have hfv : f.leafAt (ns ++ ks) = none := by
        rw [leafAt_append (getAt_of_leafAt hs), leafAt_of_isLeaf (isLeaf_of_leafAt hs) hks]
      exact ⟨(ns ++ ks, some v), (mem_redoPatches_announced hf hfr hg hgr).mpr
        (Or.inr ⟨hfv, v, rfl, hgv⟩), Or.inr ⟨rfl, List.prefix_append ns ks⟩⟩

/-- Redoing an announced change gives the new table. -/
theorem redo_announced : (g.redoPatches (announced f g)).foldl apply f = g := by
  refine patch_eq hg hf ?_ ?_ ?_ (pairwise_redoPatches hf hg hgr)
    (supplied_redo hf hfr hg hgr) (cleared_redo hf hfr hg hgr)
  · intro x hx
    rcases (mem_redoPatches_announced hf hfr hg hgr).mp hx with ⟨s, hs, _⟩ | ⟨_, t, _, ht⟩
    · exact properName_of_leafAt hf hs
    · exact properName_of_leafAt hg ht
  · intro x hx v hv
    rcases (mem_redoPatches_announced hf hfr hg hgr).mp hx with ⟨s, hs, _, hp⟩ | ⟨_, t, hsome, ht⟩
    · have hget := ((patch?_seenAt hg hgr (named_of_leafAt hf hs) hp).2 v).1 hv
      exact ⟨hg.getAt hget, hget⟩
    · cases hsome.symm.trans hv
      exact ⟨hg.getAt (getAt_of_leafAt ht), getAt_of_leafAt ht⟩
  · intro x hx hnone
    rcases (mem_redoPatches_announced hf hfr hg hgr).mp hx with ⟨s, hs, _, hp⟩ | ⟨_, t, hsome, _⟩
    · have hget := ((patch?_seenAt hg hgr (named_of_leafAt hf hs) hp).2 s).2 hnone
      refine ⟨by rw [hs]; rfl, ?_⟩
      unfold leafAt
      rw [hget]
      rfl
    · rw [hnone] at hsome
      cases hsome

end Announced

/-! ### A record that was begun after the change -/

/-- What was seen at some paths before a change that nothing announced. -/
structure Unannounced (g : Frame) (seen : List (String × Capture)) : Prop where
  named : ∀ x ∈ seen, ∃ ns, Named ns ∧ x.1 = pathOf ns
  sorted : (seen.map (·.1)).Pairwise (· < ·)
  covers : ∀ ns s, g.leafAt ns = some s → ∃ c, (pathOf ns, c) ∈ seen
  notPending : ∀ x ∈ seen, x.2 ≠ .pending

section Unannounced

variable {g : Frame} {seen : List (String × Capture)}

/-- If nothing was seen, undo deletes everything. -/
theorem undo_unannounced (h : Unannounced g seen) (hg : g.Tidy)
    (habsent : ∀ x ∈ seen, x.2 = .absent) : (g.undoPatches seen).foldl apply g = empty := by
  refine foldl_delete_eq_empty hg ?_ ?_
  · intro x hx
    obtain ⟨y, hy, _, hpatch⟩ := mem_undoPatches.mp hx
    obtain ⟨ns, hn, hpath⟩ := h.named y hy
    rw [hpath, habsent y hy, patch?_absent hn] at hpatch
    cases hpatch
    exact ⟨rfl, hn.1⟩
  -- Each leaf is covered by a path that was absent, hence deleted.
  · intro ns s hs
    have hn := named_of_leafAt hg hs
    obtain ⟨c, hc⟩ := h.covers ns s hs
    have hca : c = .absent := habsent _ hc
    refine ⟨(ns, none), mem_undoPatches.mpr ⟨_, hc, ?_, ?_⟩, List.prefix_refl ns⟩
    · dsimp only
      rw [hca, seenAt_of_some hn (getAt_of_leafAt hs)]
      intro heq
      cases heq
    · dsimp only
      rw [hca]
      exact patch?_absent hn

/-- If nothing was seen, redo writes the new table. -/
theorem redo_unannounced (h : Unannounced g seen) (hg : g.Tidy) (hgr : g.Readable)
    (habsent : ∀ x ∈ seen, x.2 = .absent) : (g.redoPatches seen).foldl apply empty = g := by
  -- A path that is absent now as well was not changed, so all patches write.
  have hwrite : ∀ x ∈ g.redoPatches seen, ∃ v, x.2 = some v ∧ g.getAt x.1 = some v ∧ Named x.1 := by
    intro x hx
    obtain ⟨y, hy, hne, hpatch⟩ := mem_redoPatches.mp hx
    obtain ⟨ns, hn, hpath⟩ := h.named y hy
    rw [hpath, habsent y hy] at hne
    rw [hpath] at hpatch
    obtain ⟨hx1, hboth⟩ := patch?_seenAt hg hgr hn hpatch
    rw [hx1]
    cases hx2 : x.2 with
    | none =>
      refine absurd ?_ hne
      exact (seenAt_of_none hn ((hboth (.frame .empty)).2 hx2)).symm
    | some v => exact ⟨v, rfl, (hboth v).1 hx2, hn⟩
  refine patch_eq hg (show empty.Tidy from trivial) ?_ ?_ ?_ ?_ ?_ ?_
  · intro x hx
    obtain ⟨_, _, _, hn⟩ := hwrite x hx
    exact hn.2
  · intro x hx v hv
    obtain ⟨w, hw, hget, _⟩ := hwrite x hx
    cases hw.symm.trans hv
    exact ⟨hg.getAt hget, hget⟩
  · intro x hx hnone
    obtain ⟨w, hw, _⟩ := hwrite x hx
    rw [hnone] at hw
    cases hw
  · refine pairwise_of_writes ?_
    intro y hy hnone
    obtain ⟨w, hw, _⟩ := hwrite y hy
    rw [hnone] at hw
    cases hw
  · intro ns s hs
    have hn := named_of_leafAt hg hs
    have hseen := seenAt_of_some hn (getAt_of_leafAt hs)
    obtain ⟨c, hc⟩ := h.covers ns s hs
    have hca : c = .absent := habsent _ hc
    right
    refine ⟨(ns, some s), mem_redoPatches.mpr ⟨_, hc, ?_, ?_⟩, rfl, List.prefix_refl ns⟩
    · dsimp only
      rw [hca, hseen]
      intro heq
      cases heq
    · dsimp only
      rw [hseen]
      exact patch?_value hn (hgr ns s hs)
  · intro ns s hs
    rw [leafAt_empty] at hs
    cases hs

end Unannounced

end EntityBook.Frame
