import EntityBook.Proofs.Undo.SlotPatch

/-! # Records that something spoils

  A record of a table that was empty when an operation began leads back and forth
  if nothing was seen at its paths. One path at which something was seen is enough
  to spoil it: there is a change after which undo does not empty the table, or
  after which redo does not give the changed table back.
-/

namespace EntityBook.Frame

/-! ### A table with one slot -/

/-- A table whose only slot is an empty frame. -/
def single (name : String) : Frame := cons name (.frame empty) empty

section Single

variable {name : String}

theorem leafAt_single (name : String) : (single name).leafAt [name] = some (.frame empty) := by
  simp [single, leafAt_singleton, find, Slot.isLeaf]

theorem getAt_single {ns : List String} (h : ns ≠ [name]) : (single name).getAt ns = none := by
  cases ns with
  | nil => exact getAt_nil _
  | cons n rest =>
    by_cases hrest : rest = []
    · subst hrest
      have hn : name ≠ n := by
        rintro rfl
        exact h rfl
      simp [getAt_singleton, single, find, hn]
    · have hchild : (single name).child n = empty := by
        by_cases hn : name = n
        · simp [single, child, find, hn, Slot.inner]
        · simp [single, child, find, hn]
      rw [getAt_cons n hrest, hchild, getAt_empty]

/-- A deletion takes the slot of such a table along or does nothing. -/
theorem deleteAt_single (name : String) (ns : List String) :
    (single name).deleteAt ns = single name ∨ (single name).deleteAt ns = empty := by
  match ns with
  | [] => exact Or.inl rfl
  | n :: rest =>
    by_cases hn : name = n
    · right
      cases rest with
      | nil => simp [single, deleteAt, erase, hn]
      | cons m ms => simp [single, deleteAt, find, hn, isEmpty, erase]
    · left
      cases rest with
      | nil => simp [single, deleteAt, erase, hn]
      | cons m ms => simp [single, deleteAt, find, hn]

theorem deleteAt_single_below (rest : List String) (h : rest ≠ []) :
    (single name).deleteAt (name :: rest) = empty := by
  rw [deleteAt_cons name h]
  simp [single, find, isEmpty, erase]

theorem foldl_delete_empty {xs : List Patch} (hxs : ∀ x ∈ xs, x.2 = none) :
    xs.foldl apply empty = empty := by
  induction xs with
  | nil => rfl
  | cons x rest ih =>
    have happly : empty.apply x = empty := by
      unfold apply
      rw [hxs x List.mem_cons_self]
      exact deleteAt_empty x.1
    rw [List.foldl_cons, happly]
    exact ih fun y hy => hxs y (List.mem_cons_of_mem x hy)

/-- The slot of such a table is gone after deletions one of which is below it. -/
theorem foldl_delete_single {xs : List Patch} (hxs : ∀ x ∈ xs, x.2 = none) {rest : List String}
    (hrest : rest ≠ []) (hmem : (name :: rest, none) ∈ xs) :
    xs.foldl apply (single name) = empty := by
  induction xs with
  | nil => cases hmem
  | cons x ys ih =>
    have hys : ∀ y ∈ ys, y.2 = none := fun y hy => hxs y (List.mem_cons_of_mem x hy)
    have happly : (single name).apply x = (single name).deleteAt x.1 := by
      unfold apply
      rw [hxs x List.mem_cons_self]
    rw [List.foldl_cons, happly]
    -- The slot survives a deletion elsewhere, but not the one below it.
    rcases deleteAt_single name x.1 with hkept | hgone
    · rcases List.mem_cons.mp hmem with rfl | hmem
      · rw [deleteAt_single_below rest hrest] at hkept
        cases hkept
      · rw [hkept]
        exact ih hys hmem
    · rw [hgone]
      exact foldl_delete_empty hys

/-- Nothing is seen of such a table at other paths. -/
theorem seenAt_single {path : String} (hpath : ∃ ns, Named ns ∧ path = pathOf ns)
    (hne : path ≠ pathOf [name]) : (single name).seenAt path = .absent := by
  obtain ⟨ns, hns, rfl⟩ := hpath
  refine seenAt_of_none hns (getAt_single ?_)
  intro heq
  exact hne (congrArg pathOf heq)

end Single

/-! ### The order of paths -/

/-- A path comes before the paths below it. -/
theorem pathOf_lt {n : String} (hn : n ≠ "") {rest : List String} (hrest : rest ≠ []) :
    pathOf [n] < pathOf (n :: rest) := by
  -- A proper prefix comes before the whole.
  have hlt (cs ds : List Char) (hd : ds ≠ []) : cs < cs ++ ds := by
    induction cs with
    | nil =>
      cases ds with
      | nil => exact absurd rfl hd
      | cons d ds => exact List.nil_lt_cons d ds
    | cons c cs ih => exact List.cons_lt_cons_self.mpr ih
  refine String.lt_iff_toList_lt.mpr ?_
  rw [toList_pathOf hn, toList_pathOf hn]
  have hnil : tailChars [] = [] := rfl
  rw [hnil, List.append_nil]
  refine hlt _ _ ?_
  cases rest with
  | nil => exact absurd rfl hrest
  | cons m ms => simp [tailChars]

theorem Named.head {name : String} {rest : List String} (h : Named (name :: rest)) :
    Named [name] := by
  refine ⟨List.cons_ne_nil name [], ?_⟩
  intro n hn
  rw [List.mem_singleton.mp hn]
  exact h.2 name List.mem_cons_self

/-! ### A record of a slot and something below it -/

section Spoiled

variable {name : String} {seen : List (String × Capture)}

/-- A record holds a path once. -/
theorem Unannounced.capture_unique {g : Frame} (h : Unannounced g seen) {path : String}
    {c d : Capture} (hc : (path, c) ∈ seen) (hd : (path, d) ∈ seen) : c = d := by
  have hnodup : (seen.map (·.1)).Nodup := h.sorted.imp fun hlt => ne_of_lt hlt
  have heq := List.inj_on_of_nodup_map hnodup hc hd rfl
  exact congrArg Prod.snd heq

/-- At all other paths redo deletes. -/
theorem Unannounced.redo_deletes (h : Unannounced (single name) seen)
    {xs : List (String × Capture)} (hxs : ∀ x ∈ xs, x ∈ seen ∧ x.1 ≠ pathOf [name]) :
    ∀ y ∈ (single name).redoPatches xs, y.2 = none := by
  intro y hy
  obtain ⟨x, hx, _, hpatch⟩ := mem_redoPatches.mp hy
  obtain ⟨hm, hne⟩ := hxs x hx
  rw [seenAt_single (h.named x hm) hne] at hpatch
  cases hpatch
  rfl

theorem redoPatches_single (hn : Named [name]) :
    (single name).redoPatches [(pathOf [name], .absent)] = [([name], some (.frame empty))] := by
  have hseen := seenAt_of_some hn (getAt_of_leafAt (leafAt_single name))
  unfold redoPatches
  rw [List.filter_cons_of_pos (by simp [hseen])]
  rw [List.filter_nil, List.filterMap_cons, hseen, patch?_value hn Slot.parse_text_empty]
  rfl

/-- If nothing was seen of the slot itself, redo writes it first and then deletes what
    was seen below it, and the slot goes with it. -/
theorem redo_spoiled (h : Unannounced (single name) seen) {rest : List String} {s : String}
    (hn : Named (name :: rest)) (hmem : (pathOf (name :: rest), .value s) ∈ seen)
    (hc : (pathOf [name], .absent) ∈ seen) :
    ((single name).redoPatches seen).foldl apply empty = empty := by
  have hrest : rest ≠ [] := by
    rintro rfl
    have hbad := h.capture_unique hmem hc
    cases hbad
  obtain ⟨pre, post, hsplit⟩ := List.append_of_mem hc
  have hsorted := h.sorted
  rw [hsplit, List.map_append, List.map_cons] at hsorted
  obtain ⟨_, hafter, hbefore⟩ := List.pairwise_append.mp hsorted
  have hpre : ∀ x ∈ pre, x ∈ seen ∧ x.1 ≠ pathOf [name] := by
    intro x hx
    refine ⟨?_, ?_⟩
    · rw [hsplit]
      exact List.mem_append_left _ hx
    · exact ne_of_lt (hbefore _ (List.mem_map_of_mem hx) _ List.mem_cons_self)
  have hpost : ∀ x ∈ post, x ∈ seen ∧ x.1 ≠ pathOf [name] := by
    intro x hx
    refine ⟨?_, ?_⟩
    · rw [hsplit]
      exact List.mem_append_right _ (List.mem_cons_of_mem _ hx)
    · exact (ne_of_lt ((List.pairwise_cons.mp hafter).1 _ (List.mem_map_of_mem hx))).symm
  -- The path below comes later in the record.
  have hlater : (pathOf (name :: rest), Capture.value s) ∈ post := by
    have hlt := pathOf_lt (hn.2 name List.mem_cons_self).1 hrest
    rw [hsplit] at hmem
    rcases List.mem_append.mp hmem with hm | hm
    · exact absurd (lt_trans hlt (hbefore _ (List.mem_map_of_mem hm) _ List.mem_cons_self))
        (lt_irrefl _)
    · rcases List.mem_cons.mp hm with heq | hm
      · have hseen : Capture.value s = .absent := congrArg Prod.snd heq
        cases hseen
      · exact hm
  have hgone : (name :: rest, none) ∈ (single name).redoPatches post := by
    have hseen := seenAt_single (h.named _ (hpost _ hlater).1) (hpost _ hlater).2
    refine mem_redoPatches.mpr ⟨_, hlater, ?_, ?_⟩
    · rw [hseen]
      intro heq
      cases heq
    · rw [hseen]
      exact patch?_absent hn
  -- Redo deletes at first, then writes the slot, then deletes what comes later.
  have hpatches : (single name).redoPatches seen = (single name).redoPatches pre ++
      ([([name], some (.frame empty))] ++ (single name).redoPatches post) := by
    rw [hsplit, redoPatches_append, ← List.singleton_append, redoPatches_append,
      redoPatches_single hn.head]
  rw [hpatches, List.foldl_append, foldl_delete_empty (h.redo_deletes hpre), List.foldl_append,
    List.foldl_cons, List.foldl_nil]
  have hset : empty.apply ([name], some (.frame empty)) = single name := rfl
  rw [hset, foldl_delete_single (h.redo_deletes hpost) hrest hgone]

/-- If something was seen of the slot itself, undo only writes. -/
theorem undo_spoiled (h : Unannounced (single name) seen) {c : Capture}
    (hc : (pathOf [name], c) ∈ seen) (hca : c ≠ .absent) :
    ((single name).undoPatches seen).foldl apply (single name) ≠ empty := by
  refine foldl_write_ne_empty ?_ ?_
  · intro heq
    cases heq
  intro x hx
  obtain ⟨y, hy, hne, hpatch⟩ := mem_undoPatches.mp hx
  -- An absent path other than that of the slot is absent now too, hence not replayed.
  have hya : y.2 ≠ .absent := by
    intro habsent
    by_cases hpath : y.1 = pathOf [name]
    · have hy' : (pathOf [name], y.2) ∈ seen := hpath ▸ hy
      exact hca ((h.capture_unique hc hy').trans habsent)
    · exact hne (habsent.trans (seenAt_single (h.named y hy) hpath).symm)
  cases hy2 : y.2 with
  | pending => exact absurd hy2 (h.notPending y hy)
  | absent => exact absurd hy2 hya
  | value t =>
    rw [hy2] at hpatch
    unfold patch? at hpatch
    dsimp only at hpatch
    cases hparse : Slot.parse t with
    | error err =>
      rw [hparse] at hpatch
      cases hpatch
    | ok slot =>
      rw [hparse] at hpatch
      cases hpatch
      rfl

/-- If something was seen at a path, and a slot of its first name is all that there
    is now, then undo or redo goes wrong. -/
theorem not_both_of_seen {rest : List String} {s : String}
    (h : Unannounced (single name) seen) (hn : Named (name :: rest))
    (hmem : (pathOf (name :: rest), .value s) ∈ seen)
    (hundo : ((single name).undoPatches seen).foldl apply (single name) = empty) :
    ((single name).redoPatches seen).foldl apply empty ≠ single name := by
  obtain ⟨c, hc⟩ := h.covers [name] _ (leafAt_single name)
  by_cases hca : c = .absent
  · subst hca
    rw [redo_spoiled h hn hmem hc]
    intro heq
    cases heq
  · exact absurd hundo (undo_spoiled h hc hca)

end Spoiled

end EntityBook.Frame
