import EntityBook.Proofs.SideTable.Leaves

/-! # What a deletion takes along

  A slot is taken out where its path ends. On the way back every frame that is then
  empty is dropped, up to the first one that is not. `takeAt` does it in these steps and
  hands back what it took; it is the same as looking first and deleting then.

  Which frames are dropped? If there was a slot to take, exactly those that held nothing
  but it. If there was none, nothing should be dropped, but a frame is that was empty
  from the start and lies on the path.
-/

namespace EntityBook.Frame

/-! ### Step by step -/

/-- Takes the slot at the end of a list of names out and hands it back, if there is one.
    The frames on the way are put back, but for those that are empty. -/
def takeAt : List String → Frame → Option Slot × Frame
  | [], f => (none, f)
  | [name], f => (f.find name, f.erase name)
  | name :: rest, f =>
    match f.find name with
    | some (.frame g) =>
      let (taken, g) := g.takeAt rest
      (taken, if g.isEmpty then f.erase name else f.insert name (.frame g))
    | _ => (none, f)

/-- What is taken is what a look before finds. -/
theorem takeAt_eq (ns : List String) (f : Frame) : f.takeAt ns = (f.getAt ns, f.deleteAt ns) := by
  induction ns generalizing f with
  | nil => cases f <;> rfl
  | cons n rest ih =>
    cases rest with
    | nil => cases f <;> rfl
    | cons m ms =>
      unfold takeAt getAt
      rw [deleteAt_cons n (by simp)]
      cases f.find n with
      | none => rfl
      | some s =>
        cases s with
        | frame g => simp only [ih]
        | _ => rfl

/-! ### Deleting what is there -/

section Present

variable {f : Frame} {ns ms : List String} {s t : Slot}

/-- A slot above another one is no leaf. -/
theorem not_leaf_above (h : f.getAt ns = some s) (hp : ms <+: ns) (hne : ms ≠ ns) :
    f.leafAt ms = none := by
  obtain ⟨ks, rfl⟩ := hp
  have hk : ks ≠ [] := by
    rintro rfl
    exact hne (List.append_nil ms).symm
  cases hl : f.leafAt ms with
  | none => rfl
  | some u =>
    have hinner : u.inner = empty := Slot.inner_of_isLeaf (isLeaf_of_leafAt hl)
    rw [getAt_append (getAt_of_leafAt hl) hk, hinner, getAt_empty] at h
    cases h

/-- Deleting a slot that is there leaves just the leaves that are not at or below it. -/
theorem leafAt_deleteAt_iff (h : f.getAt ns = some s) :
    (f.deleteAt ns).leafAt ms = some t ↔ f.leafAt ms = some t ∧ ¬ ns <+: ms := by
  have hns : ns ≠ [] := by
    rintro rfl
    rw [getAt_nil] at h
    cases h
  constructor
  · intro ht
    refine ⟨leafAt_of_leafAt_deleteAt ht, ?_⟩
    rintro ⟨ks, rfl⟩
    rw [leafAt_deleteAt_below hns] at ht
    cases ht
  · rintro ⟨ht, hbelow⟩
    have habove : ¬ ms <+: ns := by
      intro hp
      have hne : ms ≠ ns := by
        rintro rfl
        exact hbelow (List.prefix_refl ms)
      rw [not_leaf_above h hp hne] at ht
      cases ht
    rw [leafAt_deleteAt_apart ⟨hbelow, habove⟩, ht]

/-- A frame is left empty just if all its leaves are at or below the deleted slot. -/
theorem deleteAt_eq_empty_iff (h : f.getAt ns = some s) :
    f.deleteAt ns = empty ↔ ∀ ks u, f.leafAt ks = some u → ns <+: ks := by
  constructor
  · intro he ks u hu
    by_contra hbelow
    have hleft := (leafAt_deleteAt_iff h).mpr ⟨hu, hbelow⟩
    rw [he, leafAt_empty] at hleft
    cases hleft
  · intro hall
    cases hd : f.deleteAt ns with
    | empty => rfl
    | cons n u rest =>
      obtain ⟨ks, v, hv⟩ := exists_leaf_cons n u rest
      rw [← hd, leafAt_deleteAt_iff h] at hv
      exact absurd (hall _ v hv.1) hv.2

/-- The leaves of a frame are those of the table below its names, unless it is a leaf. -/
theorem leafAt_append_frame {g : Frame} (h : f.getAt ms = some (.frame g)) (hg : g ≠ empty)
    (ks : List String) : f.leafAt (ms ++ ks) = g.leafAt ks := by
  cases ks with
  | nil =>
    rw [List.append_nil, leafAt_nil, leafAt, h]
    cases g with
    | empty => exact absurd rfl hg
    | cons => rfl
  | cons k rest => exact leafAt_append h (k :: rest)

/-- A frame above the deleted slot is left empty just if all leaves below its names are at
    or below the slot. -/
theorem deleteAt_above_eq_empty_iff {g : Frame} {ks : List String} (hk : ks ≠ [])
    (h : f.getAt (ms ++ ks) = some s) (hg : f.getAt ms = some (.frame g)) :
    g.deleteAt ks = empty ↔ ∀ js u, f.leafAt (ms ++ js) = some u → ms ++ ks <+: ms ++ js := by
  rw [getAt_append hg hk] at h
  have hne : g ≠ empty := by
    rintro rfl
    exact Option.some_ne_none _ (h.symm.trans (getAt_empty ks))
  simp only [leafAt_append_frame hg hne, List.prefix_append_right_inj]
  exact deleteAt_eq_empty_iff h

/-- A slot that is not at or below the deleted one goes just if it is a frame above it
    that held nothing else. -/
theorem getAt_deleteAt_eq_none_iff (h : f.getAt ns = some s) (ht : f.getAt ms = some t)
    (hbelow : ¬ ns <+: ms) :
    (f.deleteAt ns).getAt ms = none ↔
      ms <+: ns ∧ ∀ ks u, f.leafAt (ms ++ ks) = some u → ns <+: ms ++ ks := by
  by_cases hp : ms <+: ns
  · obtain ⟨ks, rfl⟩ := hp
    have hk : ks ≠ [] := by
      rintro rfl
      rw [List.append_nil] at hbelow
      exact hbelow (List.prefix_refl ms)
    -- A slot below which there is one is a frame.
    obtain ⟨g, rfl⟩ : ∃ g, t = .frame g := by
      cases t with
      | frame g => exact ⟨g, rfl⟩
      | _ =>
        rw [getAt_append ht hk] at h
        simp [Slot.inner] at h
    rw [getAt_deleteAt_above hk ht, ← deleteAt_above_eq_empty_iff hk h ht, ← isEmpty_iff]
    simp
  · rw [getAt_deleteAt_apart ⟨hbelow, hp⟩, ht]
    simp [hp]

/-- What becomes of a frame when a slot that is there is deleted. -/
structure Removes (ns : List String) (f g : Frame) : Prop where
  /-- Nothing is found at or below the slot any more. -/
  below : ∀ ks, g.getAt (ns ++ ks) = none
  /-- Every leaf that is not at or below the slot is still one, with its value, and there
      are no new ones. -/
  leaf : ∀ ms t, g.leafAt ms = some t ↔ f.leafAt ms = some t ∧ ¬ ns <+: ms
  /-- What is neither above nor below the slot stays as it is. -/
  apart : ∀ ms, Apart ns ms → g.getAt ms = f.getAt ms
  /-- Of all other slots just those frames go that are above it and held no other leaf. -/
  above : ∀ ms t, f.getAt ms = some t → ¬ ns <+: ms →
    (g.getAt ms = none ↔
      ms <+: ns ∧ ∀ ks u, f.leafAt (ms ++ ks) = some u → ns <+: ms ++ ks)

theorem removes_deleteAt (h : f.getAt ns = some s) : f.Removes ns (f.deleteAt ns) where
  below := by
    refine getAt_deleteAt_below ?_ f
    rintro rfl
    rw [getAt_nil] at h
    cases h
  leaf _ _ := leafAt_deleteAt_iff h
  apart _ ha := getAt_deleteAt_apart ha f
  above _ _ ht hbelow := getAt_deleteAt_eq_none_iff h ht hbelow

end Present

/-! ### Deleting what is not there -/

/-- The names lead through an empty frame before they end. -/
def MeetsEmpty (ns : List String) (f : Frame) : Prop :=
  ∃ ms, ms <+: ns ∧ ms ≠ ns ∧ f.getAt ms = some (.frame empty)

theorem erase_eq_self {name : String} {f : Frame} (h : f.find name = none) : f.erase name = f := by
  match f with
  | empty => rfl
  | cons n s rest =>
    unfold find at h
    by_cases hn : n = name
    · rw [if_pos hn] at h
      cases h
    · rw [if_neg hn] at h
      rw [erase, if_neg hn, erase_eq_self h]

/-- Putting a slot where it is changes nothing. -/
theorem Sorted.insert_eq_self {f : Frame} (hf : f.Sorted) {name : String} {s : Slot}
    (h : f.find name = some s) : f.insert name s = f := by
  match f, hf with
  | .empty, _ => cases h
  | .cons n t rest, ⟨_, hlt, hrest⟩ =>
    unfold find at h
    by_cases hn : n = name
    · rw [if_pos hn] at h
      cases h
      rw [insert, if_pos hn, hn]
    · rw [if_neg hn] at h
      rw [insert, if_neg hn, if_neg (lt_asymm (hlt name s h)), hrest.insert_eq_self h]

theorem Sorted.slot {f : Frame} (hf : f.Sorted) {name : String} {s : Slot}
    (h : f.find name = some s) : s.Sorted := by
  match f, hf with
  | .empty, _ => cases h
  | .cons n t rest, ⟨ht, _, hrest⟩ =>
    unfold Frame.find at h
    by_cases hn : n = name
    · rw [if_pos hn] at h
      cases h
      exact ht
    · rw [if_neg hn] at h
      exact hrest.slot h

section Absent

variable {n : String} {ns : List String} {f g : Frame}

theorem not_meetsEmpty_of_value (h : ∀ g, f.find n ≠ some (.frame g)) :
    ¬ f.MeetsEmpty (n :: ns) := by
  rintro ⟨ms, hp, -, hempty⟩
  cases ms with
  | nil =>
    rw [getAt_nil] at hempty
    cases hempty
  | cons m rest =>
    obtain ⟨rfl, -⟩ := List.cons_prefix_cons.mp hp
    cases rest with
    | nil =>
      rw [getAt_singleton] at hempty
      exact h empty hempty
    | cons k ks =>
      -- Below a value, as below nothing, there are no slots.
      have hchild : f.child m = empty := by
        unfold child
        cases hfind : f.find m with
        | none => rfl
        | some s =>
          cases s with
          | frame g => exact absurd hfind (h g)
          | _ => rfl
      rw [getAt_cons m (by simp), hchild, getAt_empty] at hempty
      cases hempty

theorem meetsEmpty_cons (hn : ns ≠ []) (h : f.find n = some (.frame g)) :
    f.MeetsEmpty (n :: ns) ↔ g = empty ∨ g.MeetsEmpty ns := by
  have hchild : f.child n = g := by simp [child, h, Slot.inner]
  constructor
  · rintro ⟨ms, hp, hne, hempty⟩
    cases ms with
    | nil =>
      rw [getAt_nil] at hempty
      cases hempty
    | cons m rest =>
      obtain ⟨rfl, hrest⟩ := List.cons_prefix_cons.mp hp
      cases rest with
      | nil =>
        rw [getAt_singleton, h] at hempty
        cases hempty
        exact Or.inl rfl
      | cons k ks =>
        rw [getAt_cons m (by simp), hchild] at hempty
        exact Or.inr ⟨k :: ks, hrest, fun he => hne (congrArg (m :: ·) he), hempty⟩
  · rintro (rfl | ⟨ms, hp, hne, hempty⟩)
    · refine ⟨[n], List.cons_prefix_cons.mpr ⟨rfl, List.nil_prefix⟩, ?_, ?_⟩
      · intro he
        exact hn (List.cons.inj he).2.symm
      · rw [getAt_singleton, h]
    · refine ⟨n :: ms, List.cons_prefix_cons.mpr ⟨rfl, hp⟩, ?_, ?_⟩
      · intro he
        exact hne (List.cons.inj he).2
      · have hms : ms ≠ [] := by
          rintro rfl
          rw [getAt_nil] at hempty
          cases hempty
        rw [getAt_cons n hms, hchild, hempty]

/-- Deleting a slot that is not there changes nothing, unless an empty frame is met. -/
theorem Sorted.deleteAt_eq_self_iff (hf : f.Sorted) (h : f.getAt ns = none) :
    f.deleteAt ns = f ↔ ¬ f.MeetsEmpty ns := by
  induction ns generalizing f with
  | nil =>
    have hnot : ¬ f.MeetsEmpty [] := by
      rintro ⟨ms, hp, hne, -⟩
      exact hne (List.prefix_nil.mp hp)
    exact iff_of_true rfl hnot
  | cons n rest ih =>
    cases rest with
    | nil =>
      rw [getAt_singleton] at h
      exact iff_of_true (erase_eq_self h) (not_meetsEmpty_of_value fun g hg => by simp [h] at hg)
    | cons m ms =>
      have hms : m :: ms ≠ [] := by simp
      -- The way goes on in a frame, or ends here with nothing to delete.
      by_cases hframe : ∃ g, f.find n = some (.frame g)
      · obtain ⟨g, hg⟩ := hframe
        have hchild : f.child n = g := by simp [child, hg, Slot.inner]
        have hsorted : g.Sorted := hf.slot hg
        rw [getAt_cons n hms, hchild] at h
        rw [meetsEmpty_cons hms hg, not_or, ← ih hsorted h]
        constructor
        · intro heq
          have hsame : g.deleteAt (m :: ms) = g := by
            rw [← hchild, ← child_deleteAt_self n hms, heq]
          refine ⟨?_, hsame⟩
          rintro rfl
          -- The frame met is dropped, so its name is gone.
          have hgone : (f.deleteAt (n :: m :: ms)).find n = none := by
            rw [deleteAt_cons n hms, hg]
            dsimp only
            rw [deleteAt_empty]
            exact find_erase_self n f
          rw [heq, hg] at hgone
          cases hgone
        · rintro ⟨hne, hsame⟩
          rw [deleteAt_cons n hms, hg]
          dsimp only
          rw [hsame, if_neg fun he => hne (isEmpty_iff.mp he)]
          exact hf.insert_eq_self hg
      · have hvalue : ∀ g, f.find n ≠ some (.frame g) := fun g hg => hframe ⟨g, hg⟩
        refine iff_of_true ?_ (not_meetsEmpty_of_value hvalue)
        rw [deleteAt_cons n hms]
        split
        · next g hg => exact absurd hg (hvalue g)
        · rfl

end Absent

/-! ### Deletions at paths -/

/-- A deletion answers the slot that was at the path. If there was none, the frame stays
    as it is just if the path does not lead through an empty frame. If there was one, it
    is gone afterwards with all below it, and nothing else but the frames above it that
    held no other leaf. -/
theorem deletion_is_local_iff {f : Frame} (hf : f.Sorted) (path : String) :
    (f.delete path).1 = f.get path ∧ f.delete path = f.takeAt (names path) ∧
    (f.get path = none → ((f.delete path).2 = f ↔ ¬ f.MeetsEmpty (names path))) ∧
    ∀ s, f.get path = some s →
      (f.delete path).2.get path = none ∧ f.Removes (names path) (f.delete path).2 := by
  refine ⟨rfl, (takeAt_eq (names path) f).symm, hf.deleteAt_eq_self_iff, ?_⟩
  intro s hs
  have hremoves := removes_deleteAt hs
  refine ⟨?_, hremoves⟩
  have hnone := hremoves.below []
  rwa [List.append_nil] at hnone

/-- A frame that holds one slot three names deep, and an empty frame beside it. -/
def deepTable : Frame :=
  .cons "a" (.frame (.cons "b" (.frame (.cons "c" (.int64 1) .empty)) .empty))
    (.cons "d" (.frame .empty) .empty)

/-- With the slot go the two frames that held nothing else, but not the one beside them;
    deleting beside the slot changes nothing. -/
theorem deepTable_deletions :
    deepTable.Sorted ∧ deepTable.get "a//b/c" = some (.int64 1) ∧
      deepTable.delete "a//b/c" = (some (.int64 1), .cons "d" (.frame .empty) .empty) ∧
      (∀ ks t, deepTable.leafAt ("a" :: ks) = some t → ["a", "b", "c"] <+: "a" :: ks) ∧
      deepTable.get "a/b/x" = none ∧ deepTable.delete "a/b/x" = (none, deepTable) ∧
      ¬ deepTable.MeetsEmpty ["a", "b", "x"] := by
  have hsorted : deepTable.Sorted := by
    refine ⟨⟨⟨trivial, ?_, trivial⟩, ?_, trivial⟩, ?_, trivial, ?_, trivial⟩
    · intro n s h
      cases h
    · intro n s h
      cases h
    · intro n s h
      unfold Frame.find at h
      split at h
      · next hn => exact hn ▸ by decide
      · cases h
    · intro n s h
      cases h
  have hpath : names "a//b/c" = ["a", "b", "c"] := by decide
  have hthere : deepTable.get "a//b/c" = some (.int64 1) := by decide
  have hmissing : deepTable.get "a/b/x" = none := by decide
  refine ⟨hsorted, hthere, by decide, ?_, hmissing, by decide, ?_⟩
  · obtain ⟨_, _, _, hlocal⟩ := deletion_is_local_iff hsorted "a//b/c"
    obtain ⟨_, hremoves⟩ := hlocal _ hthere
    rw [hpath] at hremoves
    have hframe : deepTable.getAt ["a"] =
        some (.frame (.cons "b" (.frame (.cons "c" (.int64 1) .empty)) .empty)) := by decide
    exact ((hremoves.above ["a"] _ hframe (by decide)).mp (by decide)).2
  · exact ((deletion_is_local_iff hsorted "a/b/x").2.2.1 hmissing).mp (by decide)

/-- A path that leads through an empty frame finds nothing, and yet the frame is
    dropped. -/
theorem empty_frame_lost :
    (cons "a" (.frame empty) empty).Sorted ∧
      (cons "a" (.frame empty) empty).leaves = [("a", .frame empty)] ∧
      (cons "a" (.frame empty) empty).delete "a/b" = (none, empty) ∧
      ¬ ∀ (f : Frame) (path : String), f.Sorted → f.get path = none → (f.delete path).2 = f := by
  have hsorted : (cons "a" (.frame empty) empty).Sorted := by
    refine ⟨trivial, ?_, trivial⟩
    intro n s h
    cases h
  refine ⟨hsorted, by decide, by decide, ?_⟩
  intro hall
  have hsame := hall _ "a/b" hsorted (by decide)
  revert hsame
  decide

end EntityBook.Frame
