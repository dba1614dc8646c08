import EntityBook.Proofs.SideTable.Leaves
import Mathlib.Data.List.Nodup

/-! # Patches

  The list of leaves that undo takes of a side-table, and what a sequence of
  writes and deletions makes of one. `patch_eq` is the law behind undo and redo:
  when every write puts what the target has there, every deletion hits a leaf,
  and together they reach every leaf in which the tables differ, then the target
  is what comes out, whatever the order of the rest.
-/

namespace EntityBook

/-! ### The list of leaves -/

mutual

/-- The leaves of a slot with the names that lead to them. -/
def Slot.leafList : Slot → List (List String × Slot)
  | .frame .empty => [([], .frame .empty)]
  | .frame (.cons name slot rest) => Frame.leafList (.cons name slot rest)
  | slot => [([], slot)]

/-- The leaves of a frame with the names that lead to them. -/
def Frame.leafList : Frame → List (List String × Slot)
  | .empty => []
  | .cons name slot rest => (slot.leafList.map fun x => (name :: x.1, x.2)) ++ rest.leafList

end

namespace Frame

mutual

theorem slotLeaves_eq (base : String) (s : Slot) :
    slotLeaves base s = s.leafList.map fun x => (x.1.foldl joinPath base, x.2) := by
  match s with
  | .frame (.cons n t rest) =>
    show leavesBelow base (.cons n t rest) = _
    rw [leavesBelow_eq]
    rfl
  | .frame .empty => rfl
  | .int64 _ | .double _ | .numeric _ | .string _ | .guid _ | .time _ => rfl

theorem leavesBelow_eq (base : String) (f : Frame) :
    leavesBelow base f = f.leafList.map fun x => (x.1.foldl joinPath base, x.2) := by
  match f with
  | .empty => rfl
  | .cons n s rest =>
    show slotLeaves (joinPath base n) s ++ leavesBelow base rest = _
    rw [slotLeaves_eq, leavesBelow_eq]
    show _ = ((s.leafList.map fun x => (n :: x.1, x.2)) ++ rest.leafList).map _
    rw [List.map_append, List.map_map]
    rfl

end

/-- The leaves that undo sees are those of the table, each with its path. -/
theorem leaves_eq (f : Frame) : f.leaves = f.leafList.map fun x => (pathOf x.1, x.2) :=
  leavesBelow_eq "" f

mutual

theorem isLeaf_of_mem_slotLeaves {path base : String} {s v : Slot}
    (h : (path, v) ∈ slotLeaves base s) : v.isLeaf = true := by
  match s with
  | .frame (.cons n t rest) => exact isLeaf_of_mem_leavesBelow h
  | .frame .empty | .int64 _ | .double _ | .numeric _ | .string _ | .guid _ | .time _ =>
    cases List.mem_singleton.mp h
    rfl

theorem isLeaf_of_mem_leavesBelow {path base : String} {f : Frame} {v : Slot}
    (h : (path, v) ∈ leavesBelow base f) : v.isLeaf = true := by
  match f with
  | .empty => cases h
  | .cons n s rest =>
    rcases List.mem_append.mp h with h | h
    · exact isLeaf_of_mem_slotLeaves h
    · exact isLeaf_of_mem_leavesBelow h

end

mutual

theorem mem_slotLeafList {s : Slot} (h : s.Tidy) {ks : List String} {v : Slot} :
    (ks, v) ∈ s.leafList ↔ s.leafAt ks = some v := by
  -- A value is its own only leaf.
  have value {t : Slot} (hl : t.isLeaf = true) : (ks, v) ∈ [(([] : List String), t)] ↔
      t.leafAt ks = some v := by
    cases ks with
    | nil =>
      simp only [List.mem_singleton, Prod.mk.injEq, true_and, Slot.leafAt, hl, if_true,
        Option.some.injEq]
      exact eq_comm
    | cons k rest =>
      rw [leafAt_of_isLeaf hl (by simp)]
      simp
  match s with
  | .frame (.cons n t rest) =>
    show (ks, v) ∈ (Frame.cons n t rest).leafList ↔ _
    rw [mem_leafList h]
    cases ks with
    | nil => simp [Slot.leafAt, Slot.isLeaf]
    | cons k ks => rfl
  | .frame .empty => exact value rfl
  | .int64 _ | .double _ | .numeric _ | .string _ | .guid _ | .time _ => exact value rfl

theorem mem_leafList {f : Frame} (h : f.Tidy) {ns : List String} {v : Slot} :
    (ns, v) ∈ f.leafList ↔ f.leafAt ns = some v := by
  match f with
  | .empty =>
    rw [leafAt_empty]
    constructor
    · intro hm
      cases hm
    · intro hm
      cases hm
  | .cons n s rest =>
    obtain ⟨_, hs, hlt, hrest⟩ := h
    show (ns, v) ∈ (s.leafList.map fun x => (n :: x.1, x.2)) ++ rest.leafList ↔ _
    rw [List.mem_append, List.mem_map, mem_leafList hrest]
    cases ns with
    | nil => simp
    | cons k ks =>
      rw [leafAt_cons_eq, leafAt_cons_eq]
      -- The first slot has the name, or one further on; names do not repeat.
      by_cases hk : n = k
      · subst hk
        have hnone : rest.find n = none := by
          cases hf : rest.find n with
          | none => rfl
          | some u => exact absurd (hlt n u hf) (lt_irrefl _)
        simp only [hnone, Option.bind_none, reduceCtorEq, or_false, find, if_true,
          Option.bind_some]
        rw [← mem_slotLeafList hs]
        constructor
        · rintro ⟨x, hx, heq⟩
          obtain ⟨ks', w⟩ := x
          simp only [Prod.mk.injEq, List.cons.injEq, true_and] at heq
          exact heq.1 ▸ heq.2 ▸ hx
        · intro hx
          exact ⟨(ks, v), hx, rfl⟩
      · simp [find, hk]

end

/-- Each leaf is listed once. -/
theorem nodup_leafList {f : Frame} (h : f.Tidy) : (f.leafList.map (·.1)).Nodup := by
  match f with
  | .empty => exact List.nodup_nil
  | .cons n s rest =>
    obtain ⟨_, hs, hlt, hrest⟩ := h
    have hslot : (s.leafList.map (·.1)).Nodup := by
      match s with
      | .frame (.cons m t tail) => exact nodup_leafList (show (Frame.cons m t tail).Tidy from hs)
      | .frame .empty => simp [Slot.leafList]
      | .int64 _ | .double _ | .numeric _ | .string _ | .guid _ | .time _ =>
        simp [Slot.leafList]
    show (((s.leafList.map fun x => (n :: x.1, x.2)) ++ rest.leafList).map (·.1)).Nodup
    rw [List.map_append, List.map_map]
    refine List.nodup_append.mpr ⟨?_, nodup_leafList hrest, ?_⟩
    · have hcomp : ((fun x : List String × Slot => x.1) ∘ fun x => (n :: x.1, x.2)) =
          (fun ns => n :: ns) ∘ fun x : List String × Slot => x.1 := rfl
      rw [hcomp, ← List.map_map]
      exact List.Nodup.map (fun _ _ heq => (List.cons.inj heq).2) hslot
    -- A leaf listed in both parts would give the first name to a later slot.
    · intro a ha b hb hab
      subst hab
      obtain ⟨x, _, rfl⟩ := List.mem_map.mp ha
      obtain ⟨y, hy, heq⟩ := List.mem_map.mp hb
      obtain ⟨ms, v⟩ := y
      have hms : ms = n :: x.1 := heq
      subst hms
      have hy := (mem_leafList hrest).mp hy
      rw [leafAt_cons_eq] at hy
      cases hf : rest.find n with
      | none =>
        rw [hf] at hy
        cases hy
      | some u => exact absurd (hlt n u hf) (lt_irrefl _)

/-- The names of a leaf are proper. -/
theorem properName_of_leafAt {f : Frame} (h : f.Tidy) {ns : List String} {v : Slot}
    (hv : f.leafAt ns = some v) : ∀ n ∈ ns, ProperName n := by
  induction ns generalizing f with
  | nil =>
    intro n hn
    cases hn
  | cons m rest ih =>
    intro n hn
    cases hf : f.find m with
    | none =>
      rw [leafAt_cons_eq, hf] at hv
      cases hv
    | some s =>
      obtain ⟨hm, hs⟩ := h.find hf
      rcases List.mem_cons.mp hn with rfl | hn
      · exact hm
      · cases rest with
        | nil => cases hn
        | cons k ks =>
          rw [leafAt_cons m (by simp)] at hv
          exact ih (h.child m) hv n hn

theorem mem_leaves_of_leafAt {f : Frame} (h : f.Tidy) {ns : List String} {v : Slot}
    (hv : f.leafAt ns = some v) : (pathOf ns, v) ∈ f.leaves := by
  rw [leaves_eq]
  exact List.mem_map_of_mem ((mem_leafList h).mpr hv)

theorem exists_leafAt_of_mem_leaves {f : Frame} (h : f.Tidy) {x : String × Slot}
    (hx : x ∈ f.leaves) : ∃ ns, x.1 = pathOf ns ∧ f.leafAt ns = some x.2 := by
  rw [leaves_eq] at hx
  obtain ⟨y, hy, rfl⟩ := List.mem_map.mp hx
  exact ⟨y.1, rfl, (mem_leafList h).mp hy⟩

/-- The path of a leaf leads back to it. -/
theorem leafAt_of_mem_leaves {f : Frame} (h : f.Tidy) {x : String × Slot} (hx : x ∈ f.leaves) :
    f.leafAt (names x.1) = some x.2 := by
  obtain ⟨ns, hpath, hleaf⟩ := exists_leafAt_of_mem_leaves h hx
  rw [hpath, names_pathOf (properName_of_leafAt h hleaf), hleaf]

/-- The leaves of a table are apart from each other. -/
theorem pairwise_apart_leafList {f : Frame} (h : f.Tidy) :
    f.leafList.Pairwise fun x y => Apart x.1 y.1 := by
  have hne : f.leafList.Pairwise fun x y => x.1 ≠ y.1 := List.pairwise_map.mp (nodup_leafList h)
  refine List.Pairwise.imp_of_mem ?_ hne
  intro x y hx hy hxy
  exact apart_of_ne ((mem_leafList h).mp hx) ((mem_leafList h).mp hy) hxy

/-! ### Patches -/

/-- A slot to write, or one to delete. -/
abbrev Patch := List String × Option Slot

/-- Makes the change of a patch. -/
def apply (f : Frame) (x : Patch) : Frame :=
  match x.2 with
  | some v => f.setAt v x.1
  | none => f.deleteAt x.1

/-- Every leaf of the target is there or still to be written. -/
def Supplied (target f : Frame) (xs : List Patch) : Prop :=
  ∀ ns v, target.leafAt ns = some v →
    f.leafAt ns = some v ∨ ∃ x ∈ xs, x.2.isSome = true ∧ x.1 <+: ns

/-- Every leaf that the target does not have is still to be ousted. -/
def Cleared (target f : Frame) (xs : List Patch) : Prop :=
  ∀ ns v, f.leafAt ns = some v → target.leafAt ns = some v ∨
    ∃ x ∈ xs, x.1 <+: ns ∨ (x.2.isSome = true ∧ ns <+: x.1)

theorem apply_write {target f : Frame} {ns : List String} {v : Slot} {xs : List Patch}
    (htarget : target.getAt ns = some v) (hsup : Supplied target f ((ns, some v) :: xs))
    (hclr : Cleared target f ((ns, some v) :: xs)) :
    Supplied target (f.setAt v ns) xs ∧ Cleared target (f.setAt v ns) xs := by
  have hns : ns ≠ [] := by
    rintro rfl
    rw [getAt_nil] at htarget
    cases htarget
  constructor
  · intro ms w hw
    by_cases hbelow : ns <+: ms
    · -- the written slot is the target's, and so are the leaves it brings
      obtain ⟨ks, rfl⟩ := hbelow
      left
      rw [leafAt_setAt_below v hns, ← leafAt_append htarget, hw]
    -- A leaf of the target above `ns` would be a leaf above a leaf.
    · have hnot : ¬ ms <+: ns := by
        rintro ⟨ks, hks⟩
        have hkne : ks ≠ [] := by
          rintro rfl
          exact hbelow ⟨[], by rw [List.append_nil] at hks ⊢; exact hks.symm⟩
        obtain ⟨ls, u, hu⟩ := exists_slotLeaf v
        have hleaf : target.leafAt (ns ++ ls) = some u := by rw [leafAt_append htarget, hu]
        have hpre : ms <+: ns ++ ls := ⟨ks ++ ls, by rw [← List.append_assoc, hks]⟩
        have heq := path_eq_of_leafAt hw hleaf hpre
        rw [← hks, List.append_assoc] at heq
        exact hkne (List.append_eq_nil_iff.mp (List.append_right_eq_self.mp heq.symm)).1
      rw [leafAt_setAt_apart v ⟨hbelow, hnot⟩]
      rcases hsup ms w hw with h | ⟨x, hx, hsome, hp⟩
      · exact Or.inl h
      · rcases List.mem_cons.mp hx with rfl | hx
        · exact absurd hp hbelow
        · exact Or.inr ⟨x, hx, hsome, hp⟩
  · intro ms w hw
    by_cases hbelow : ns <+: ms
    · obtain ⟨ks, rfl⟩ := hbelow
      left
      rw [leafAt_append htarget, ← leafAt_setAt_below v hns f ks, hw]
    · by_cases habove : ms <+: ns
      · have hne : ms ≠ ns := by
          rintro rfl
          exact hbelow (List.prefix_refl _)
        rw [leafAt_setAt_above v habove hne] at hw
        cases hw
      · rw [leafAt_setAt_apart v ⟨hbelow, habove⟩] at hw
        rcases hclr ms w hw with h | ⟨x, hx, hp⟩
        · exact Or.inl h
        · rcases List.mem_cons.mp hx with rfl | hx
          · rcases hp with hp | ⟨_, hp⟩
            · exact absurd hp hbelow
            · exact absurd hp habove
          · exact Or.inr ⟨x, hx, hp⟩

theorem apply_delete {target f : Frame} {ns : List String} {xs : List Patch}
    (hleaf : (f.leafAt ns).isSome = true) (htarget : target.leafAt ns = none)
    (hsup : Supplied target f ((ns, none) :: xs)) (hclr : Cleared target f ((ns, none) :: xs)) :
    Supplied target (f.deleteAt ns) xs ∧ Cleared target (f.deleteAt ns) xs := by
  obtain ⟨u, hu⟩ := Option.isSome_iff_exists.mp hleaf
  have hns : ns ≠ [] := by
    rintro rfl
    rw [leafAt_nil] at hu
    cases hu
  constructor
  · intro ms w hw
    rcases hsup ms w hw with h | ⟨x, hx, hsome, hp⟩
    · left
      have hne : ns ≠ ms := by
        rintro rfl
        rw [hw] at htarget
        cases htarget
      rw [leafAt_deleteAt_apart (apart_of_ne hu h hne), h]
    · rcases List.mem_cons.mp hx with rfl | hx
      · cases hsome
      · exact Or.inr ⟨x, hx, hsome, hp⟩
  · intro ms w hw
    have hw' := leafAt_of_leafAt_deleteAt hw
    rcases hclr ms w hw' with h | ⟨x, hx, hp⟩
    · exact Or.inl h
    · rcases List.mem_cons.mp hx with rfl | hx
      · rcases hp with ⟨ks, rfl⟩ | ⟨hsome, _⟩
        · rw [leafAt_deleteAt_below hns] at hw
          cases hw
        · cases hsome
      · exact Or.inr ⟨x, hx, hp⟩

/-- The leaf that a later deletion hits is apart from everything before it. -/
theorem leafAt_apply_apart {f : Frame} {x : Patch} {ns : List String} (h : Apart x.1 ns) :
    (f.apply x).leafAt ns = f.leafAt ns := by
  unfold apply
  cases x.2 with
  | some v => exact leafAt_setAt_apart v h f
  | none => exact leafAt_deleteAt_apart h f

/-- Leaves that are apart from all patches stay. -/
theorem leafAt_foldl_apart {f : Frame} {xs : List Patch} {ns : List String}
    (h : ∀ x ∈ xs, Apart x.1 ns) : (xs.foldl apply f).leafAt ns = f.leafAt ns := by
  induction xs generalizing f with
  | nil => rfl
  | cons x rest ih =>
    rw [List.foldl_cons, ih fun y hy => h y (List.mem_cons_of_mem x hy)]
    exact leafAt_apply_apart (h x List.mem_cons_self)

theorem Tidy.apply {f : Frame} (h : f.Tidy) {x : Patch}
    (hx : ∀ v, x.2 = some v → v.Tidy ∧ ∀ n ∈ x.1, ProperName n) : (f.apply x).Tidy := by
  unfold Frame.apply
  cases hv : x.2 with
  | some v => exact h.setAt (hx v hv).1 (hx v hv).2
  | none => exact h.deleteAt x.1

/-- Nothing is asked of the order of patches that only write. -/
theorem pairwise_of_writes {xs : List Patch} (h : ∀ x ∈ xs, x.2 ≠ none) :
    xs.Pairwise fun x y => y.2 = none → Apart x.1 y.1 := by
  refine List.Pairwise.imp_of_mem ?_
    (List.pairwise_of_forall (R := fun _ _ => True) fun _ _ => trivial)
  intro x y _ hy _ hnone
  exact absurd hnone (h y hy)

/-- Patches that agree with a target and reach every difference give the target. -/
theorem patch_eq {target f : Frame} {xs : List Patch} (ht : target.Tidy) (hf : f.Tidy)
    (hnames : ∀ x ∈ xs, ∀ n ∈ x.1, ProperName n)
    (hwrite : ∀ x ∈ xs, ∀ v, x.2 = some v → v.Tidy ∧ target.getAt x.1 = some v)
    (hdelete : ∀ x ∈ xs, x.2 = none → (f.leafAt x.1).isSome = true ∧ target.leafAt x.1 = none)
    (hapart : xs.Pairwise fun x y => y.2 = none → Apart x.1 y.1)
    (hsup : Supplied target f xs) (hclr : Cleared target f xs) :
    xs.foldl apply f = target := by
  -- Induction on the patches: `Supplied` and `Cleared` hold of what is left of them.
  induction xs generalizing f with
  | nil =>
    refine frame_ext hf ht ?_
    intro ns
    cases hns : target.leafAt ns with
    | some v =>
      rcases hsup ns v hns with h | ⟨x, hx, _⟩
      · exact h
      · cases hx
    | none =>
      cases hfs : f.leafAt ns with
      | none => exact hfs
      | some v =>
        rcases hclr ns v hfs with h | ⟨x, hx, _⟩
        · rw [hns] at h
          cases h
        · cases hx
  | cons x rest ih =>
    obtain ⟨hx, hrest⟩ := List.pairwise_cons.mp hapart
    obtain ⟨ns, action⟩ := x
    have hnext : Supplied target (f.apply (ns, action)) rest ∧
        Cleared target (f.apply (ns, action)) rest := by
      cases action with
      | some v => exact apply_write (hwrite _ List.mem_cons_self v rfl).2 hsup hclr
      | none =>
        obtain ⟨hl, htarget⟩ := hdelete _ List.mem_cons_self rfl
        exact apply_delete hl htarget hsup hclr
    refine ih ?_ ?_ ?_ ?_ hrest hnext.1 hnext.2
    · refine hf.apply ?_
      intro v hv
      exact ⟨(hwrite _ List.mem_cons_self v hv).1, hnames _ List.mem_cons_self⟩
    · intro y hy
      exact hnames y (List.mem_cons_of_mem _ hy)
    · intro y hy
      exact hwrite y (List.mem_cons_of_mem _ hy)
    · intro y hy hnone
      rw [leafAt_apply_apart (hx y hy hnone)]
      exact hdelete y (List.mem_cons_of_mem _ hy) hnone

/-- Deletions alone make no leaf, and leave none below their paths. -/
theorem leafAt_foldl_delete {f : Frame} {xs : List Patch} (hxs : ∀ x ∈ xs, x.2 = none ∧ x.1 ≠ [])
    {ns : List String} {s : Slot} (h : (xs.foldl apply f).leafAt ns = some s) :
    f.leafAt ns = some s ∧ ∀ x ∈ xs, ¬ x.1 <+: ns := by
  induction xs generalizing f with
  | nil =>
    refine ⟨h, ?_⟩
    intro x hx
    cases hx
  | cons x rest ih =>
    obtain ⟨hnone, hne⟩ := hxs x List.mem_cons_self
    have hrest : ∀ y ∈ rest, y.2 = none ∧ y.1 ≠ [] := by
      intro y hy
      exact hxs y (List.mem_cons_of_mem x hy)
    have happly : f.apply x = f.deleteAt x.1 := by
      unfold apply
      rw [hnone]
    rw [List.foldl_cons, happly] at h
    obtain ⟨hleaf, hapart⟩ := ih hrest h
    refine ⟨leafAt_of_leafAt_deleteAt hleaf, ?_⟩
    intro y hy
    rcases List.mem_cons.mp hy with rfl | hy
    · intro hp
      obtain ⟨ks, rfl⟩ := hp
      rw [leafAt_deleteAt_below hne] at hleaf
      cases hleaf
    · exact hapart y hy

theorem tidy_foldl_apply {f : Frame} (hf : f.Tidy) {xs : List Patch}
    (hxs : ∀ x ∈ xs, ∀ v, x.2 = some v → v.Tidy ∧ ∀ n ∈ x.1, ProperName n) :
    (xs.foldl apply f).Tidy := by
  induction xs generalizing f with
  | nil => exact hf
  | cons x rest ih =>
    refine ih (hf.apply (hxs x List.mem_cons_self)) ?_
    intro y hy
    exact hxs y (List.mem_cons_of_mem x hy)

/-- Deletions that reach every leaf leave nothing. -/
theorem foldl_delete_eq_empty {f : Frame} (hf : f.Tidy) {xs : List Patch}
    (hxs : ∀ x ∈ xs, x.2 = none ∧ x.1 ≠ [])
    (hall : ∀ ns s, f.leafAt ns = some s → ∃ x ∈ xs, x.1 <+: ns) : xs.foldl apply f = empty := by
  have htidy : (xs.foldl apply f).Tidy := by
    refine tidy_foldl_apply hf ?_
    intro x hx v hv
    rw [(hxs x hx).1] at hv
    cases hv
  refine frame_ext htidy (show empty.Tidy from trivial) ?_
  intro ns
  rw [leafAt_empty]
  cases h : (xs.foldl apply f).leafAt ns with
  | none => rfl
  | some s =>
    obtain ⟨hleaf, hapart⟩ := leafAt_foldl_delete hxs h
    obtain ⟨x, hx, hp⟩ := hall ns s hleaf
    exact absurd hp (hapart x hx)

/-- Writing never leaves an empty table. -/
theorem foldl_write_ne_empty {f : Frame} (hf : f ≠ empty) {xs : List Patch}
    (hxs : ∀ x ∈ xs, x.2.isSome = true) : xs.foldl apply f ≠ empty := by
  induction xs generalizing f with
  | nil => exact hf
  | cons x rest ih =>
    refine ih ?_ fun y hy => hxs y (List.mem_cons_of_mem x hy)
    obtain ⟨v, hv⟩ := Option.isSome_iff_exists.mp (hxs x List.mem_cons_self)
    unfold apply
    rw [hv]
    by_cases hn : x.1 = []
    · rw [hn]
      exact hf
    · exact setAt_ne_empty v hn f

end Frame

end EntityBook
