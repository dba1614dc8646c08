import EntityBook.Proofs.SideTable.Patch
import EntityBook.Proofs.SideTable.Update

/-! # Tables rebuilt from their leaves

  Writing leaves of a table over another one gives the table if what the other one has is
  written or ousted on the way. The order does not matter, since no leaf is above another.

  In particular the list of leaves says all there is to say of a table whose names can
  stand in paths: each leaf is found at its path, and written into an empty table they give
  it back.
-/

namespace EntityBook.Frame

/-! ### Tables that are written over -/

variable {f g : Frame} {xs : List Patch}

/-- Patches write leaves of a table. -/
def WritesLeaves (f : Frame) (xs : List Patch) : Prop :=
  ∀ x ∈ xs, ∃ s, x.2 = some s ∧ f.leafAt x.1 = some s

/-- Every leaf of the second table is at, above or below a leaf of the first. -/
def Reaches (f g : Frame) : Prop := ∀ x ∈ g.leafList, ∃ y ∈ f.leafList, ¬ Apart y.1 x.1

instance (f g : Frame) : Decidable (f.Reaches g) :=
  inferInstanceAs (Decidable (∀ x ∈ g.leafList, ∃ y ∈ f.leafList, ¬ Apart y.1 x.1))

theorem reaches_iff (hf : f.Tidy) (hg : g.Tidy) :
    f.Reaches g ↔ ∀ ns t, g.leafAt ns = some t → ∃ ms s, f.leafAt ms = some s ∧ ¬ Apart ms ns := by
  constructor
  · intro h ns t ht
    obtain ⟨y, hy, hnear⟩ := h (ns, t) ((mem_leafList hg).mpr ht)
    exact ⟨y.1, y.2, (mem_leafList hf).mp hy, hnear⟩
  · intro h x hx
    obtain ⟨ms, s, hs, hnear⟩ := h x.1 x.2 ((mem_leafList hg).mp hx)
    exact ⟨(ms, s), (mem_leafList hf).mpr hs, hnear⟩

/-- A table is there after its leaves are written over another one if and only if it
    reaches the other one. -/
theorem foldl_leaves_eq_iff (hf : f.Tidy) (hg : g.Tidy) (hxs : f.WritesLeaves xs)
    (hall : ∀ ns s, f.leafAt ns = some s → g.leafAt ns = some s ∨ (ns, some s) ∈ xs) :
    xs.foldl apply g = f ↔ f.Reaches g := by
  rw [reaches_iff hf hg]
  constructor
  · intro heq ns t ht
    by_contra hnear
    have hnone : ∀ ms s, f.leafAt ms = some s → Apart ms ns := by
      intro ms s hs
      by_contra hnot
      exact hnear ⟨ms, s, hs, hnot⟩
    have hapart : ∀ x ∈ xs, Apart x.1 ns := by
      intro x hx
      obtain ⟨s, _, hs⟩ := hxs x hx
      exact hnone x.1 s hs
    have hleaf : f.leafAt ns = some t := by
      rw [← heq, leafAt_foldl_apart hapart, ht]
    exact (hnone ns t hleaf).1 (List.prefix_refl ns)
  · intro hcov
    refine patch_eq hf hg ?_ ?_ ?_ ?_ ?_ ?_
    · intro x hx
      obtain ⟨s, _, hs⟩ := hxs x hx
      exact properName_of_leafAt hf hs
    · intro x hx v hv
      obtain ⟨s, hsome, hs⟩ := hxs x hx
      cases hsome.symm.trans hv
      exact ⟨hf.getAt (getAt_of_leafAt hs), getAt_of_leafAt hs⟩
    · intro x hx hnone
      obtain ⟨s, hsome, _⟩ := hxs x hx
      cases hnone.symm.trans hsome
    · refine pairwise_of_writes ?_
      intro x hx hnone
      obtain ⟨s, hsome, _⟩ := hxs x hx
      cases hnone.symm.trans hsome
    · intro ns s hs
      rcases hall ns s hs with hsame | hmem
      · exact Or.inl hsame
      · exact Or.inr ⟨_, hmem, rfl, List.prefix_refl ns⟩
    -- A leaf of the other table is the table's own, or a leaf near it is written.
    · intro ns t ht
      obtain ⟨ms, s, hs, hnear⟩ := hcov ns t ht
      have hcomparable : ms <+: ns ∨ ns <+: ms := by
        by_contra hnot
        exact hnear ⟨fun h => hnot (Or.inl h), fun h => hnot (Or.inr h)⟩
      rcases hall ms s hs with hsame | hmem
      · left
        have hpath : ms = ns := by
          rcases hcomparable with h | h
          · exact path_eq_of_leafAt hsame ht h
          · exact (path_eq_of_leafAt ht hsame h).symm
        subst hpath
        rw [hs, ← hsame, ht]
      · refine Or.inr ⟨_, hmem, hcomparable.imp id fun h => ⟨rfl, h⟩⟩

/-- Writing all its leaves over a part of a table gives the table. -/
theorem foldl_leaves_eq (hf : f.Tidy) (hg : g.Tidy) (hxs : f.WritesLeaves xs)
    (hall : ∀ ns s, f.leafAt ns = some s → (ns, some s) ∈ xs)
    (hpart : ∀ ns s, g.leafAt ns = some s → f.leafAt ns = some s) : xs.foldl apply g = f := by
  refine (foldl_leaves_eq_iff hf hg hxs fun ns s hs => Or.inr (hall ns s hs)).mpr ?_
  rw [reaches_iff hf hg]
  intro ns t ht
  exact ⟨ns, t, hpart ns t ht, fun h => h.1 (List.prefix_refl ns)⟩

/-- The patches that write the leaves of a table. -/
def leafPatches (f : Frame) : List Patch := f.leafList.map fun x => (x.1, some x.2)

theorem mem_leafPatches {f : Frame} (h : f.Tidy) {x : Patch} :
    x ∈ f.leafPatches ↔ ∃ s, x.2 = some s ∧ f.leafAt x.1 = some s := by
  obtain ⟨ns, action⟩ := x
  unfold leafPatches
  rw [List.mem_map]
  constructor
  · intro hm
    obtain ⟨y, hy, heq⟩ := hm
    cases heq
    exact ⟨y.2, rfl, (mem_leafList h).mp hy⟩
  · intro hm
    obtain ⟨s, hs, hl⟩ := hm
    cases hs
    exact ⟨(ns, s), (mem_leafList h).mpr hl, rfl⟩

/-- Writing all leaves of a table, in any order, gives the table, on top of an
    empty table or of itself. -/
theorem foldl_apply_leafPatches (hf : f.Tidy) (hg : g = empty ∨ g = f)
    (hxs : ∀ x, x ∈ xs ↔ x ∈ f.leafPatches) : xs.foldl apply g = f := by
  have htidy : g.Tidy := by
    rcases hg with rfl | rfl
    · trivial
    · exact hf
  apply foldl_leaves_eq hf htidy
  · intro x hx
    exact (mem_leafPatches hf).mp ((hxs x).mp hx)
  · intro ns s hs
    exact (hxs _).mpr ((mem_leafPatches hf).mpr ⟨s, rfl, hs⟩)
  · intro ns s hs
    rcases hg with rfl | rfl
    · simp at hs
    · exact hs

/-! ### Frames built by writing -/

/-- Writes slots at their paths, one after the other. -/
def writeAll (ys : List (String × Slot)) (f : Frame) : Except ValueError Frame :=
  ys.foldlM (fun f y => (f.set y.1 y.2).map Prod.snd) f

/-- The frames that come of writing values and such frames at paths. -/
inductive Built : Frame → Prop where
  /-- No slot was written. -/
  | empty : Built .empty
  /-- A value is written. -/
  | value {f g : Frame} {path : String} {v : Slot} {old : Option Slot} (hf : Built f)
      (hv : ∀ h, v ≠ .frame h) (hw : f.set path v = .ok (old, g)) : Built g
  /-- A frame is written. -/
  | frame {f g h : Frame} {path : String} {old : Option Slot} (hf : Built f) (hh : Built h)
      (hw : f.set path (.frame h) = .ok (old, g)) : Built g

section Writing

variable {path : String} {v : Slot} {old : Option Slot} {ys : List (String × Slot)}

theorem Tidy.set (h : f.Tidy) (hv : v.Tidy) (hw : f.set path v = .ok (old, g)) : g.Tidy := by
  have hn : names path ≠ [] := by
    intro hnil
    simp [Frame.set, hnil] at hw
  rw [set_eq_ok v hn] at hw
  cases hw
  exact h.setAt hv fun n hn => properName_of_mem_names hn

theorem Built.tidy (h : f.Built) : f.Tidy := by
  induction h with
  | empty => trivial
  | @value f g path v old hf hv hw ih =>
    refine ih.set ?_ hw
    cases v with
    | frame h => exact absurd rfl (hv h)
    | _ => trivial
  | frame hf hh hw ihf ihh => exact ihf.set (show Slot.Tidy (.frame _) from ihh) hw

/-- Writing goes through if there is a name in every path. -/
theorem writeAll_eq (hys : ∀ y ∈ ys, names y.1 ≠ []) (f : Frame) :
    f.writeAll ys = .ok ((ys.map fun y => (names y.1, some y.2)).foldl apply f) := by
  unfold writeAll
  induction ys generalizing f with
  | nil => rfl
  | cons y rest ih =>
    have hrest : ∀ z ∈ rest, names z.1 ≠ [] := fun z hz => hys z (List.mem_cons_of_mem y hz)
    rw [List.foldlM_cons, set_eq_ok y.2 (hys y List.mem_cons_self)]
    exact ih hrest (f.setAt y.2 (names y.1))

theorem Built.writeAll (h : f.Built) (hys : ∀ y ∈ ys, y.2.isLeaf = true)
    (hw : f.writeAll ys = .ok g) : g.Built := by
  induction ys generalizing f with
  | nil =>
    cases hw
    exact h
  | cons y rest ih =>
    obtain ⟨path, v⟩ := y
    unfold Frame.writeAll at hw
    rw [List.foldlM_cons] at hw
    have hrest : ∀ z ∈ rest, z.2.isLeaf = true := fun z hz => hys z (List.mem_cons_of_mem _ hz)
    cases hset : f.set path v with
    | error err =>
      rw [hset] at hw
      cases hw
    | ok written =>
      rw [hset] at hw
      refine ih ?_ hrest hw
      -- A leaf is a value or the empty frame.
      have hleaf := hys _ List.mem_cons_self
      cases v with
      | frame h' =>
        cases h' with
        | empty => exact .frame h .empty hset
        | cons => cases hleaf
      | _ => exact .value h (fun _ => Slot.noConfusion) hset

end Writing

/-! ### The list of leaves -/

/-- A list of slots with their paths says what a frame holds. -/
structure Describes (xs : List (String × Slot)) (f : Frame) : Prop where
  /-- No path is listed twice. -/
  distinct : (xs.map Prod.fst).Nodup
  /-- No path leads through another one. -/
  apart : xs.Pairwise fun x y => Apart (names x.1) (names y.1)
  /-- At each path the slot is found, and it is a value or an empty frame. -/
  found : ∀ x ∈ xs, f.get x.1 = some x.2 ∧ x.2.isLeaf = true
  /-- There are no other values and empty frames. -/
  complete : ∀ path s, f.get path = some s → s.isLeaf = true →
    ∃ x ∈ xs, names x.1 = names path ∧ x.2 = s
  /-- Written into an empty frame, in any order, the slots give the frame. -/
  rebuilt : ∀ ys, ys.Perm xs → empty.writeAll ys = .ok f

theorem Tidy.pairwise_apart_leaves (h : f.Tidy) :
    f.leaves.Pairwise fun x y => Apart (names x.1) (names y.1) := by
  rw [leaves_eq, List.pairwise_map]
  refine List.Pairwise.imp_of_mem ?_ (pairwise_apart_leafList h)
  intro x y hx hy hxy
  rwa [names_pathOf (properName_of_leafAt h ((mem_leafList h).mp hx)),
    names_pathOf (properName_of_leafAt h ((mem_leafList h).mp hy))]

theorem Tidy.rebuilt (h : f.Tidy) {ys : List (String × Slot)} (hys : ys.Perm f.leaves) :
    empty.writeAll ys = .ok f := by
  have hleaf : ∀ y ∈ ys, f.leafAt (names y.1) = some y.2 := fun y hy =>
    leafAt_of_mem_leaves h (hys.mem_iff.mp hy)
  rw [writeAll_eq]
  · congr 1
    apply foldl_leaves_eq h (show empty.Tidy from trivial)
    · intro x hx
      obtain ⟨y, hy, rfl⟩ := List.mem_map.mp hx
      exact ⟨y.2, rfl, hleaf y hy⟩
    · intro ns s hs
      have hy := hys.mem_iff.mpr (mem_leaves_of_leafAt h hs)
      refine List.mem_map.mpr ⟨_, hy, ?_⟩
      rw [names_pathOf (properName_of_leafAt h hs)]
    · intro ns s hs
      simp at hs
  · intro y hy hnil
    have hy := hleaf y hy
    rw [hnil, leafAt_nil] at hy
    cases hy

theorem Tidy.describes (h : f.Tidy) : Describes f.leaves f where
  distinct := by
    refine List.pairwise_map.mpr (h.pairwise_apart_leaves.imp ?_)
    intro x y hxy heq
    rw [heq] at hxy
    exact hxy.1 (List.prefix_refl _)
  apart := h.pairwise_apart_leaves
  found x hx := by
    have hleaf := leafAt_of_mem_leaves h hx
    exact ⟨getAt_of_leafAt hleaf, isLeaf_of_leafAt hleaf⟩
  complete path s hs hl := by
    have hleaf : f.leafAt (names path) = some s := Option.filter_eq_some_iff.mpr ⟨hs, hl⟩
    refine ⟨_, mem_leaves_of_leafAt h hleaf, ?_, rfl⟩
    exact names_pathOf fun n hn => properName_of_mem_names hn
  rebuilt ys hys := h.rebuilt hys

theorem Tidy.built (h : f.Tidy) : f.Built :=
  Built.empty.writeAll (fun x hx => (h.describes.found x hx).2) (h.rebuilt (.refl _))

/-- The frames that come of writing are those whose names can stand in paths, at every
    level; and such a frame is described by its leaves. -/
theorem leaves_describe_frame (f : Frame) :
    (f.Built ↔ f.Tidy) ∧ (f.Tidy → Describes f.leaves f) :=
  ⟨⟨Built.tidy, Tidy.built⟩, Tidy.describes⟩

/-- A frame with a value and an empty frame in an inner one, put together backwards. -/
theorem inner_empty_frame_rebuilt :
    (cons "a" (.frame (cons "b" (.int64 1) (cons "c" (.frame empty) empty)))
      (cons "d" (.int64 2) empty)).leaves =
      [("a/b", .int64 1), ("a/c", .frame empty), ("d", .int64 2)] ∧
    empty.writeAll [("d", .int64 2), ("a/c", .frame empty), ("a/b", .int64 1)] =
      .ok (cons "a" (.frame (cons "b" (.int64 1) (cons "c" (.frame empty) empty)))
        (cons "d" (.int64 2) empty)) := by
  let inner := cons "b" (.int64 1) (cons "c" (.frame empty) empty)
  let table := cons "a" (.frame inner) (cons "d" (.int64 2) empty)
  obtain ⟨hbuilt, hdescribes⟩ := leaves_describe_frame table
  have htable : table.Built := by
    have hd : empty.set "d" (.int64 2) = .ok (none, cons "d" (.int64 2) empty) := by rfl
    have hc : empty.set "c" (.frame empty) = .ok (none, cons "c" (.frame empty) empty) := by rfl
    have hb : (cons "c" (.frame empty) empty).set "b" (.int64 1) = .ok (none, inner) := by rfl
    have ha : (cons "d" (.int64 2) empty).set "a" (.frame inner) = .ok (none, table) := by rfl
    have hinner : inner.Built := .value (.frame .empty .empty hc) (by simp) hb
    exact .frame (.value .empty (by simp) hd) hinner ha
  have hleaves : table.leaves = [("a/b", .int64 1), ("a/c", .frame empty), ("d", .int64 2)] := by
    decide
  refine ⟨hleaves, (hdescribes (hbuilt.mp htable)).rebuilt _ ?_⟩
  rw [hleaves]
  exact List.reverse_perm [("a/b", Slot.int64 1), ("a/c", Slot.frame empty), ("d", Slot.int64 2)]

end EntityBook.Frame
