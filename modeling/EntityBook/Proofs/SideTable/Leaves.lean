import EntityBook.Proofs.SideTable.Lookup

/-! # Leaves

  A leaf is a slot that holds a value or an empty frame. A tidy frame is
  determined by its leaves, so what an operation does to a frame is said by what
  it does to them: a slot that is written brings its own leaves and ousts those
  above and below it, a slot that is deleted takes those below it along, and no
  other leaf is touched.
-/

namespace EntityBook

/-! ### The leaf at a list of names -/

/-- Whether a slot is a leaf. -/
def Slot.isLeaf : Slot → Bool
  | .frame (.cons _ _ _) => false
  | _ => true

namespace Frame

/-- The leaf at the end of a list of names. -/
def leafAt (ns : List String) (f : Frame) : Option Slot := (f.getAt ns).filter Slot.isLeaf

end Frame

theorem Slot.tidy_of_isLeaf {s : Slot} (h : s.isLeaf = true) : s.Tidy := by
  cases s with
  | frame f =>
    cases f with
    | empty => trivial
    | cons => cases h
  | _ => trivial

/-- There is nothing below a leaf. -/
theorem Slot.inner_of_isLeaf {s : Slot} (h : s.isLeaf = true) : s.inner = .empty := by
  cases s with
  | frame f =>
    cases f with
    | empty => rfl
    | cons => cases h
  | _ => rfl

/-- The leaf of a slot at the end of a list of names below it. -/
def Slot.leafAt : List String → Slot → Option Slot
  | [], s => if s.isLeaf then some s else none
  | n :: ns, s => s.inner.leafAt (n :: ns)

namespace Frame

@[simp] theorem leafAt_nil (f : Frame) : f.leafAt [] = none := by
  simp [leafAt, getAt_nil]

@[simp] theorem leafAt_empty (ns : List String) : empty.leafAt ns = none := by
  simp [leafAt]

theorem leafAt_singleton (name : String) (f : Frame) :
    f.leafAt [name] = (f.find name).filter Slot.isLeaf := by
  rw [leafAt, getAt_singleton]

theorem leafAt_cons (name : String) {ns : List String} (h : ns ≠ []) (f : Frame) :
    f.leafAt (name :: ns) = (f.child name).leafAt ns := by
  rw [leafAt, getAt_cons name h, leafAt]

/-- The leaves below a name are those of the slot there. -/
theorem leafAt_cons_eq (name : String) (ns : List String) (f : Frame) :
    f.leafAt (name :: ns) = (f.find name).bind (Slot.leafAt ns) := by
  cases ns with
  | nil =>
    rw [leafAt_singleton]
    cases f.find name with
    | none => rfl
    | some s =>
      unfold Slot.leafAt
      cases h : s.isLeaf <;> simp [h]
  | cons n rest =>
    rw [leafAt_cons name (by simp)]
    unfold child
    cases f.find name with
    | none => simp
    | some s => rfl

/-- Below a slot of the table stand that slot's leaves. -/
theorem leafAt_append {ns : List String} {f : Frame} {s : Slot} (h : f.getAt ns = some s)
    (ks : List String) : f.leafAt (ns ++ ks) = s.leafAt ks := by
  cases ks with
  | nil =>
    rw [List.append_nil, leafAt, h, Option.filter_some]
    rfl
  | cons k rest =>
    rw [leafAt, getAt_append h (by simp)]
    rfl

theorem getAt_of_leafAt {ns : List String} {f : Frame} {s : Slot} (h : f.leafAt ns = some s) :
    f.getAt ns = some s := by
  unfold leafAt at h
  obtain ⟨hg, _⟩ := Option.filter_eq_some_iff.mp h
  exact hg

theorem isLeaf_of_leafAt {ns : List String} {f : Frame} {s : Slot} (h : f.leafAt ns = some s) :
    s.isLeaf = true := by
  unfold leafAt at h
  obtain ⟨_, hl⟩ := Option.filter_eq_some_iff.mp h
  exact hl

theorem leafAt_of_isLeaf {s : Slot} (h : s.isLeaf = true) {ks : List String} (hk : ks ≠ []) :
    s.leafAt ks = none := by
  cases ks with
  | nil => exact absurd rfl hk
  | cons k rest => simp [Slot.leafAt, Slot.inner_of_isLeaf h]

/-- No leaf stands below another one. -/
theorem path_eq_of_leafAt {f : Frame} {ns ms : List String} {s t : Slot} (hs : f.leafAt ns = some s)
    (ht : f.leafAt ms = some t) (h : ns <+: ms) : ns = ms := by
  obtain ⟨ks, rfl⟩ := h
  by_cases hk : ks = []
  · rw [hk, List.append_nil]
  · rw [leafAt_append (getAt_of_leafAt hs), leafAt_of_isLeaf (isLeaf_of_leafAt hs) hk] at ht
    cases ht

theorem apart_of_ne {f : Frame} {ns ms : List String} {s t : Slot} (hs : f.leafAt ns = some s)
    (ht : f.leafAt ms = some t) (h : ns ≠ ms) : Apart ns ms :=
  ⟨fun hp => h (path_eq_of_leafAt hs ht hp), fun hp => h (path_eq_of_leafAt ht hs hp).symm⟩

/-! ### Writing -/

/-- A written slot brings its leaves. -/
theorem leafAt_setAt_below (v : Slot) {ns : List String} (h : ns ≠ []) (f : Frame)
    (ks : List String) : (f.setAt v ns).leafAt (ns ++ ks) = v.leafAt ks :=
  leafAt_append (getAt_setAt_self v h f) ks

/-- On the way to a written slot there is no leaf. -/
theorem leafAt_setAt_above (v : Slot) {ns ms : List String} (hp : ms <+: ns) (hne : ms ≠ ns)
    (f : Frame) : (f.setAt v ns).leafAt ms = none := by
  by_cases hm : ms = []
  · rw [hm]
    exact leafAt_nil _
  obtain ⟨ks, rfl⟩ := hp
  have hks : ks ≠ [] := by
    rintro rfl
    exact hne (List.append_nil ms).symm
  -- The slot on the way is a frame that is not empty, which is no leaf.
  obtain ⟨g, hg⟩ := getAt_setAt_above v hm hks f
  have hnot : (Slot.frame (g.setAt v ks)).isLeaf = false := by
    cases hc : g.setAt v ks with
    | empty => exact absurd hc (setAt_ne_empty v hks g)
    | cons => rfl
  simp [leafAt, hg, hnot]

/-- A written slot leaves the leaves apart from it. -/
theorem leafAt_setAt_apart (v : Slot) {ns ms : List String} (h : Apart ns ms) (f : Frame) :
    (f.setAt v ns).leafAt ms = f.leafAt ms := by
  rw [leafAt, getAt_setAt_apart v h, leafAt]

/-! ### Deleting -/

/-- Nothing stays at or below a deleted slot. -/
theorem leafAt_deleteAt_below {ns : List String} (h : ns ≠ []) (f : Frame) (ks : List String) :
    (f.deleteAt ns).leafAt (ns ++ ks) = none := by
  simp [leafAt, getAt_deleteAt_below h]

/-- Deleting a slot leaves the leaves apart from it. -/
theorem leafAt_deleteAt_apart {ns ms : List String} (h : Apart ns ms) (f : Frame) :
    (f.deleteAt ns).leafAt ms = f.leafAt ms := by
  rw [leafAt, getAt_deleteAt_apart h, leafAt]

/-- Deleting makes no new leaf: a frame that would be left empty goes too. -/
theorem leafAt_of_leafAt_deleteAt {ns ms : List String} {f : Frame} {s : Slot}
    (h : (f.deleteAt ns).leafAt ms = some s) : f.leafAt ms = some s := by
  -- Induction along the deleted path; a frame that becomes empty is erased with it.
  induction ns generalizing ms f with
  | nil => exact h
  | cons n rest ih =>
    cases ms with
    | nil =>
      rw [leafAt_nil] at h
      cases h
    | cons m ms =>
      cases rest with
      | nil =>
        have he : (f.erase n).leafAt (m :: ms) = some s := h
        rw [leafAt_cons_eq] at he ⊢
        by_cases hn : m = n
        · subst hn
          rw [find_erase_self] at he
          cases he
        · rwa [find_erase_of_ne hn] at he
      | cons k rest =>
        by_cases hn : m = n
        · subst hn
          cases ms with
          | nil =>
            -- The slot at the name itself was a leaf only if it holds a value.
            rw [leafAt_singleton, deleteAt_cons m (by simp)] at h
            rw [leafAt_singleton]
            cases hf : f.find m with
            | none => simp [hf] at h
            | some t =>
              cases t with
              | frame g =>
                simp only [hf] at h
                split at h
                · simp at h
                · next hne =>
                  rw [find_insert_self] at h
                  cases hg : g.deleteAt (k :: rest) with
                  | empty => simp [hg, isEmpty] at hne
                  | cons =>
                    rw [hg] at h
                    cases h
              | _ => simpa [hf] using h
          | cons j ms =>
            rw [leafAt_cons m (by simp), child_deleteAt_self m (by simp)] at h
            rw [leafAt_cons m (by simp)]
            exact ih h
        · rw [leafAt_cons_eq, find_deleteAt_of_ne hn (by simp)] at h
          rw [leafAt_cons_eq]
          exact h

/-! ### Leaves determine a tidy frame -/

/-- Every slot has a leaf. -/
theorem exists_slotLeaf (s : Slot) : ∃ ks v, s.leafAt ks = some v := by
  match s with
  | .frame (.cons n t rest) =>
    obtain ⟨ks, v, h⟩ := exists_slotLeaf t
    refine ⟨n :: ks, v, ?_⟩
    show (Frame.cons n t rest).leafAt (n :: ks) = some v
    rw [leafAt_cons_eq]
    simp [find, h]
  | .frame .empty => exact ⟨[], _, rfl⟩
  | .int64 _ | .double _ | .numeric _ | .string _ | .guid _ | .time _ => exact ⟨[], _, rfl⟩

/-- The first name of a frame has a leaf at or below it. -/
theorem exists_leaf_cons (n : String) (s : Slot) (rest : Frame) :
    ∃ ks v, (cons n s rest).leafAt (n :: ks) = some v := by
  obtain ⟨ks, v, h⟩ := exists_slotLeaf s
  refine ⟨ks, v, ?_⟩
  rw [leafAt_cons_eq]
  simp [find, h]

theorem find_of_lt {n m : String} {s : Slot} {rest : Frame} (h : (cons m s rest).Tidy)
    (hlt : n < m) : (cons m s rest).find n = none := by
  obtain ⟨_, _, hrest, _⟩ := h
  have hne : m ≠ n := by
    rintro rfl
    exact lt_irrefl _ hlt
  cases hf : (cons m s rest).find n with
  | none => rfl
  | some t =>
    rw [find, if_neg hne] at hf
    exact absurd (lt_trans hlt (hrest n t hf)) (lt_irrefl _)

mutual

theorem slot_ext {s t : Slot} (hs : s.Tidy) (ht : t.Tidy)
    (h : ∀ ks, s.leafAt ks = t.leafAt ks) : s = t := by
  -- A leaf is its own leaf at the empty path, so the other slot has to be it.
  have leaf {u v : Slot} (hu : u.isLeaf = true) (huv : u.leafAt [] = v.leafAt []) : u = v := by
    simp only [Slot.leafAt, hu, if_true] at huv
    split at huv
    · exact Option.some.inj huv
    · cases huv
  match s, t with
  | .frame (.cons n u rest), .frame (.cons m w tail) =>
    refine congrArg Slot.frame (frame_ext hs ht ?_)
    intro ns
    cases ns with
    | nil => rw [leafAt_nil, leafAt_nil]
    | cons k ks => exact h (k :: ks)
  | .frame (.cons n u rest), .frame .empty => exact (leaf rfl (h []).symm).symm
  | .frame (.cons n u rest), .int64 _ | .frame (.cons n u rest), .double _
  | .frame (.cons n u rest), .numeric _ | .frame (.cons n u rest), .string _
  | .frame (.cons n u rest), .guid _ | .frame (.cons n u rest), .time _ =>
    exact (leaf rfl (h []).symm).symm
  | .frame .empty, _ => exact leaf rfl (h [])
  | .int64 _, _ | .double _, _ | .numeric _, _ | .string _, _ | .guid _, _ | .time _, _ =>
    exact leaf rfl (h [])

/-- Tidy frames with the same leaves are the same. -/
theorem frame_ext {f g : Frame} (hf : f.Tidy) (hg : g.Tidy)
    (h : ∀ ns, f.leafAt ns = g.leafAt ns) : f = g := by
  match f, g with
  | .empty, .empty => rfl
  | .empty, .cons m t tail =>
    obtain ⟨ks, v, hv⟩ := exists_leaf_cons m t tail
    rw [← h, leafAt_empty] at hv
    cases hv
  | .cons n s rest, .empty =>
    obtain ⟨ks, v, hv⟩ := exists_leaf_cons n s rest
    rw [h, leafAt_empty] at hv
    cases hv
  | .cons n s rest, .cons m t tail =>
    -- Tidy frames are ordered: a smaller first name would be missing in the other frame.
    have hnm : n = m := by
      rcases lt_trichotomy n m with hlt | heq | hlt
      · obtain ⟨ks, v, hv⟩ := exists_leaf_cons n s rest
        rw [h, leafAt_cons_eq, find_of_lt hg hlt] at hv
        cases hv
      · exact heq
      · obtain ⟨ks, v, hv⟩ := exists_leaf_cons m t tail
        rw [← h, leafAt_cons_eq, find_of_lt hf hlt] at hv
        cases hv
    subst hnm
    obtain ⟨_, hs, hlt, hrest⟩ := hf
    obtain ⟨_, ht, hlt', htail⟩ := hg
    have hslot : s = t := by
      refine slot_ext hs ht ?_
      intro ks
      have hk := h (n :: ks)
      rw [leafAt_cons_eq, leafAt_cons_eq] at hk
      simpa [find] using hk
    -- The rest of the leaves: the first name does not occur again in either frame.
    have hframe : rest = tail := by
      refine frame_ext hrest htail ?_
      intro ns
      cases ns with
      | nil => rw [leafAt_nil, leafAt_nil]
      | cons k ks =>
        rw [leafAt_cons_eq, leafAt_cons_eq]
        by_cases hk : n = k
        · subst hk
          have none_of {r : Frame} (hr : ∀ n' s', r.find n' = some s' → n < n') :
              r.find n = none := by
            cases hfn : r.find n with
            | none => rfl
            | some u => exact absurd (hr n u hfn) (lt_irrefl _)
          rw [none_of hlt, none_of hlt']
        · have hk' := h (k :: ks)
          rw [leafAt_cons_eq, leafAt_cons_eq] at hk'
          simpa [find, hk] using hk'
    rw [hslot, hframe]

end

end Frame

end EntityBook
