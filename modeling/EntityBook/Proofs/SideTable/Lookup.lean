import EntityBook.Proofs.SideTable.Tidy

/-! # What is found after a change

  A list of names leads down a tree one frame a name. Against the names that were
  written or deleted there are four places to look: at them, below them, on the way to
  them, and apart from both. Each has one lemma for writing and one for deleting.
-/

namespace EntityBook.Frame

/-! ### Names that part -/

/-- Neither list of names leads through the end of the other. -/
def Apart (ns ms : List String) : Prop := ¬ ns <+: ms ∧ ¬ ms <+: ns

instance (ns ms : List String) : Decidable (Apart ns ms) :=
  inferInstanceAs (Decidable (¬ ns <+: ms ∧ ¬ ms <+: ns))

theorem Apart.symm {ns ms : List String} (h : Apart ns ms) : Apart ms ns := ⟨h.2, h.1⟩

theorem Apart.tail {n : String} {ns ms : List String} (h : Apart (n :: ns) (n :: ms)) :
    Apart ns ms :=
  ⟨fun hp => h.1 (List.cons_prefix_cons.mpr ⟨rfl, hp⟩),
    fun hp => h.2 (List.cons_prefix_cons.mpr ⟨rfl, hp⟩)⟩

theorem Apart.ne_nil {ns ms : List String} (h : Apart ns ms) : ns ≠ [] ∧ ms ≠ [] :=
  ⟨fun he => h.1 (he ▸ List.nil_prefix), fun he => h.2 (he ▸ List.nil_prefix)⟩

/-! ### One name at a time -/

theorem getAt_nil (f : Frame) : f.getAt [] = none := by
  cases f <;> rfl

@[simp] theorem getAt_empty (ns : List String) : empty.getAt ns = none := by
  match ns with
  | [] => rfl
  | [_] => rfl
  | _ :: _ :: _ => rfl

theorem getAt_singleton (name : String) (f : Frame) : f.getAt [name] = f.find name := by
  cases f <;> rfl

theorem getAt_cons (name : String) {ns : List String} (h : ns ≠ []) (f : Frame) :
    f.getAt (name :: ns) = (f.child name).getAt ns := by
  cases ns with
  | nil => exact absurd rfl h
  | cons n rest =>
    unfold child
    rw [getAt]
    · cases f.find name with
      | none => simp
      | some s => cases s <;> simp [Slot.inner]
    · exact h

/-- What is found below a name depends on the slot there only. -/
theorem getAt_congr {f g : Frame} {name : String} (h : f.find name = g.find name)
    (ns : List String) : f.getAt (name :: ns) = g.getAt (name :: ns) := by
  cases ns with
  | nil => simp only [getAt_singleton, h]
  | cons n rest =>
    rw [getAt_cons name (by simp), getAt_cons name (by simp)]
    simp only [child, h]

/-- A slot of a tidy frame is tidy. -/
theorem Tidy.getAt {f : Frame} (h : f.Tidy) {ns : List String} {s : Slot}
    (hs : f.getAt ns = some s) : s.Tidy := by
  induction ns generalizing f with
  | nil =>
    rw [getAt_nil] at hs
    cases hs
  | cons n rest ih =>
    cases rest with
    | nil =>
      rw [getAt_singleton] at hs
      exact (h.find hs).2
    | cons m ms =>
      rw [getAt_cons n (by simp)] at hs
      exact ih (h.child n) hs

section Lookup

variable {f : Frame} {ns ms ks : List String}

/-- Below a slot one looks into its frame. -/
theorem getAt_append {s : Slot} (h : f.getAt ms = some s) (hk : ks ≠ []) :
    f.getAt (ms ++ ks) = s.inner.getAt ks := by
  induction ms generalizing f with
  | nil =>
    rw [getAt_nil] at h
    cases h
  | cons m rest ih =>
    cases rest with
    | nil =>
      rw [getAt_singleton] at h
      rw [List.singleton_append, getAt_cons m hk]
      simp [child, h]
    | cons n ns =>
      rw [getAt_cons m (by simp)] at h
      rw [List.cons_append, getAt_cons m (by simp)]
      exact ih h

/-! ### After a write -/

theorem getAt_setAt_self (v : Slot) (h : ns ≠ []) (f : Frame) :
    (f.setAt v ns).getAt ns = some v := by
  induction ns generalizing f with
  | nil => exact absurd rfl h
  | cons n rest ih =>
    cases rest with
    | nil =>
      rw [getAt_singleton]
      exact find_insert_self n v f
    | cons m ms =>
      rw [setAt_cons v n (by simp), getAt_cons n (by simp), child_insert_self]
      exact ih (by simp) (f.child n)

/-- Below a written slot one looks into it. -/
theorem getAt_setAt_below (v : Slot) (h : ns ≠ []) (hk : ks ≠ []) (f : Frame) :
    (f.setAt v ns).getAt (ns ++ ks) = v.inner.getAt ks :=
  getAt_append (getAt_setAt_self v h f) hk

/-- On the way to a written slot there are frames, each with the rest of the write in it. -/
theorem getAt_setAt_above (v : Slot) (hm : ms ≠ []) (hk : ks ≠ []) (f : Frame) :
    ∃ g : Frame, (f.setAt v (ms ++ ks)).getAt ms = some (.frame (g.setAt v ks)) := by
  induction ms generalizing f with
  | nil => exact absurd rfl hm
  | cons m rest ih =>
    have hlong : rest ++ ks ≠ [] := by simp [hk]
    rw [List.cons_append, setAt_cons v m hlong]
    cases rest with
    | nil =>
      rw [getAt_singleton, find_insert_self]
      exact ⟨f.child m, rfl⟩
    | cons n ns =>
      rw [getAt_cons m (by simp), child_insert_self]
      exact ih (by simp) (f.child m)

/-- Slots apart from a written one stay. -/
theorem getAt_setAt_apart (v : Slot) (h : Apart ns ms) (f : Frame) :
    (f.setAt v ns).getAt ms = f.getAt ms := by
  induction ns generalizing ms f with
  | nil => exact absurd rfl h.ne_nil.1
  | cons n rest ih =>
    cases ms with
    | nil => exact absurd rfl h.ne_nil.2
    | cons m ms =>
      -- The names part here, or both lists go on from the same one.
      by_cases hn : m = n
      · subst hn
        have htail := h.tail
        rw [setAt_cons v m htail.ne_nil.1, getAt_cons m htail.ne_nil.2,
          getAt_cons m htail.ne_nil.2, child_insert_self]
        exact ih htail (f.child m)
      · apply getAt_congr
        cases rest with
        | nil => exact find_insert_of_ne hn v f
        | cons k rest =>
          rw [setAt_cons v n (by simp)]
          exact find_insert_of_ne hn _ f

/-! ### After a deletion -/

/-- Nothing is found at or below a deleted slot. -/
theorem getAt_deleteAt_below (h : ns ≠ []) (f : Frame) (ks : List String) :
    (f.deleteAt ns).getAt (ns ++ ks) = none := by
  induction ns generalizing f with
  | nil => exact absurd rfl h
  | cons n rest ih =>
    cases rest with
    | nil =>
      have hfind : (f.deleteAt [n]).find n = none := find_erase_self n f
      cases ks with
      | nil => rw [List.append_nil, getAt_singleton, hfind]
      | cons k ks =>
        rw [List.singleton_append, getAt_cons n (by simp)]
        simp [child, hfind]
    | cons m ms =>
      rw [List.cons_append, getAt_cons n (by simp), child_deleteAt_self n (by simp)]
      exact ih (by simp) (f.child n)

/-- A frame above a deleted slot loses that slot, and goes itself if nothing is left. -/
theorem getAt_deleteAt_above {g : Frame} (hk : ks ≠ []) (h : f.getAt ms = some (.frame g)) :
    (f.deleteAt (ms ++ ks)).getAt ms =
      if (g.deleteAt ks).isEmpty then none else some (.frame (g.deleteAt ks)) := by
  induction ms generalizing f with
  | nil =>
    rw [getAt_nil] at h
    cases h
  | cons m rest ih =>
    cases rest with
    | nil =>
      rw [getAt_singleton] at h
      rw [List.singleton_append, getAt_singleton, deleteAt_cons m hk, h]
      dsimp only
      split
      · exact find_erase_self m f
      · exact find_insert_self m _ f
    | cons n ns =>
      rw [getAt_cons m (by simp)] at h
      rw [List.cons_append, getAt_cons m (by simp), child_deleteAt_self m (by simp)]
      exact ih h

/-- Slots apart from a deleted one stay. -/
theorem getAt_deleteAt_apart (h : Apart ns ms) (f : Frame) :
    (f.deleteAt ns).getAt ms = f.getAt ms := by
  induction ns generalizing ms f with
  | nil => exact absurd rfl h.ne_nil.1
  | cons n rest ih =>
    cases ms with
    | nil => exact absurd rfl h.ne_nil.2
    | cons m ms =>
      by_cases hn : m = n
      · subst hn
        have htail := h.tail
        rw [getAt_cons m htail.ne_nil.2, getAt_cons m htail.ne_nil.2,
          child_deleteAt_self m htail.ne_nil.1]
        exact ih htail (f.child m)
      · apply getAt_congr
        cases rest with
        | nil => exact find_erase_of_ne hn f
        | cons => exact find_deleteAt_of_ne hn (by simp) f

end Lookup

end EntityBook.Frame
