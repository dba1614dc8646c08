import EntityBook.Proofs.SideTable.Path
import Mathlib.Data.String.Basic

/-! # Tidy frames

  A frame that was only changed by writing and deleting slots with proper names
  is tidy: at every level its names increase and are proper. Writing and
  deleting keep a frame tidy.
-/

namespace EntityBook

open EntityBook.Frame (ProperName)

mutual

/-- The frames inside a slot are tidy. -/
def Slot.Tidy : Slot → Prop
  | .frame f => f.Tidy
  | _ => True

/-- The names are proper and increase, here and in all inner frames. -/
def Frame.Tidy : Frame → Prop
  | .empty => True
  | .cons name slot rest =>
    ProperName name ∧ slot.Tidy ∧ (∀ n s, rest.find n = some s → name < n) ∧ rest.Tidy

end

mutual

/-- The names increase in all frames inside a slot. -/
def Slot.Sorted : Slot → Prop
  | .frame f => f.Sorted
  | _ => True

/-- The names increase, here and in all inner frames. -/
def Frame.Sorted : Frame → Prop
  | .empty => True
  | .cons name slot rest =>
    slot.Sorted ∧ (∀ n s, rest.find n = some s → name < n) ∧ rest.Sorted

end

mutual

theorem Slot.Tidy.sorted {s : Slot} (h : s.Tidy) : s.Sorted := by
  match s, h with
  | .frame _, h => exact Frame.Tidy.sorted h
  | .int64 _, _ | .double _, _ | .numeric _, _ | .string _, _ | .guid _, _ | .time _, _ => trivial

theorem Frame.Tidy.sorted {f : Frame} (h : f.Tidy) : f.Sorted := by
  match f, h with
  | .empty, _ => trivial
  | .cons _ _ _, ⟨_, hs, hlt, hrest⟩ => exact ⟨hs.sorted, hlt, hrest.sorted⟩

end

namespace Frame

/-- The frame under a name, empty if there is none. -/
def child (name : String) (f : Frame) : Frame :=
  match f.find name with
  | some s => s.inner
  | none => empty

@[simp] theorem child_insert_self (name : String) (s : Slot) (f : Frame) :
    (f.insert name s).child name = s.inner := by
  simp [child]

/-! ### Writing and deleting, level by level -/

theorem setAt_cons (v : Slot) (name : String) {ns : List String} (h : ns ≠ []) (f : Frame) :
    f.setAt v (name :: ns) = f.insert name (.frame ((f.child name).setAt v ns)) := by
  cases ns with
  | nil => exact absurd rfl h
  | cons n rest => rfl

theorem setAt_ne_empty (v : Slot) {ns : List String} (h : ns ≠ []) (f : Frame) :
    f.setAt v ns ≠ empty := by
  have hinsert (name : String) (s : Slot) : f.insert name s ≠ empty := by
    intro he
    have := find_insert_self name s f
    rw [he] at this
    cases this
  cases ns with
  | nil => exact absurd rfl h
  | cons name rest =>
    cases rest with
    | nil => exact hinsert name v
    | cons n rest => exact hinsert name _

@[simp] theorem deleteAt_empty (ns : List String) : empty.deleteAt ns = empty := by
  match ns with
  | [] => rfl
  | [_] => rfl
  | _ :: _ :: _ => rfl

/-- Deleting below a name: the frame under it is replaced, or goes if nothing is
    left of it. -/
theorem deleteAt_cons (name : String) {ns : List String} (h : ns ≠ []) (f : Frame) :
    f.deleteAt (name :: ns) =
      match f.find name with
      | some (.frame g) =>
        if (g.deleteAt ns).isEmpty then f.erase name else f.insert name (.frame (g.deleteAt ns))
      | _ => f := by
  cases ns with
  | nil => exact absurd rfl h
  | cons n rest => rfl

theorem isEmpty_iff {f : Frame} : f.isEmpty = true ↔ f = empty := by
  cases f <;> simp [isEmpty]

theorem child_deleteAt_self (name : String) {ns : List String} (h : ns ≠ []) (f : Frame) :
    (f.deleteAt (name :: ns)).child name = (f.child name).deleteAt ns := by
  rw [deleteAt_cons name h]
  unfold child
  cases hf : f.find name with
  | none => simp [hf]
  | some s =>
    cases s with
    | frame g =>
      by_cases he : (g.deleteAt ns).isEmpty = true
      · have hnil := isEmpty_iff.mp he
        simp only [he, if_true, find_erase_self, Slot.inner]
        exact hnil.symm
      · simp [he, Slot.inner]
    | _ => simp [hf, Slot.inner]

theorem find_deleteAt_of_ne {name other : String} (hn : other ≠ name) {ns : List String}
    (h : ns ≠ []) (f : Frame) : (f.deleteAt (name :: ns)).find other = f.find other := by
  rw [deleteAt_cons name h]
  cases hf : f.find name with
  | none => rfl
  | some s =>
    cases s with
    | frame g =>
      by_cases he : (g.deleteAt ns).isEmpty = true
      · simp [he, find_erase_of_ne hn]
      · simp [he, find_insert_of_ne hn]
    | _ => rfl

/-! ### Tidiness -/

theorem Tidy.find {f : Frame} (h : f.Tidy) {name : String} {s : Slot}
    (hf : f.find name = some s) : ProperName name ∧ s.Tidy := by
  match f, h with
  | .empty, _ => cases hf
  | .cons n t rest, h =>
    obtain ⟨hn, ht, _, hrest⟩ := h
    unfold Frame.find at hf
    split at hf
    · next heq =>
      cases hf
      exact ⟨heq ▸ hn, ht⟩
    · exact Tidy.find hrest hf

theorem Slot.Tidy.inner {s : Slot} (h : s.Tidy) : s.inner.Tidy := by
  cases s with
  | frame f => exact h
  | _ => trivial

theorem Tidy.child {f : Frame} (h : f.Tidy) (name : String) : (f.child name).Tidy := by
  unfold Frame.child
  cases hf : f.find name with
  | none => trivial
  | some s => exact Slot.Tidy.inner (h.find hf).2

theorem Tidy.insert {f : Frame} (h : f.Tidy) {name : String} {s : Slot} (hn : ProperName name)
    (hs : s.Tidy) : (f.insert name s).Tidy := by
  match f, h with
  | .empty, _ =>
    refine ⟨hn, hs, ?_, trivial⟩
    intro n t ht
    cases ht
  | .cons m t rest, ⟨hm, ht, hlt, hrest⟩ =>
    unfold Frame.insert
    by_cases heq : m = name
    · rw [if_pos heq]
      exact ⟨hn, hs, heq ▸ hlt, hrest⟩
    · rw [if_neg heq]
      -- The new name comes first, or it goes further down and the order is kept.
      by_cases hless : name < m
      · rw [if_pos hless]
        refine ⟨hn, hs, ?_, hm, ht, hlt, hrest⟩
        intro n u hu
        unfold Frame.find at hu
        split at hu
        · next hnm => exact hnm ▸ hless
        · exact lt_trans hless (hlt n u hu)
      · rw [if_neg hless]
        refine ⟨hm, ht, ?_, Tidy.insert hrest hn hs⟩
        intro n u hu
        by_cases hnn : n = name
        · subst hnn
          rcases lt_trichotomy n m with hc | hc | hc
          · exact absurd hc hless
          · exact absurd hc.symm heq
          · exact hc
        · rw [find_insert_of_ne hnn] at hu
          exact hlt n u hu

theorem Tidy.erase {f : Frame} (h : f.Tidy) (name : String) : (f.erase name).Tidy := by
  match f, h with
  | .empty, _ => trivial
  | .cons m t rest, ⟨hm, ht, hlt, hrest⟩ =>
    unfold Frame.erase
    by_cases heq : m = name
    · rw [if_pos heq]
      exact Tidy.erase hrest name
    · rw [if_neg heq]
      refine ⟨hm, ht, ?_, Tidy.erase hrest name⟩
      intro n u hu
      by_cases hnn : n = name
      · subst hnn
        rw [find_erase_self] at hu
        cases hu
      · rw [find_erase_of_ne hnn] at hu
        exact hlt n u hu

theorem Tidy.setAt {f : Frame} (h : f.Tidy) {v : Slot} (hv : v.Tidy) {ns : List String}
    (hns : ∀ n ∈ ns, ProperName n) : (f.setAt v ns).Tidy := by
  induction ns generalizing f with
  | nil => exact h
  | cons n rest ih =>
    have hn := hns n List.mem_cons_self
    have hrest : ∀ m ∈ rest, ProperName m := by
      intro m hm
      exact hns m (List.mem_cons_of_mem n hm)
    cases rest with
    | nil => exact h.insert hn hv
    | cons m ms =>
      rw [setAt_cons v n (by simp)]
      exact h.insert hn (show Frame.Tidy _ from ih (h.child n) hrest)

theorem Tidy.deleteAt {f : Frame} (h : f.Tidy) (ns : List String) : (f.deleteAt ns).Tidy := by
  induction ns generalizing f with
  | nil => exact h
  | cons n rest ih =>
    cases rest with
    | nil => exact h.erase n
    | cons m ms =>
      rw [deleteAt_cons n (by simp)]
      cases hf : f.find n with
      | none => exact h
      | some s =>
        obtain ⟨hn, hs⟩ := h.find hf
        cases s with
        | frame g =>
          dsimp only
          -- A frame that would be left empty is erased.
          split
          · exact h.erase n
          · exact h.insert hn (show Frame.Tidy _ from ih hs)
        | _ => exact h

end Frame

end EntityBook
