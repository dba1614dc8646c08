import EntityBook.Proofs.SideTable.Readable

/-! # Slots up to NaNs

  A NaN is equal to no number, itself included, and the texts of doubles know one
  NaN only. So that values can be compared that went through their texts, all NaNs
  are taken for one: `canonical` puts it in their place, anywhere in a table, and
  changes neither the leaves nor the names.

  Inside a table a double that is not finite has no text that reads back. A leaf
  that is read back up to NaNs is therefore read back as it is.
-/

namespace EntityBook

/-! ### Doubles -/

namespace Double

/-- The double, with one NaN for all. -/
def canonical (x : Double) : Double := if x.isNaN then nan else x

theorem isNaN_of_isFinite {x : Double} (h : x.isFinite = true) : x.isNaN = false := by
  simp only [isFinite, isNaN, decide_eq_true_eq, decide_eq_false_iff_not] at h ⊢
  omega

theorem canonical_of_isNaN {x : Double} (h : x.isNaN = true) : x.canonical = nan := by
  simp [canonical, h]

theorem canonical_of_not_isNaN {x : Double} (h : x.isNaN = false) : x.canonical = x := by
  simp [canonical, h]

theorem eq_of_canonical_eq {x y : Double} (hx : x.isFinite = true)
    (h : y.canonical = x.canonical) : y = x := by
  rw [canonical_of_not_isNaN (isNaN_of_isFinite hx)] at h
  cases hy : y.isNaN with
  | true =>
    rw [canonical_of_isNaN hy] at h
    rw [← h] at hx
    exact absurd hx (by decide)
  | false => rwa [canonical_of_not_isNaN hy] at h

/-- Only a finite double has a numeral. -/
theorem isFinite_of_toJson {x : Double} (h : x.toJson ≠ .null) : x.isFinite = true := by
  cases hx : x.isFinite with
  | true => rfl
  | false =>
    have hnull : x.toJson = .null := by simp [toJson, hx]
    exact absurd hnull h

end Double

/-! ### Slots and frames -/

mutual

/-- The slot, with one NaN for all in it. -/
def Slot.canonical : Slot → Slot
  | .double x => .double x.canonical
  | .frame f => .frame f.canonical
  | s => s

/-- The frame, with one NaN for all in it. -/
def Frame.canonical : Frame → Frame
  | .empty => .empty
  | .cons name slot rest => .cons name slot.canonical rest.canonical

end

namespace Slot

theorem isLeaf_canonical (s : Slot) : s.canonical.isLeaf = s.isLeaf := by
  cases s with
  | frame f => cases f <;> rfl
  | _ => rfl

theorem inner_canonical (s : Slot) : s.canonical.inner = s.inner.canonical := by
  cases s <;> rfl

end Slot

namespace Frame

theorem find_canonical (name : String) (f : Frame) :
    f.canonical.find name = (f.find name).map Slot.canonical := by
  cases f with
  | empty => rfl
  | cons n s rest =>
    have ih := find_canonical name rest
    by_cases h : n = name
    · simp [Frame.canonical, find, h]
    · simp [Frame.canonical, find, h, ih]

/-- The leaves stay where they are. -/
theorem leafAt_canonical (ns : List String) (f : Frame) :
    f.canonical.leafAt ns = (f.leafAt ns).map Slot.canonical := by
  induction ns generalizing f with
  | nil => simp
  | cons n ks ih =>
    rw [leafAt_cons_eq, leafAt_cons_eq, find_canonical]
    cases f.find n with
    | none => rfl
    | some s =>
      show s.canonical.leafAt ks = (s.leafAt ks).map Slot.canonical
      cases ks with
      | nil =>
        rw [Slot.leafAt, Slot.leafAt, Slot.isLeaf_canonical]
        cases s.isLeaf <;> rfl
      | cons k ks =>
        show s.canonical.inner.leafAt (k :: ks) = (s.inner.leafAt (k :: ks)).map Slot.canonical
        rw [Slot.inner_canonical, ih]

mutual

theorem tidy_canonical_slot (s : Slot) : s.canonical.Tidy ↔ s.Tidy := by
  match s with
  | .frame f => exact tidy_canonical f
  | .int64 _ | .double _ | .numeric _ | .string _ | .guid _ | .time _ => exact Iff.rfl

/-- So do the names. -/
theorem tidy_canonical (f : Frame) : f.canonical.Tidy ↔ f.Tidy := by
  match f with
  | .empty => exact Iff.rfl
  | .cons n s rest =>
    have hnames : (∀ m t, rest.canonical.find m = some t → n < m) ↔
        ∀ m t, rest.find m = some t → n < m := by
      simp only [find_canonical, Option.map_eq_some_iff]
      constructor
      · intro h m t ht
        exact h m t.canonical ⟨t, ht, rfl⟩
      · rintro h m _ ⟨t, ht, rfl⟩
        exact h m t ht
    simp only [Frame.canonical, Frame.Tidy, tidy_canonical_slot s, hnames, tidy_canonical rest]

end

end Frame

/-! ### Leaves read back -/

namespace Slot

/-- A leaf is read as a leaf, if at all. -/
theorem isLeaf_of_parse_text {s t : Slot} (hs : s.isLeaf = true) (h : parse s.text = .ok t) :
    t.isLeaf = true := by
  have hread : s.reread 126 = some t := (ofJson?_succ 126 s).symm.trans (parse_text_eq_ok.mp h)
  cases s with
  | frame f =>
    cases f with
    | empty =>
      cases h.symm.trans parse_text_empty
      rfl
    | cons => cases hs
  | int64 | double | numeric | string | guid | time =>
    rw [reread] at hread
    obtain ⟨v, _, rfl⟩ := Option.map_eq_some_iff.mp hread
    rfl

/-- A leaf that is read back up to NaNs is read back: inside a table a NaN has no
    text that can be read. -/
theorem eq_of_parse_text_canonical {s t : Slot} (hs : s.isLeaf = true)
    (h : parse s.text = .ok t) (heq : t.canonical = s.canonical) : t = s := by
  have hread : s.reread 126 = some t := (ofJson?_succ 126 s).symm.trans (parse_text_eq_ok.mp h)
  cases s with
  | frame f =>
    cases f with
    | empty => exact Except.ok.inj (h.symm.trans parse_text_empty)
    | cons => cases hs
  | double x =>
    rw [reread] at hread
    obtain ⟨y, hy, rfl⟩ := Option.map_eq_some_iff.mp hread
    have hx : x.isFinite = true := by
      refine Double.isFinite_of_toJson ?_
      intro hnull
      rw [hnull] at hy
      cases hy
    rw [Double.eq_of_canonical_eq hx (Slot.double.inj heq)]
  | int64 | numeric | string | guid | time =>
    rw [reread] at hread
    obtain ⟨v, _, rfl⟩ := Option.map_eq_some_iff.mp hread
    exact heq

end Slot

end EntityBook
