import EntityBook.OrderedMap
import EntityBook.Value.Entity
import Mathlib.Data.String.Basic

/-! # Sorted entries

  A map that is only changed by `insert` and `erase` keeps its keys increasing,
  so each key stands in one entry and the entries are what `find?` sees.
-/

namespace EntityBook

/-! ### The order of entities -/

theorem Guid.lt_def {a b : Guid} : a < b ↔ a.toNat < b.toNat := Iff.rfl

theorem Guid.toNat_inj {a b : Guid} (h : a.toNat = b.toNat) : a = b := by
  obtain ⟨a⟩ := a
  obtain ⟨b⟩ := b
  exact congrArg Guid.mk (BitVec.eq_of_toNat_eq h)

theorem Entity.lt_def {a b : Entity} :
    a < b ↔ a.typeTag < b.typeTag ∨ (a.typeTag = b.typeTag ∧ a.guid < b.guid) := Iff.rfl

/-- Entities are strictly and totally ordered. -/
instance : IsStrictTotalOrder Entity (· < ·) where
  irrefl a h := by
    rcases Entity.lt_def.mp h with h | ⟨_, h⟩
    · exact lt_irrefl _ h
    · exact Nat.lt_irrefl _ (Guid.lt_def.mp h)
  trans a b c hab hbc := by
    rcases Entity.lt_def.mp hab with hab | ⟨hab, gab⟩
    · rcases Entity.lt_def.mp hbc with hbc | ⟨hbc, _⟩
      · exact Or.inl (lt_trans hab hbc)
      · exact Or.inl (hbc ▸ hab)
    · rcases Entity.lt_def.mp hbc with hbc | ⟨hbc, gbc⟩
      · exact Or.inl (hab ▸ hbc)
      · exact Or.inr ⟨hab.trans hbc, Nat.lt_trans gab gbc⟩
  trichotomous a b hab hba := by
    have htag : a.typeTag = b.typeTag := by
      rcases lt_trichotomy a.typeTag b.typeTag with h | h | h
      · exact absurd (Or.inl h) hab
      · exact h
      · exact absurd (Or.inl h) hba
    have hguid : a.guid.toNat = b.guid.toNat := by
      rcases Nat.lt_trichotomy a.guid.toNat b.guid.toNat with h | h | h
      · exact absurd (Or.inr ⟨htag, h⟩) hab
      · exact h
      · exact absurd (Or.inr ⟨htag.symm, h⟩) hba
    obtain ⟨ta, ga⟩ := a
    obtain ⟨tb, gb⟩ := b
    cases htag
    cases Guid.toNat_inj hguid
    rfl

/-! ### Maps with increasing keys -/

namespace OrderedMap

variable {κ α : Type}

/-- The keys increase. -/
def Sorted [LT κ] (m : OrderedMap κ α) : Prop := m.entries.Pairwise fun x y => x.1 < y.1

theorem sorted_empty [LT κ] : (empty : OrderedMap κ α).Sorted := List.Pairwise.nil

variable [DecidableEq κ]

theorem sorted_erase [LT κ] {m : OrderedMap κ α} (h : m.Sorted) (k : κ) : (m.erase k).Sorted :=
  List.Pairwise.filter _ h

section Order

variable [LT κ] [DecidableLT κ]

theorem eq_or_mem_of_mem_insertIn {k : κ} {a : α} {x : κ × α} {l : List (κ × α)}
    (h : x ∈ insertIn k a l) : x = (k, a) ∨ x ∈ l := by
  induction l with
  | nil => exact Or.inl (by simpa [insertIn] using h)
  | cons e rest ih =>
    unfold insertIn at h
    split at h
    · rcases List.mem_cons.mp h with h | h
      · exact Or.inl h
      · exact Or.inr (List.mem_cons_of_mem _ h)
    · split at h
      · rcases List.mem_cons.mp h with h | h
        · exact Or.inl h
        · exact Or.inr h
      · rcases List.mem_cons.mp h with h | h
        · exact Or.inr (h ▸ List.mem_cons_self)
        · rcases ih h with h | h
          · exact Or.inl h
          · exact Or.inr (List.mem_cons_of_mem _ h)

variable [IsStrictTotalOrder κ (· < ·)]

theorem pairwise_insertIn (k : κ) (a : α) {l : List (κ × α)}
    (h : l.Pairwise fun x y => x.1 < y.1) : (insertIn k a l).Pairwise fun x y => x.1 < y.1 := by
  induction l with
  | nil => simp [insertIn]
  | cons e rest ih =>
    obtain ⟨he, hrest⟩ := List.pairwise_cons.mp h
    unfold insertIn
    split
    -- The same key: the value is replaced.
    · next hk => exact List.pairwise_cons.mpr ⟨fun x hx => hk ▸ he x hx, hrest⟩
    · next hk =>
      split
      · next hlt =>
        refine List.pairwise_cons.mpr ⟨fun x hx => ?_, h⟩
        rcases List.mem_cons.mp hx with hx | hx
        · exact hx ▸ hlt
        · exact trans_of (· < ·) hlt (he x hx)
      · next hlt =>
        refine List.pairwise_cons.mpr ⟨fun x hx => ?_, ih hrest⟩
        rcases eq_or_mem_of_mem_insertIn hx with hx | hx
        · rcases trichotomous_of (· < ·) e.1 k with h | h | h
          · exact hx ▸ h
          · exact absurd h hk
          · exact absurd h hlt
        · exact he x hx

theorem sorted_insert {m : OrderedMap κ α} (h : m.Sorted) (k : κ) (a : α) :
    (m.insert k a).Sorted := pairwise_insertIn k a h

end Order

/-! ### Entries and look-up -/

theorem mem_of_findIn {k : κ} {a : α} {l : List (κ × α)} (h : findIn k l = some a) :
    (k, a) ∈ l := by
  induction l with
  | nil => cases h
  | cons e rest ih =>
    unfold findIn at h
    split at h
    · next hk =>
      cases h
      exact hk ▸ List.mem_cons_self
    · exact List.mem_cons_of_mem _ (ih h)

theorem findIn_of_mem [LT κ] [IsStrictTotalOrder κ (· < ·)] {k : κ} {a : α} {l : List (κ × α)}
    (hs : l.Pairwise fun x y => x.1 < y.1) (h : (k, a) ∈ l) : findIn k l = some a := by
  induction l with
  | nil => cases h
  | cons e rest ih =>
    obtain ⟨he, hrest⟩ := List.pairwise_cons.mp hs
    unfold findIn
    rcases List.mem_cons.mp h with h | h
    · rw [if_pos (congrArg Prod.fst h).symm, ← h]
    · have hlt : e.1 < k := he (k, a) h
      have hne : e.1 ≠ k := fun hk => irrefl_of (· < ·) e.1 (hk ▸ hlt)
      rw [if_neg hne]
      exact ih hrest h

/-- The entries of a sorted map are what looking up sees. -/
theorem mem_entries_iff [LT κ] [IsStrictTotalOrder κ (· < ·)] {m : OrderedMap κ α}
    (hs : m.Sorted) {k : κ} {a : α} : (k, a) ∈ m.entries ↔ m.find? k = some a :=
  ⟨findIn_of_mem hs, mem_of_findIn⟩

omit [DecidableEq κ] in
theorem nodup_keys [LT κ] [IsStrictTotalOrder κ (· < ·)] {m : OrderedMap κ α} (hs : m.Sorted) :
    m.keys.Nodup := by
  refine List.pairwise_map.mpr (hs.imp ?_)
  intro x y hlt heq
  exact irrefl_of (· < ·) x.1 (heq ▸ hlt)

end OrderedMap

end EntityBook
