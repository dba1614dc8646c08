import EntityBook.SideTable.Frame
import Mathlib.Data.List.Basic

/-! # Paths of slots

  A path is a list of names with separators between them. Names that are not
  empty and hold no separator can be read off the path again, so that such a
  list and its path say the same.
-/

namespace EntityBook.Frame

/-- A name that can stand in a path. -/
def ProperName (name : String) : Prop := name ≠ "" ∧ '/' ∉ name.toList

instance (name : String) : Decidable (ProperName name) :=
  inferInstanceAs (Decidable (_ ∧ _))

/-- The path of a list of names. -/
def pathOf (ns : List String) : String := ns.foldl joinPath ""

/-- What follows the first name in the text of a path. -/
def tailChars (ns : List String) : List Char := ns.flatMap fun n => '/' :: n.toList

theorem isEmpty_eq_false {s : String} (h : s ≠ "") : s.isEmpty = false := by
  cases he : s.isEmpty with
  | false => rfl
  | true => exact absurd (String.isEmpty_iff.mp he) h

theorem toList_foldl_joinPath {base : String} (h : base ≠ "") (ns : List String) :
    (ns.foldl joinPath base).toList = base.toList ++ tailChars ns := by
  induction ns generalizing base with
  | nil => simp [tailChars]
  | cons n rest ih =>
    have hjoin : joinPath base n = base ++ "/" ++ n := by
      simp [joinPath, isEmpty_eq_false h]
    have hne : base ++ "/" ++ n ≠ "" := by
      intro he
      have := congrArg String.toList he
      simp at this
    rw [List.foldl_cons, hjoin, ih hne]
    simp [tailChars, String.toList_append]

/-- The text of a path that starts with a proper name. -/
theorem toList_pathOf {n : String} (h : n ≠ "") (ns : List String) :
    (pathOf (n :: ns)).toList = n.toList ++ tailChars ns := by
  have hjoin : joinPath "" n = n := by simp [joinPath]
  unfold pathOf
  rw [List.foldl_cons, hjoin]
  exact toList_foldl_joinPath h ns

theorem splitOn_path {n : String} (hn : '/' ∉ n.toList) {ns : List String}
    (h : ∀ m ∈ ns, '/' ∉ m.toList) :
    (n.toList ++ tailChars ns).splitOn '/' = (n :: ns).map String.toList := by
  induction ns generalizing n with
  | nil =>
    have hnil : tailChars [] = [] := rfl
    rw [hnil, List.append_nil]
    exact List.splitOn_eq_singleton hn
  | cons m rest ih =>
    have htail : tailChars (m :: rest) = '/' :: (m.toList ++ tailChars rest) := by
      simp [tailChars]
    rw [htail, List.splitOn_append_cons_self_of_not_mem hn, ih (h m List.mem_cons_self)]
    · rfl
    · intro k hk
      exact h k (List.mem_cons_of_mem m hk)

theorem filter_nonempty_map_toList {ns : List String} (h : ∀ n ∈ ns, n ≠ "") :
    (ns.map String.toList).filter (fun cs => !cs.isEmpty) = ns.map String.toList := by
  refine List.filter_eq_self.mpr ?_
  intro cs hcs
  obtain ⟨n, hn, rfl⟩ := List.mem_map.mp hcs
  have hne : n.toList ≠ [] := by
    intro he
    exact h n hn (String.toList_eq_nil_iff.mp he)
  cases hc : n.toList with
  | nil => exact absurd hc hne
  | cons c cs => rfl

/-- The names of a path that was made of proper names. -/
theorem names_pathOf {ns : List String} (h : ∀ n ∈ ns, ProperName n) : names (pathOf ns) = ns := by
  cases ns with
  | nil => decide
  | cons n rest =>
    have hn := h n List.mem_cons_self
    have hrest : ∀ m ∈ rest, '/' ∉ m.toList := by
      intro m hm
      exact (h m (List.mem_cons_of_mem n hm)).2
    unfold names
    rw [toList_pathOf hn.1, splitOn_path hn.2 hrest,
      filter_nonempty_map_toList fun m hm => (h m hm).1,
      List.map_map]
    have hid : (String.ofList ∘ String.toList) = (id : String → String) := by
      funext s
      exact String.ofList_toList
    rw [hid, List.map_id]

theorem not_mem_of_mem_splitOn {c : Char} {cs ds : List Char} (h : ds ∈ cs.splitOn c) :
    c ∉ ds := by
  induction cs generalizing ds with
  | nil =>
    rw [List.splitOn_nil, List.mem_singleton] at h
    rw [h]
    exact List.not_mem_nil
  | cons d rest ih =>
    rw [List.splitOn_cons_eq_if_modifyHead] at h
    split at h
    · rcases List.mem_cons.mp h with rfl | h
      · exact List.not_mem_nil
      · exact ih h
    -- The head is no separator, so it joins the first of the later parts.
    · next hd =>
      cases hs : rest.splitOn c with
      | nil =>
        rw [hs] at h
        cases h
      | cons e es =>
        rw [hs] at h
        rcases List.mem_cons.mp h with rfl | h
        · intro hm
          rcases List.mem_cons.mp hm with rfl | hm
          · simp at hd
          · exact ih (hs ▸ List.mem_cons_self) hm
        · exact ih (hs ▸ List.mem_cons_of_mem e h)

/-- The names of any path are proper. -/
theorem properName_of_mem_names {path n : String} (h : n ∈ names path) : ProperName n := by
  obtain ⟨cs, hcs, rfl⟩ := List.mem_map.mp h
  obtain ⟨hsplit, hne⟩ := List.mem_filter.mp hcs
  constructor
  · intro he
    have hnil : cs = [] := by
      rw [← String.toList_ofList (l := cs), he]
      rfl
    rw [hnil] at hne
    cases hne
  · rw [String.toList_ofList]
    exact not_mem_of_mem_splitOn hsplit

/-- Lists of proper names with the same path are the same. -/
theorem pathOf_inj {ns ms : List String} (hns : ∀ n ∈ ns, ProperName n)
    (hms : ∀ n ∈ ms, ProperName n) (h : pathOf ns = pathOf ms) : ns = ms := by
  rw [← names_pathOf hns, ← names_pathOf hms, h]

end EntityBook.Frame
