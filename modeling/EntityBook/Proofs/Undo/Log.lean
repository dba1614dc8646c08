import EntityBook.Proofs.Undo.Calls
import Mathlib.Data.String.Basic

/-! # The undo log

  What appending an operation makes of the log, and what the log knows of a
  parameter: the paths that its applied operations name, and the latest value
  that they saw at a path.
-/

namespace EntityBook

variable {P : PayloadFamily}

namespace UndoLog

/-! ### Paths in order -/

@[simp] theorem mem_insertPath {p path : String} {ps : List String} :
    p ∈ insertPath path ps ↔ p = path ∨ p ∈ ps := by
  induction ps with
  | nil => simp [insertPath]
  | cons q rest ih =>
    unfold insertPath
    split
    · next heq =>
      subst heq
      simp
    · split
      · exact List.mem_cons
      · rw [List.mem_cons, List.mem_cons, ih]
        exact or_left_comm

theorem sorted_insertPath (path : String) {ps : List String} (h : ps.Pairwise (· < ·)) :
    (insertPath path ps).Pairwise (· < ·) := by
  induction ps with
  | nil => exact List.pairwise_singleton _ _
  | cons q rest ih =>
    obtain ⟨hq, hrest⟩ := List.pairwise_cons.mp h
    unfold insertPath
    split
    · exact h
    · next hne =>
      split
      · next hlt =>
        refine List.pairwise_cons.mpr ⟨?_, h⟩
        intro p hp
        rcases List.mem_cons.mp hp with rfl | hp
        · exact hlt
        · exact lt_trans hlt (hq p hp)
      · next hnot =>
        refine List.pairwise_cons.mpr ⟨?_, ih hrest⟩
        intro p hp
        rcases mem_insertPath.mp hp with rfl | hp
        · rcases lt_trichotomy q p with hlt | heq | hlt
          · exact hlt
          · exact absurd heq hne
          · exact absurd hlt hnot
        · exact hq p hp

/-- Paths in order, each once. -/
def sortPaths (ps : List String) : List String :=
  ps.foldl (fun ps path => insertPath path ps) []

theorem mem_foldl_insertPath {p : String} {ps qs : List String} :
    p ∈ ps.foldl (fun ps path => insertPath path ps) qs ↔ p ∈ ps ∨ p ∈ qs := by
  induction ps generalizing qs with
  | nil => simp
  | cons q rest ih =>
    rw [List.foldl_cons, ih, mem_insertPath, List.mem_cons]
    constructor
    · intro h
      rcases h with h | h | h
      · exact Or.inl (Or.inr h)
      · exact Or.inl (Or.inl h)
      · exact Or.inr h
    · intro h
      rcases h with (h | h) | h
      · exact Or.inr (Or.inl h)
      · exact Or.inl h
      · exact Or.inr (Or.inr h)

theorem mem_sortPaths {p : String} {ps : List String} : p ∈ sortPaths ps ↔ p ∈ ps := by
  unfold sortPaths
  rw [mem_foldl_insertPath]
  simp

theorem sorted_sortPaths (ps : List String) : (sortPaths ps).Pairwise (· < ·) := by
  have hfold (qs : List String) (h : qs.Pairwise (· < ·)) :
      (ps.foldl (fun ps path => insertPath path ps) qs).Pairwise (· < ·) := by
    induction ps generalizing qs with
    | nil => exact h
    | cons p rest ih => exact ih _ (sorted_insertPath p h)
  exact hfold [] List.Pairwise.nil

/-! ### What the log knows -/

theorem mem_pathsIn {entries : List (UndoEntry P)} {e : Entity} {name path : String} :
    path ∈ pathsIn entries e name ↔
      ∃ c, UndoEntry.changed c ∈ entries ∧ c.entity = e ∧ c.param.name = name ∧
        c.path = some path := by
  unfold pathsIn
  rw [List.mem_filterMap]
  constructor
  · intro h
    obtain ⟨u, hu, hpath⟩ := h
    obtain ⟨hm, ht⟩ := List.mem_filter.mp hu
    cases u with
    | created _ | deleted _ => cases ht
    | changed c =>
      have ht : c.entity = e ∧ c.param.name = name := by simpa [UndoEntry.targets] using ht
      exact ⟨c, hm, ht.1, ht.2, hpath⟩
  · intro h
    obtain ⟨c, hm, he, hn, hpath⟩ := h
    exact ⟨_, List.mem_filter.mpr ⟨hm, by simp [UndoEntry.targets, he, hn]⟩, hpath⟩

/-- A path at which something was seen is known. -/
theorem mem_knownPaths_of_lastKnown {l : UndoLog P} {e : Entity} {name path : String} {c : Capture}
    (h : l.lastKnown e name (some path) = some c) : path ∈ l.knownPaths e name := by
  unfold lastKnown at h
  dsimp only at h
  split at h
  · next d hfind =>
    have hm := List.mem_of_find?_eq_some hfind
    have ht := List.find?_some hfind
    obtain ⟨ht, hpath⟩ := Bool.and_eq_true_iff.mp ht
    have ht : d.entity = e ∧ d.param.name = name := by simpa [UndoEntry.targets] using ht
    have hpath : d.path = some path := by simpa [UndoEntry.change?] using hpath
    exact mem_pathsIn.mpr ⟨d, List.mem_reverse.mp hm, ht.1, ht.2, hpath⟩
  · cases h

theorem lastKnown_ne_pending (l : UndoLog P) (e : Entity) (name : String) (path : Option String) :
    l.lastKnown e name path ≠ some .pending := by
  unfold lastKnown
  dsimp only
  split
  · split
    · intro h
      cases h
    · next hne =>
      intro h
      exact hne (Option.some.inj h)
  · intro h
    cases h

/-! ### Appending -/

theorem past_push (l : UndoLog P) (op : UndoOperation P) (limit : Nat) :
    (l.push op limit).past = (l.push op limit).operations := List.take_length

theorem mem_past_push {l : UndoLog P} {op op' : UndoOperation P} {limit : Nat}
    (h : op' ∈ (l.push op limit).past) : op' ∈ l.past ∨ op' = op := by
  rw [past_push] at h
  have h : op' ∈ l.past ++ [op] := List.mem_of_mem_drop h
  rcases List.mem_append.mp h with h | h
  · exact Or.inl h
  · exact Or.inr (List.mem_singleton.mp h)

/-- A log that keeps anything keeps what was appended last. -/
theorem push_eq_concat (l : UndoLog P) (op : UndoOperation P) {limit : Nat} (h : 0 < limit) :
    ∃ ops, (l.push op limit).operations = ops ++ [op] ∧
      (l.push op limit).cursor = ops.length + 1 := by
  unfold push
  dsimp only
  have hle : (l.past ++ [op]).length - limit ≤ l.past.length := by
    rw [List.length_append, List.length_singleton]
    omega
  refine ⟨l.past.drop ((l.past ++ [op]).length - limit), ?_, ?_⟩
  · exact List.drop_append_of_le_length hle
  · rw [List.drop_append_of_le_length hle, List.length_append]
    rfl

theorem lastApplied?_push (l : UndoLog P) (op : UndoOperation P) {limit : Nat} (h : 0 < limit) :
    (l.push op limit).lastApplied? = some op := by
  obtain ⟨ops, hops, hcursor⟩ := push_eq_concat l op h
  unfold lastApplied?
  rw [hcursor, hops]
  simp

/-- A log that keeps nothing has nothing to take back. -/
theorem lastApplied?_push_zero (l : UndoLog P) (op : UndoOperation P) :
    (l.push op 0).lastApplied? = none := by
  have hnil : (l.push op 0).operations = [] := List.drop_length
  have hcursor : (l.push op 0).cursor = 0 := congrArg List.length hnil
  unfold lastApplied?
  rw [hcursor]

end UndoLog

namespace Book

/-! ### Books that differ in their logs -/

/-- A book with another log. -/
def withLog (b : Book P) (l : UndoLog P) : Book P := { b with undo := l }

@[simp] theorem get?_withLog (b : Book P) (l : UndoLog P) (e : Entity) :
    (b.withLog l).get? e = b.get? e := rfl

@[simp] theorem undo_withLog (b : Book P) (l : UndoLog P) : (b.withLog l).undo = l := rfl

theorem SameSetup.withLog (b : Book P) (l : UndoLog P) : b.SameSetup (b.withLog l) :=
  ⟨rfl, rfl, rfl, rfl⟩

theorem WellFormed.withLog {b : Book P} (h : b.WellFormed) (l : UndoLog P) :
    (b.withLog l).WellFormed := h.of_eq rfl rfl rfl rfl

/-! ### Closing an operation -/

/-- The log that a committed operation leaves. -/
def committedLog (l : UndoLog P) (config : Config) (o : OpenOperation P)
    (entries : List (UndoEntry P)) : UndoLog P :=
  let l := { l with recording := none }
  let l := if o.baseline.isEmpty then l
    else l.push ⟨config.baselineLabel, o.baseline⟩ config.undoLimit
  l.push ⟨o.label, entries⟩ config.undoLimit

/-- The operation is the last in it, and no other one is open. -/
theorem exists_committedLog_eq_push (l : UndoLog P) (config : Config) (o : OpenOperation P)
    (entries : List (UndoEntry P)) :
    ∃ l' : UndoLog P, l'.recording = none ∧
      committedLog l config o entries = l'.push ⟨o.label, entries⟩ config.undoLimit := by
  unfold committedLog
  dsimp only
  split
  · exact ⟨_, rfl, rfl⟩
  · exact ⟨_, rfl, rfl⟩

/-- Ending an operation in which nothing was recorded. -/
theorem endOperation_of_nil {b : Book P} {o : OpenOperation P} (ho : b.undo.recording = some o)
    (hnil : b.addNewSlots o.entries o.watched = []) :
    b.endOperation = (false, b.setRecording none) := by
  unfold endOperation
  rw [ho]
  dsimp only
  rw [hnil]
  rfl

/-- Ending any other operation. -/
theorem endOperation_of_ne_nil {b : Book P} {o : OpenOperation P} (ho : b.undo.recording = some o)
    (hne : b.addNewSlots o.entries o.watched ≠ []) :
    b.endOperation = (true, b.withLog (committedLog b.undo b.config o
      ((b.addNewSlots o.entries o.watched).map b.close))) := by
  have hfull : ((b.addNewSlots o.entries o.watched).map b.close).isEmpty = false := by
    cases hcs : b.addNewSlots o.entries o.watched with
    | nil => exact absurd hcs hne
    | cons u rest => rfl
  unfold endOperation
  rw [ho]
  simp only [hfull]
  rfl

/-- An operation with entries and without watched side-tables is committed, and
    appended to the log last. -/
theorem exists_push_of_entries {b : Book P} {o : OpenOperation P}
    (ho : b.undo.recording = some o) (hw : o.watched = []) (hne : o.entries ≠ []) :
    ∃ l : UndoLog P, b.endOperation =
      (true, b.withLog (l.push ⟨o.label, o.entries.map b.close⟩ b.config.undoLimit)) := by
  have hslots : b.addNewSlots o.entries o.watched = o.entries := by
    rw [hw]
    rfl
  rw [endOperation_of_ne_nil ho (by rw [hslots]; exact hne), hslots]
  exact ⟨_, rfl⟩

theorem exists_push_of_committed {b : Book P} {o : OpenOperation P}
    (ho : b.undo.recording = some o) (hw : o.watched = []) (hc : b.endOperation.1 = true) :
    ∃ l : UndoLog P, b.endOperation.2 =
      b.withLog (l.push ⟨o.label, o.entries.map b.close⟩ b.config.undoLimit) := by
  by_cases hnil : o.entries = []
  · have hnone : b.addNewSlots o.entries o.watched = [] := by
      rw [hw]
      exact hnil
    rw [endOperation_of_nil ho hnone] at hc
    cases hc
  · obtain ⟨l, hl⟩ := exists_push_of_entries ho hw hnil
    exact ⟨l, congrArg Prod.snd hl⟩

/-- The operations that a committed operation leaves in the log. -/
theorem mem_past_committedLog {l : UndoLog P} {config : Config} {o : OpenOperation P}
    {entries : List (UndoEntry P)} {op : UndoOperation P}
    (h : op ∈ (committedLog l config o entries).past) :
    op ∈ l.past ∨ op.entries = o.baseline ∨ op.entries = entries := by
  unfold committedLog at h
  dsimp only at h
  rcases UndoLog.mem_past_push h with h | rfl
  · split at h
    · exact Or.inl h
    · rcases UndoLog.mem_past_push h with h | rfl
      · exact Or.inl h
      · exact Or.inr (Or.inl rfl)
  · exact Or.inr (Or.inr rfl)

/-! ### Undo and redo of what was appended last -/

section Newest

variable {b b' : Book P} {l : UndoLog P} {op : UndoOperation P} {limit : Nat}

theorem undoLast_of_push (hlog : b.undo = l.push op limit) (h : 0 < limit) :
    b.undoLast = (true, ((b.setRecording none).setCursor (b.undo.cursor - 1)).replay
      op.entries .undo) := by
  refine undoLast_of_some ?_
  rw [hlog]
  exact l.lastApplied?_push op h

/-- Undo has moved the cursor right before the operation. -/
theorem redoNext_of_push (hlog : b.undo = l.push op limit) (h : 0 < limit)
    (hundone : b'.undo = ((b.setRecording none).setCursor (b.undo.cursor - 1)).undo) :
    b'.redoNext = (true, ((b'.setRecording none).replay op.entries .redo).setCursor
      (((b'.setRecording none).replay op.entries .redo).undo.cursor + 1)) := by
  obtain ⟨ops, hops, hcursor⟩ := l.push_eq_concat op h
  rw [← hlog] at hops hcursor
  refine redoNext_of_some ?_
  rw [hundone]
  show b.undo.operations[b.undo.cursor - 1]? = some op
  rw [hops, hcursor, Nat.add_sub_cancel]
  simp

/-- Undo of what was appended last, and redo after it, replay its entries, each in a
    book that differs from the one before only in its log. -/
theorem undo_redo_of_push {c : Book P} (hc : c = b.withLog (l.push op limit)) (h : 0 < limit)
    (keeps : ∀ u, ((b.withLog u).replay op.entries .undo).undo = u) :
    ∃ u u' u'', c.undoLast = (true, (b.withLog u).replay op.entries .undo) ∧
      c.undoLast.2.redoNext =
        (true, ((c.undoLast.2.withLog u').replay op.entries .redo).withLog u'') := by
  subst hc
  have hundone := undoLast_of_push (b := b.withLog (l.push op limit)) rfl h
  have hmoved := (congrArg (fun r => r.2.undo) hundone).trans (keeps _)
  have hredone := redoNext_of_push (b := b.withLog (l.push op limit)) rfl h hmoved
  exact ⟨_, _, _, hundone, hredone⟩

end Newest

end Book

end EntityBook
