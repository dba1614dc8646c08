import EntityBook.Proofs.Undo.Log
import Mathlib.Data.List.DropRight

/-! # The undo log as two stacks

  The cursor splits the operations of a log in those that are applied and those that
  were undone. Committing, undoing and redoing move operations between these two stacks
  as on a zipper whose first stack keeps a bounded number of operations. `Sound` is what
  holds of a log besides: the cursor and the number of operations are in bounds, and
  nothing that the log keeps still waits to be seen.
-/

namespace EntityBook

variable {P : PayloadFamily}

/-! ### Two stacks -/

/-- The operations that are applied, oldest first, and those that were undone, the next
    to redo first. -/
structure Zipper (P : PayloadFamily) where
  past : List (UndoOperation P) := []
  future : List (UndoOperation P) := []

/-- What can happen to the two stacks. -/
inductive Shift (P : PayloadFamily) where
  /-- Nothing. -/
  | stay
  /-- Operations are committed in this order. -/
  | commit (operations : List (UndoOperation P))
  /-- The last applied operation is taken back. -/
  | undo
  /-- The next undone operation is applied again. -/
  | redo
  /-- All operations are forgotten. -/
  | clear

namespace Zipper

/-- The stacks afterwards, if at most `limit` operations are kept. -/
def shift (limit : Nat) (z : Zipper P) : Shift P → Zipper P
  | .stay => z
  | .commit operations => ⟨(z.past ++ operations).rtake limit, []⟩
  | .undo =>
    match z.past.getLast? with
    | some op => ⟨z.past.dropLast, op :: z.future⟩
    | none => z
  | .redo =>
    match z.future with
    | op :: rest => ⟨z.past ++ [op], rest⟩
    | [] => z
  | .clear => {}

variable {z : Zipper P} {op : UndoOperation P} {limit : Nat}

theorem shift_undo_of_some (h : z.past.getLast? = some op) :
    z.shift limit .undo = ⟨z.past.dropLast, op :: z.future⟩ := by
  simp only [shift, h]

theorem shift_undo_of_nil (h : z.past = []) : z.shift limit .undo = z := by
  simp only [shift, h, List.getLast?_nil]

theorem shift_redo_of_cons {rest : List (UndoOperation P)} (h : z.future = op :: rest) :
    z.shift limit .redo = ⟨z.past ++ [op], rest⟩ := by
  simp only [shift, h]

theorem shift_redo_of_nil (h : z.future = []) : z.shift limit .redo = z := by
  simp only [shift, h]

end Zipper

/-- Keeping the newest on the way is keeping the newest at the end. -/
theorem rtake_rtake_append {α : Type} (l l' : List α) (n : Nat) :
    (l.rtake n ++ l').rtake n = (l ++ l').rtake n := by
  unfold List.rtake
  have hle : l.length - n ≤ l.length := Nat.sub_le ..
  rw [← List.drop_append_of_le_length hle, List.drop_drop]
  congr 1
  simp only [List.length_drop, List.length_append]
  omega

/-! ### What the log keeps -/

/-- Both values of an entry were seen. -/
def UndoEntry.Seen (u : UndoEntry P) : Prop := u.before ≠ .pending ∧ u.after ≠ .pending

/-- The operations that an open one is committed as: its baseline, if there is one, and
    itself. -/
def OpenOperation.operations (o : OpenOperation P) (baselineLabel : String)
    (entries : List (UndoEntry P)) : List (UndoOperation P) :=
  (if o.baseline.isEmpty then [] else [⟨baselineLabel, o.baseline⟩]) ++ [⟨o.label, entries⟩]

/-- What is recorded was seen before the change, and the baseline throughout. -/
structure OpenOperation.Sound (o : OpenOperation P) : Prop where
  entries : ∀ u ∈ o.entries, u.before ≠ .pending
  baseline : ∀ u ∈ o.baseline, u.Seen

namespace UndoLog

/-- The two stacks of a log. -/
def zipper (l : UndoLog P) : Zipper P := ⟨l.past, l.future⟩

/-- What holds of every log of a book that keeps at most `limit` operations. -/
structure Sound (limit : Nat) (l : UndoLog P) : Prop where
  cursor_le : l.cursor ≤ l.operations.length
  length_le : l.operations.length ≤ limit
  seen : ∀ op ∈ l.operations, ∀ u ∈ op.entries, u.Seen
  recording : ∀ o, l.recording = some o → o.Sound

/-! ### Looking at the stacks -/

section Look

variable {l : UndoLog P}

theorem length_past (h : l.cursor ≤ l.operations.length) : l.past.length = l.cursor := by
  unfold past
  rw [List.length_take]
  omega

theorem lastApplied?_eq (h : l.cursor ≤ l.operations.length) :
    l.lastApplied? = l.past.getLast? := by
  unfold lastApplied? past
  cases hc : l.cursor with
  | zero => simp
  | succ n =>
    have hn : n < l.operations.length := by omega
    show l.operations[n]? = _
    rw [List.getLast?_take, if_neg (by omega)]
    simp [hn]

theorem nextUndone?_eq (l : UndoLog P) : l.nextUndone? = l.future.head? := by
  unfold nextUndone? future
  rw [List.head?_drop]

theorem canUndo_iff (h : l.cursor ≤ l.operations.length) : l.canUndo = true ↔ l.past ≠ [] := by
  have hlength := length_past h
  unfold canUndo
  simp only [Bool.and_eq_true, decide_eq_true_eq, Bool.not_eq_true', List.isEmpty_eq_false_iff]
  rw [← List.length_pos_iff, ← List.length_pos_iff, hlength]
  omega

theorem canRedo_iff (l : UndoLog P) : l.canRedo = true ↔ l.future ≠ [] := by
  unfold canRedo future
  rw [decide_eq_true_eq, ← List.length_pos_iff, List.length_drop]
  omega

end Look

/-! ### Moving the cursor -/

/-- Taking the last applied operation back moves it to the other stack. -/
theorem zipper_back {l : UndoLog P} (h : l.cursor ≤ l.operations.length) {op : UndoOperation P}
    (hop : l.lastApplied? = some op) (limit : Nat) :
    zipper { l with cursor := l.cursor - 1 } = l.zipper.shift limit .undo := by
  have hlast : l.past.getLast? = some op := (lastApplied?_eq h).symm.trans hop
  have hpos : 0 < l.cursor := by
    rw [← length_past h]
    exact List.length_pos_iff.mpr fun hnil => by simp [hnil] at hlast
  have hget : l.operations[l.cursor - 1]? = some op := by
    unfold lastApplied? at hop
    split at hop
    · cases hop
    · next n hn =>
      rw [hn]
      exact hop
  rw [Zipper.shift_undo_of_some hlast]
  have hpast : l.operations.take (l.cursor - 1) = l.past.dropLast := by
    rw [List.dropLast_eq_take, length_past h]
    unfold past
    rw [List.take_take]
    congr 1
    omega
  have hfuture : l.operations.drop (l.cursor - 1) = op :: l.future := by
    obtain ⟨hlt, heq⟩ := List.getElem?_eq_some_iff.mp hget
    rw [List.drop_eq_getElem_cons hlt, heq]
    unfold future
    congr 2
    omega
  exact congrArg₂ Zipper.mk hpast hfuture

/-- Applying the next undone operation moves it back. -/
theorem zipper_forth {l : UndoLog P} {op : UndoOperation P} (hop : l.nextUndone? = some op)
    (limit : Nat) :
    zipper { l with cursor := l.cursor + 1 } = l.zipper.shift limit .redo := by
  obtain ⟨hlt, heq⟩ := List.getElem?_eq_some_iff.mp hop
  have hfuture : l.future = op :: l.operations.drop (l.cursor + 1) := by
    unfold future
    rw [List.drop_eq_getElem_cons hlt, heq]
  have hpast : l.operations.take (l.cursor + 1) = l.past ++ [op] := by
    unfold past
    rw [List.take_add_one, List.getElem?_eq_getElem hlt, heq]
    rfl
  rw [Zipper.shift_redo_of_cons hfuture]
  exact congrArg (fun ps => Zipper.mk ps (l.operations.drop (l.cursor + 1))) hpast

/-! ### Committing -/

theorem zipper_push (l : UndoLog P) (op : UndoOperation P) (limit : Nat) :
    (l.push op limit).zipper = l.zipper.shift limit (.commit [op]) := by
  have hfuture : (l.push op limit).future = [] := List.drop_length
  show Zipper.mk (l.push op limit).past (l.push op limit).future = _
  rw [past_push, hfuture]
  rfl

theorem length_push_le (l : UndoLog P) (op : UndoOperation P) (limit : Nat) :
    (l.push op limit).operations.length ≤ limit := by
  show ((l.past ++ [op]).drop ((l.past ++ [op]).length - limit)).length ≤ limit
  rw [List.length_drop]
  omega

/-- Committing an operation and then others is committing all of them. -/
theorem shift_commit_commit (limit : Nat) (z : Zipper P) (ops ops' : List (UndoOperation P)) :
    (z.shift limit (.commit ops)).shift limit (.commit ops') =
      z.shift limit (.commit (ops ++ ops')) := by
  show Zipper.mk (((z.past ++ ops).rtake limit ++ ops').rtake limit) [] = _
  rw [rtake_rtake_append, List.append_assoc]
  rfl

theorem Sound.push {l : UndoLog P} {limit : Nat} (h : l.Sound limit) {op : UndoOperation P}
    (hop : ∀ u ∈ op.entries, u.Seen) : (l.push op limit).Sound limit where
  cursor_le := Nat.le_refl _
  length_le := length_push_le l op limit
  seen op' hm := by
    rw [← past_push] at hm
    rcases mem_past_push hm with hm | rfl
    · exact h.seen op' (List.mem_of_mem_take hm)
    · exact hop
  recording := h.recording

end UndoLog

namespace Book

/-- An operation is committed behind its baseline. -/
theorem zipper_committedLog (l : UndoLog P) (config : Config) (o : OpenOperation P)
    (entries : List (UndoEntry P)) :
    (committedLog l config o entries).zipper =
      l.zipper.shift config.undoLimit (.commit (o.operations config.baselineLabel entries)) := by
  unfold committedLog OpenOperation.operations
  dsimp only
  rw [UndoLog.zipper_push]
  split
  · rfl
  · rw [UndoLog.zipper_push, UndoLog.shift_commit_commit]
    rfl

theorem sound_committedLog {l : UndoLog P} {config : Config} {o : OpenOperation P}
    {entries : List (UndoEntry P)} (h : l.Sound config.undoLimit) (ho : o.Sound)
    (hentries : ∀ u ∈ entries, u.Seen) :
    (committedLog l config o entries).Sound config.undoLimit := by
  have hclosed : UndoLog.Sound config.undoLimit { l with recording := none } :=
    ⟨h.cursor_le, h.length_le, h.seen, fun o ho => nomatch ho⟩
  unfold committedLog
  dsimp only
  split
  · exact hclosed.push hentries
  · exact (hclosed.push ho.baseline).push hentries

end Book

end EntityBook
