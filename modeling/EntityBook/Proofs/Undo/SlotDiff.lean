import EntityBook.Proofs.Undo.SlotHistory

/-! # Operations that announce a side-table and say no more

  A session that announces a side-table and never says that it is done leaves it to
  the end of the operation to find out what has changed: the table seen at first is
  compared with the one that is there then. Undo and redo go from one to the other,
  whatever the tables are and whatever was written in between.

  This needs a log that keeps the operation. Without one nothing is recorded, or the
  record is dropped at once.
-/

namespace EntityBook

variable {P : PayloadFamily}

namespace SlotEdit

theorem applyAll_append (xs ys : List SlotEdit) (f : Frame) :
    applyAll (xs ++ ys) f = applyAll ys (applyAll xs f) := List.foldl_append

end SlotEdit

namespace Instance

/-- Changes slots, one after the other. -/
def editSlots (i : Instance P) (xs : List SlotEdit) : Instance P :=
  xs.foldl (fun i x => i.withSlots (x.apply i.slots)) i

theorem slots_editSlots (i : Instance P) (xs : List SlotEdit) :
    (i.editSlots xs).slots = SlotEdit.applyAll xs i.slots := by
  induction xs generalizing i with
  | nil => rfl
  | cons x rest ih => exact ih (i.withSlots (x.apply i.slots))

theorem Rewrites.editSlots (i : Instance P) (xs : List SlotEdit) :
    i.Rewrites (i.editSlots xs) := by
  induction xs generalizing i with
  | nil => exact .refl i
  | cons x rest ih => exact (Rewrites.withSlots i (x.apply i.slots)).trans (ih _)

end Instance

namespace Book

/-- Edits an entity once for each group of changes to its slots. The changes of a group
    are made one after the other inside the edit. -/
def editTable (b : Book P) (e : Entity) (groups : List (List SlotEdit)) : Book P :=
  groups.foldl (fun b xs => (b.edit e fun i => ((), i.editSlots xs)).2) b

/-- An operation that announces a side-table, changes it, and ends; answers whether it
    was committed. -/
def announcedSession (b : Book P) (label : String) (e : Entity) (name : String)
    (groups : List (List SlotEdit)) : Bool × Book P :=
  (((b.startOperation label).recordBefore e name).2.editTable e groups).endOperation

variable {b : Book P} {e : Entity} {p : Param P} {f g : Frame}

/-! ### Edits of a table -/

theorem Revises.editTable (hb : b.WellFormed) (e : Entity) (groups : List (List SlotEdit)) :
    b.Revises (b.editTable e groups) := by
  induction groups generalizing b with
  | nil => exact .refl b
  | cons xs rest ih =>
    have hone : b.Revises (b.edit e fun i => ((), i.editSlots xs)).2 :=
      .edit hb fun i => .editSlots i xs
    exact hone.trans (ih (hone.wellFormed hb))

/-- What is written in between need not be proper or readable. -/
theorem table?_editTable (hb : b.WellFormed) (ht : b.table? e = some f)
    (groups : List (List SlotEdit)) :
    (b.editTable e groups).table? e = some (SlotEdit.applyAll groups.flatten f) := by
  induction groups generalizing b f with
  | nil => exact ht
  | cons xs rest ih =>
    obtain ⟨i, hi, rfl⟩ := Option.map_eq_some_iff.mp ht
    have hone : b.Revises (b.edit e fun i => ((), i.editSlots xs)).2 :=
      .edit hb fun i => .editSlots i xs
    obtain ⟨j, hj, hclean⟩ := get?_edit_self (f := fun i => ((), i.editSlots xs)) hi
      (.editSlots i.enter xs) (hb.fits e i hi).deleting
    have hslots : j.slots = SlotEdit.applyAll xs i.slots :=
      (Instance.slots_of_markClean hclean).trans (i.enter.slots_editSlots xs)
    have hnow : (b.edit e fun i => ((), i.editSlots xs)).2.table? e =
        some (SlotEdit.applyAll xs i.slots) :=
      (congrArg (Option.map Instance.slots) hj).trans (congrArg some hslots)
    rw [List.flatten_cons, SlotEdit.applyAll_append]
    exact ih (hone.wellFormed hb) hnow

/-! ### The comparison at the end -/

/-- What an operation has recorded of a table that it announced. -/
def announcement (label : String) (e : Entity) (p : Param P) (f : Frame)
    (baseline : List (UndoEntry P)) : OpenOperation P :=
  { label, watched := [(e, p)], baseline
    entries := (f.leaves.map fun x => (x.1, Capture.value x.2.text)).map
      (slotEntry e p fun _ => .pending) }

namespace HasTable

/-- The beginning of the session, whatever operation was open before it. -/
theorem announce (h : b.HasTable e p f) (label : String) :
    ∃ baseline, ((b.startOperation label).recordBefore e p.name).2 =
      b.setRecording (some (announcement label e p f baseline)) := by
  have hstart : b.startOperation label = b.setRecording (some { label }) := by
    unfold startOperation
    rw [if_pos h.enabled]
  have hopened : (b.setRecording (some { label })).HasTable e p f := h.withUndo _
  obtain ⟨baseline, _, hbefore⟩ := hopened.recordBefore label rfl
  rw [hstart]
  exact ⟨baseline, hbefore⟩

/-- The leaves seen at first and the ones that are new. -/
theorem addNewSlots_announcement (h : b.HasTable e p g) (label : String)
    (baseline : List (UndoEntry P)) :
    b.addNewSlots (announcement label e p f baseline).entries
        (announcement label e p f baseline).watched =
      (Frame.announced f g).map (slotEntry e p fun _ => .pending) := by
  have hold : (f.leaves.map fun x => (x.1, Capture.value x.2.text)).map (·.1) =
      f.leaves.map (·.1) := by
    rw [List.map_map]
    rfl
  unfold announcement addNewSlots addNewSlots
  rw [h.newSlots_eq, pathsIn_slotEntry, hold, ← List.map_append]
  rfl

/-- Each is compared with what is there now. -/
theorem close_pending (h : b.HasTable e p g) (seen : List (String × Capture)) :
    (seen.map (slotEntry e p fun _ => .pending)).map b.close =
      (seen.map (slotChange e p g)).map UndoEntry.changed := by
  rw [List.map_map, List.map_map]
  refine List.map_congr_left fun x _ => ?_
  show b.close (slotEntry e p (fun _ => .pending) x) = .changed (slotChange e p g x)
  unfold close slotEntry slotChange
  dsimp only
  rw [if_pos rfl, h.capture_eq]

/-- The session up to its end. -/
theorem announcedSession_eq (h : b.HasTable e p f) (label : String)
    {groups : List (List SlotEdit)} (hg : SlotEdit.applyAll groups.flatten f = g)
    (htidy : g.Tidy) (hread : g.Readable) :
    ∃ (b' : Book P) (baseline : List (UndoEntry P)),
      b.announcedSession label e p.name groups = b'.endOperation ∧ b'.HasTable e p g ∧
      b'.config = b.config ∧
      b'.undo = { b.undo with recording := some (announcement label e p f baseline) } := by
  obtain ⟨baseline, hannounced⟩ := h.announce label
  have hopen : (b.setRecording (some (announcement label e p f baseline))).HasTable e p f :=
    h.withUndo _
  have hrev := Revises.editTable hopen.wellFormed e groups
  have htable := table?_editTable hopen.wellFormed hopen.table groups
  rw [hg] at htable
  refine ⟨(b.setRecording (some (announcement label e p f baseline))).editTable e groups, baseline,
    ?_, hopen.of_setup (hrev.wellFormed hopen.wellFormed) (.of_revises hrev) htable htidy hread,
    hrev.config, hrev.undo⟩
  unfold announcedSession
  rw [hannounced]

/-- Two tables of which nothing can be said are both empty. -/
theorem eq_of_announced_nil (hf : f.Tidy) (hg : g.Tidy) (hnil : Frame.announced f g = []) :
    f = g := by
  have hleaves : f.leaves = [] := List.map_eq_nil_iff.mp (List.append_eq_nil_iff.mp hnil).1
  have hempty {t : Frame} (ht : t.Tidy) (hl : t.leaves = []) : t = .empty := by
    refine Frame.isEmpty_iff.mp ?_
    by_contra hne
    exact leaves_ne_nil ht (by simpa using hne) hl
  have hfe : f = .empty := hempty hf hleaves
  -- With nothing seen at first, every leaf of the table is new.
  have hgl : g.leaves = [] := by
    have hnew := List.map_eq_nil_iff.mp (List.append_eq_nil_iff.mp hnil).2
    rw [hleaves] at hnew
    simpa using hnew
  rw [hfe, hempty hg hgl]

end HasTable

/-- In a book that keeps what can be undone, an operation that only announces a table is
    taken back and made again exactly, however the table was changed; one that is not
    committed has changed nothing. -/
theorem announced_changes_revert (h : b.HasTable e p f) (hlimit : 0 < b.config.undoLimit)
    (label : String) {groups : List (List SlotEdit)}
    (hg : SlotEdit.applyAll groups.flatten f = g) (htidy : g.Tidy) (hread : g.Readable) :
    (b.announcedSession label e p.name groups).2.table? e = some g ∧
    ((b.announcedSession label e p.name groups).1 = true →
      b.Reverts (b.announcedSession label e p.name groups).2 e) ∧
    ((b.announcedSession label e p.name groups).1 = false → f = g) := by
  obtain ⟨b', baseline, hsession, htable, hconfig, hundo⟩ :=
    h.announcedSession_eq label hg htidy hread
  have hopen : b'.undo.recording = some (announcement label e p f baseline) := by rw [hundo]
  have hentries := htable.addNewSlots_announcement (f := f) label baseline
  rw [hsession]
  by_cases hnil : Frame.announced f g = []
  · have hend := endOperation_of_nil hopen (by rw [hentries, hnil]; rfl)
    rw [hend]
    refine ⟨(htable.withUndo _).table, fun hc => ?_, fun _ => ?_⟩
    · cases hc
    · exact HasTable.eq_of_announced_nil h.tidy htidy hnil
  · have hne : b'.addNewSlots (announcement label e p f baseline).entries
        (announcement label e p f baseline).watched ≠ [] := by
      rw [hentries]
      exact fun hmap => hnil (List.map_eq_nil_iff.mp hmap)
    have hend := endOperation_of_ne_nil hopen hne
    rw [hentries, htable.close_pending] at hend
    rw [hend]
    have hlast := htable.withUndo (committedLog b'.undo b'.config (announcement label e p f baseline)
      (((Frame.announced f g).map (slotChange e p g)).map UndoEntry.changed))
    obtain ⟨hundone, hback, hredone, hon⟩ :=
      undo_redo_committed hlast (hconfig ▸ hlimit) rfl
    rw [Frame.undo_announced h.tidy h.readable htidy hread] at hback hon
    rw [Frame.redo_announced h.tidy h.readable htidy hread] at hon
    refine ⟨hlast.table, fun _ => ⟨hundone, ?_, hredone, ?_⟩, fun hc => ?_⟩
    · exact hback.trans h.table.symm
    · exact hon.trans hlast.table.symm
    · cases hc

/-! ### A node whose slots are redone -/

section Nodes

open Bag

/-- A scalar becomes a frame, a slot that cannot be read back comes and goes, and an
    empty frame is added. -/
def redraft : List (List SlotEdit) :=
  [[.set "a/b" (.int64 2), .set "x" (.double .nan)], [.delete "x", .set "c" (.frame .empty)]]

/-- A node with one slot. -/
def sketched : Book bags := plain.editSlots (node 1) [.set "a" (.int64 1)]

theorem hasTable_sketched : sketched.HasTable (node 1) nodeSlots (.cons "a" (.int64 1) .empty) := by
  have hset : ∀ x ∈ [SlotEdit.set "a" (.int64 1)], x.Sound := by
    intro x hx
    rw [List.mem_singleton.mp hx]
    exact ⟨trivial, by decide +kernel⟩
  have htable : SlotEdit.applyAll [.set "a" (.int64 1)] .empty = .cons "a" (.int64 1) .empty := by
    decide +kernel
  exact htable ▸ (hasTable_plain.editSlots hset).1

theorem redraft_reverts :
    let g : Frame := .cons "a" (.frame (.cons "b" (.int64 2) .empty)) (.cons "c" (.frame .empty) .empty)
    sketched.HasTable (node 1) nodeSlots (.cons "a" (.int64 1) .empty) ∧
    (SlotEdit.applyAll redraft.flatten (.cons "a" (.int64 1) .empty) = g ∧ g.Tidy ∧ g.Readable) ∧
    0 < sketched.config.undoLimit ∧
    (sketched.announcedSession "redraft" (node 1) "slots" redraft).1 = true ∧
    sketched.Reverts (sketched.announcedSession "redraft" (node 1) "slots" redraft).2 (node 1) := by
  intro g
  have hg : SlotEdit.applyAll redraft.flatten (.cons "a" (.int64 1) .empty) = g := by
    decide +kernel
  -- The same table comes of changes that can all be read back.
  have hsound : ∀ x ∈ [SlotEdit.set "a/b" (.int64 2), .set "c" (.frame .empty)], x.Sound := by
    intro x hx
    rcases List.mem_cons.mp hx with rfl | hx
    · exact ⟨trivial, by decide +kernel⟩
    · rw [List.mem_singleton.mp hx]
      exact ⟨trivial, Slot.parse_text_empty⟩
  have hsame : SlotEdit.applyAll [.set "a/b" (.int64 2), .set "c" (.frame .empty)]
      (.cons "a" (.int64 1) .empty) = g := by decide +kernel
  obtain ⟨htidy, hread⟩ :=
    SlotEdit.tidy_applyAll hsound hasTable_sketched.tidy hasTable_sketched.readable
  rw [hsame] at htidy hread
  have hlimit : 0 < sketched.config.undoLimit := by decide +kernel
  have hcommit : (sketched.announcedSession "redraft" (node 1) "slots" redraft).1 = true := by
    decide +kernel
  exact ⟨hasTable_sketched, ⟨hg, htidy, hread⟩, hlimit, hcommit,
    (announced_changes_revert hasTable_sketched hlimit "redraft" hg htidy hread).2.1 hcommit⟩

/-- A book with a node whose table is empty, under given settings. -/
def bareNode (config : Config) : Book bags :=
  ({ emptyBook 1 with config }.create "node" (node 1).guid).2

/-- If undo is disabled, the operation is not committed, and yet the table has changed. If
    the log keeps nothing, the operation is committed and cannot be taken back. -/
theorem unkept_changes_not_reverted :
    let f : Frame := .empty
    let g : Frame := .cons "a" (.int64 1) .empty
    let off := bareNode { undoEnabled := false }
    let short := bareNode { undoLimit := 0 }
    let groups : List (List SlotEdit) := [[.set "a" (.int64 1)]]
    (f.Tidy ∧ f.Readable ∧ g.Tidy ∧ g.Readable) ∧
    (off.table? (node 1) = some f ∧
      (off.announcedSession "jot" (node 1) "slots" groups).1 = false ∧
      (off.announcedSession "jot" (node 1) "slots" groups).2.table? (node 1) = some g ∧ f ≠ g) ∧
    (short.table? (node 1) = some f ∧
      (short.announcedSession "jot" (node 1) "slots" groups).1 = true ∧
      (short.announcedSession "jot" (node 1) "slots" groups).2.undoLast.1 = false ∧
      (short.announcedSession "jot" (node 1) "slots" groups).2.undoLast.2.table? (node 1) =
        some g) := by
  intro f g off short groups
  exact ⟨⟨trivial, Frame.readable_empty, hasTable_sketched.tidy, hasTable_sketched.readable⟩,
    ⟨by decide +kernel, by decide +kernel, by decide +kernel, by decide +kernel⟩,
    by decide +kernel, by decide +kernel, by decide +kernel, by decide +kernel⟩

end Nodes

end Book

end EntityBook
