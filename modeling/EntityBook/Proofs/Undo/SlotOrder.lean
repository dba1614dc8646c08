import EntityBook.Proofs.Undo.SpoiledOrder

/-! # Side-tables that are recorded repeatedly

  One operation may announce a side-table, change it and say that its change is done any
  number of times. Undo takes all operations of an order back just if the order is safe.
-/

namespace EntityBook

variable {P : PayloadFamily}

namespace Book

variable {b : Book P} {e : Entity} {p : Param P} {f : Frame} {ms : List Mark}

/-- An operation that does steps on a side-table in a given order, with other calls after
    its end, up to an undo. -/
structure TableOperation (b : Book P) (e : Entity) (p : Param P) (order : List Mark) where
  /-- What the user calls it. -/
  label : String
  /-- The steps, with what is done beside them. -/
  steps : List (SlotStep P)
  /-- What is done between the end of the operation and its undo. -/
  outer : List (Call P)
  proper : ∀ t ∈ steps, t.Proper b e
  inOrder : marks steps = order
  outerSpares : ∀ x ∈ outer, x.SparesSlots b e
  /-- The entity is still there when the operation is undone. -/
  live : ((b.slotOperation label e p.name steps).2.run outer).contains e = true

namespace TableOperation

/-- Whether the operation is committed, and the book after it. -/
def ended (d : b.TableOperation e p ms) : Bool × Book P := b.slotOperation d.label e p.name d.steps

/-- The book before the undo. -/
def late (d : b.TableOperation e p ms) : Book P := d.ended.2.run d.outer

/-- What undo makes of the table. -/
theorem undone (d : b.TableOperation e p ms) (h : b.HasTable e p f)
    (limit : 0 < b.config.undoLimit) (hcommit : d.ended.1 = true) :
    d.late.undoLast.1 = true ∧ d.late.undoLast.2.table? e =
      some (({ table := f } : SlotState).steps b.undo e p.name d.steps).undone :=
  undo_slotOperation h limit d.label d.proper d.outerSpares hcommit rfl d.live

/-- The edits of an operation are sound. -/
theorem sound (d : b.TableOperation e p ms) :
    ∀ t ∈ d.steps, ∀ xs, t = .change xs → ∀ x ∈ xs, x.Sound := by
  intro t ht xs heq
  have hproper := d.proper t ht
  rw [heq] at hproper
  exact hproper

/-- An operation that does nothing but its steps, and is undone at once. -/
def ofFill (h : b.HasTable e p f) {ss : List (SlotStep P)} (hfill : SlotStep.Fill ss ms) :
    b.TableOperation e p ms where
  label := ""
  steps := ss
  outer := []
  proper := by
    intro t ht
    cases t with
    | change xs => exact hfill.sound _ ht xs rfl
    | other c => exact absurd rfl (hfill.own _ ht)
    | before | after => trivial
  inOrder := hfill.inOrder
  outerSpares := by
    intro x hx
    cases hx
  live := by
    have hproper : ∀ t ∈ ss, t.Proper b e := by
      intro t ht
      cases t with
      | change xs => exact hfill.sound _ ht xs rfl
      | other c => exact absurd rfl (hfill.own _ ht)
      | before | after => trivial
    have hlive := (HoldsRecord.start h "").contains_run hproper hfill.own
    have hsame := (endOperation_spares ((b.startOperation "").run (ss.map (·.call e p.name)))).2 e
    show ((b.startOperation "").run (ss.map (·.call e p.name))).endOperation.2.contains e = true
    unfold Book.contains at hlive ⊢
    rwa [hsame]

/-- It is committed if it has recorded something of the table. -/
theorem committed_ofFill (h : b.HasTable e p f) {ss : List (SlotStep P)}
    (hfill : SlotStep.Fill ss ms)
    (hseen : (({ table := f } : SlotState).steps b.undo e p.name ss).record.seen ≠ []) :
    (ofFill h hfill).ended.1 = true := by
  have hstart := HoldsRecord.start h ""
  have hproper := (ofFill h hfill).proper
  have hrun := hstart.run hproper (hstart.contains_run hproper hfill.own)
  refine hrun.endOperation.1 fun hnil => hseen ?_
  exact (List.append_eq_nil_iff.mp hnil).1

end TableOperation

/-- If some steps of an order spoil the table, some operation of the order is not taken
    back. -/
theorem not_all_undone (h : b.HasTable e p f) (limit : 0 < b.config.undoLimit)
    (hspoils : SlotState.Spoils b.undo e p.name f { table := f } ms) :
    ¬ ∀ d : b.TableOperation e p ms, d.ended.1 = true →
      d.late.undoLast.1 = true ∧ d.late.undoLast.2.table? e = some f := by
  intro hall
  obtain ⟨ss, hfill, hseen, hundone⟩ := hspoils
  have hcommit := TableOperation.committed_ofFill h hfill hseen
  have hback := ((TableOperation.ofFill h hfill).undone h limit hcommit).2
  have hsame := (hall (.ofFill h hfill) hcommit).2
  exact hundone (Option.some.inj (hback.symm.trans hsame))

/-- An operation on a table with slots is taken back, if there is no change after its
    change was said to be done. -/
theorem undone_of_held (h : b.HasTable e p f) (hf : f ≠ .empty)
    (hannounced : Mark.change ∉ ms.takeWhile (· ≠ .before)) (hchange : Mark.change ∈ ms)
    (horder : Mark.change ∉ ms.dropWhile (· ≠ .after)) (d : b.TableOperation e p ms) :
    (({ table := f } : SlotState).steps b.undo e p.name d.steps).undone = f := by
  have hleaves : f.leaves ≠ [] := by
    refine HasTable.leaves_ne_nil h.tidy (Bool.eq_false_iff.mpr fun hempty => ?_)
    exact hf (Frame.isEmpty_iff.mp hempty)
  -- The table is announced first.
  cases ms with
  | nil => cases hchange
  | cons m rest =>
    cases m with
    | change =>
      rw [List.takeWhile_cons_of_pos (by simp)] at hannounced
      exact absurd List.mem_cons_self hannounced
    | after =>
      rw [List.dropWhile_cons_of_neg (by simp)] at horder
      exact absurd hchange horder
    | before =>
      rw [List.dropWhile_cons_of_pos (by simp)] at horder
      obtain ⟨more, hmore, hmem, hsteps⟩ :=
        SlotState.steps_of_marks_before b.undo e p.name d.inOrder
      rw [hsteps]
      refine SlotState.undone_of_announced h.tidy h.readable hleaves ?_ (hmore ▸ horder) h.tidy
        h.readable
      intro t ht
      exact d.sound t (hmem t ht)

/-- Recording a side-table any number of times in one operation. Undo takes back all
    operations that record and change in an order, if and only if the order is safe: for a
    table with slots, if there is no change after its change was said to be done; for an
    empty table, if no stage can go wrong, and the log knows no value when it is asked. -/
theorem recorded_in_order_undone_iff (h : b.HasTable e p f) (limit : 0 < b.config.undoLimit)
    (hlog : ∀ op ∈ b.undo.past, PathsNamed op.entries e p.name)
    (hread : ∀ path s, b.undo.lastKnown e p.name (some path) = some (.value s) →
      ∃ t, Slot.parse s = .ok t)
    (hannounced : Mark.change ∉ ms.takeWhile (· ≠ .before)) (hchange : Mark.change ∈ ms) :
    (∀ d : b.TableOperation e p ms, d.ended.1 = true →
      d.late.undoLast.1 = true ∧ d.late.undoLast.2.table? e = some f) ↔
      (f ≠ .empty → Mark.change ∉ ms.dropWhile (· ≠ .after)) ∧
      (f = .empty →
        (Mark.after ∈ ms → ∀ path s, b.undo.lastKnown e p.name (some path) ≠ some (.value s)) ∧
        (Stage.quiet 0 false).safe (!(b.undo.knownPaths e p.name).isEmpty) ms = true) := by
  constructor
  · intro hall
    have hnot := fun hspoils => not_all_undone h limit hspoils hall
    constructor
    · intro hf horder
      have hleaves : f.leaves ≠ [] := by
        refine HasTable.leaves_ne_nil h.tidy (Bool.eq_false_iff.mpr fun hempty => ?_)
        exact hf (Frame.isEmpty_iff.mp hempty)
      exact hnot (SlotState.spoils_of_change_after h.tidy hleaves hlog rfl (Or.inl ⟨rfl, rfl⟩) horder)
    · rintro rfl
      have hvalues : Mark.after ∈ ms →
          ∀ path s, b.undo.lastKnown e p.name (some path) ≠ some (.value s) := by
        intro hafter path s hknown
        exact hnot (SlotState.spoils_known hlog hread hknown rfl rfl hafter)
      refine ⟨hvalues, ?_⟩
      by_contra hrisk
      exact hnot (SlotState.spoils_of_not_safe hlog hvalues (Bool.eq_false_iff.mpr hrisk))
  · intro hsafe d hcommit
    obtain ⟨hundone, hback⟩ := d.undone h limit hcommit
    refine ⟨hundone, hback.trans (congrArg some ?_)⟩
    by_cases hf : f = .empty
    · subst hf
      obtain ⟨hvalues, horder⟩ := hsafe.2 rfl
      have hstart : (Stage.quiet 0 false).Describes { table := .empty } := .quiet rfl rfl rfl
      refine SlotState.undone_of_safe hlog d.sound ?_ h.tidy h.readable hstart ?_ ?_
      · rw [d.inOrder]
        exact hvalues
      · rw [d.inOrder]
        exact horder
      · rw [d.inOrder]
        exact fun _ _ => ⟨rfl, hannounced⟩
    · exact undone_of_held h hf hannounced hchange (hsafe.1 hf) d

/-! ### Nodes that are recorded repeatedly -/

section Nodes

open Bag

/-- A node with a slot may be announced repeatedly before it is changed, and recorded in
    any way after that, but not changed again. A node without slots may be announced
    repeatedly as long as it is empty. -/
theorem node_orders_undone :
    let f : Frame := .cons "a" (.int64 1) .empty
    (sketched.HasTable (node 1) nodeSlots f ∧ plain.HasTable (node 1) nodeSlots .empty ∧
      (0 < sketched.config.undoLimit ∧ 0 < plain.config.undoLimit) ∧
      sketched.undo.past = [] ∧ plain.undo.past = []) ∧
    (∀ d : sketched.TableOperation (node 1) nodeSlots
        [.before, .before, .change, .change, .after, .before, .after],
      d.ended.1 = true → d.late.undoLast.2.table? (node 1) = some f) ∧
    (¬ ∀ d : sketched.TableOperation (node 1) nodeSlots
        [.before, .change, .after, .before, .change, .after],
      d.ended.1 = true →
        d.late.undoLast.1 = true ∧ d.late.undoLast.2.table? (node 1) = some f) ∧
    (∀ d : plain.TableOperation (node 1) nodeSlots
        [.before, .before, .change, .after, .change, .after],
      d.ended.1 = true → d.late.undoLast.2.table? (node 1) = some .empty) ∧
    ¬ ∀ d : plain.TableOperation (node 1) nodeSlots [.before, .change, .before],
      d.ended.1 = true →
        d.late.undoLast.1 = true ∧ d.late.undoLast.2.table? (node 1) = some .empty := by
  intro f
  have hpast : sketched.undo.past = [] := List.isEmpty_iff.mp (by decide +kernel)
  have hpast' : plain.undo.past = [] := List.isEmpty_iff.mp (by decide +kernel)
  have hlimit : 0 < sketched.config.undoLimit := by decide +kernel
  have hlimit' : 0 < plain.config.undoLimit := by decide +kernel
  obtain ⟨hlog, hnone⟩ := known_of_past_nil hpast (node 1) nodeSlots.name
  obtain ⟨hlog', hnone'⟩ := known_of_past_nil hpast' (node 1) nodeSlots.name
  have hread : ∀ path s, sketched.undo.lastKnown (node 1) nodeSlots.name (some path) =
      some (.value s) → ∃ t, Slot.parse s = .ok t := by
    intro path s hknown
    cases (hnone (some path)).symm.trans hknown
  have hread' : ∀ path s, plain.undo.lastKnown (node 1) nodeSlots.name (some path) =
      some (.value s) → ∃ t, Slot.parse s = .ok t := by
    intro path s hknown
    cases (hnone' (some path)).symm.trans hknown
  have hunknown : ∀ path s, plain.undo.lastKnown (node 1) nodeSlots.name (some path) ≠
      some (.value s) := by
    intro path s hknown
    cases (hnone' (some path)).symm.trans hknown
  refine ⟨⟨hasTable_sketched, hasTable_plain, ⟨hlimit, hlimit'⟩, hpast, hpast'⟩, ?_, ?_, ?_, ?_⟩
  · intro d hcommit
    refine ((recorded_in_order_undone_iff hasTable_sketched hlimit hlog hread (by decide)
      (by decide)).mpr ⟨fun _ => by decide, fun h => by cases h⟩ d hcommit).2
  · intro hall
    have hsafe := (recorded_in_order_undone_iff hasTable_sketched hlimit hlog hread (by decide)
      (by decide)).mp hall
    exact absurd (hsafe.1 fun h => by cases h) (by decide)
  · intro d hcommit
    refine ((recorded_in_order_undone_iff hasTable_plain hlimit' hlog' hread' (by decide)
      (by decide)).mpr ⟨fun h => absurd rfl h, fun _ => ⟨fun _ => hunknown, ?_⟩⟩ d hcommit).2
    decide +kernel
  · intro hall
    have hsafe := (recorded_in_order_undone_iff hasTable_plain hlimit' hlog' hread' (by decide)
      (by decide)).mp hall
    exact absurd (hsafe.2 rfl).2 (by decide +kernel)

/-- The second of two recorded changes stays after the undo, and so does a slot that is
    written between two announcements of an empty table. -/
theorem repeated_recording_loses_slots :
    let change (path : String) (v : Int64) : Call bags :=
      SlotStep.call (node 1) "slots" (.change [.set path (.int64 v)])
    let c := sketched.run [.startOperation "redraw", .recordBefore (node 1) "slots", change "b" 2,
      .recordAfter (node 1) "slots", .recordBefore (node 1) "slots", change "c" 3,
      .recordAfter (node 1) "slots", .endOperation]
    let d := plain.run [.startOperation "draw", .recordBefore (node 1) "slots", change "a" 1,
      .recordBefore (node 1) "slots", .endOperation]
    (sketched.table? (node 1) = some (.cons "a" (.int64 1) .empty) ∧
      c.undoLabel = some "redraw" ∧ c.undoLast.1 = true ∧
      c.undoLast.2.table? (node 1) = some (.cons "a" (.int64 1) (.cons "c" (.int64 3) .empty))) ∧
    plain.table? (node 1) = some .empty ∧ d.undoLabel = some "draw" ∧ d.undoLast.1 = true ∧
      d.undoLast.2.table? (node 1) = some (.cons "a" (.int64 1) .empty) := by
  decide +kernel

end Nodes

end Book

end EntityBook
