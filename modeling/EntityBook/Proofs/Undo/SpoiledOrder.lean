import EntityBook.Proofs.Undo.SafeOrder

/-! # Orders of recording that lose changes

  For every order of recording that is not safe there is an operation that is not taken
  back by undo. A slot that is written after the table is not watched any more stays. So
  does the slot of a table that was announced while it was empty, if it is written before
  the next announcement, or again after it was recorded and lost. And a value that the log
  knows is written to a table that has been empty all along.
-/

namespace EntityBook

variable {P : PayloadFamily}

namespace Frame

/-! ### Tables with one slot -/

/-- The table whose one leaf is an empty frame at the end of the names. -/
def lone (ns : List String) : Frame := Frame.empty.setAt (.frame .empty) ns

variable {ns : List String}

theorem tidy_lone (hns : Named ns) : (lone ns).Tidy :=
  have hempty : Frame.empty.Tidy := trivial
  hempty.setAt (show (Slot.frame .empty).Tidy from trivial) hns.2

theorem leafAt_lone (hns : Named ns) (ms : List String) :
    (lone ns).leafAt ms = if ms = ns then some (.frame .empty) else none := by
  unfold lone
  by_cases heq : ms = ns
  · subst heq
    have hself := leafAt_setAt_below (.frame .empty) hns.1 empty []
    rw [List.append_nil] at hself
    rw [if_pos rfl, hself]
    rfl
  · rw [if_neg heq]
    by_cases hbelow : ns <+: ms
    · obtain ⟨ks, rfl⟩ := hbelow
      have hks : ks ≠ [] := by
        rintro rfl
        exact heq (List.append_nil ns)
      rw [leafAt_setAt_below _ hns.1]
      exact leafAt_of_isLeaf rfl hks
    · by_cases habove : ms <+: ns
      · exact leafAt_setAt_above _ habove heq _
      · rw [leafAt_setAt_apart _ ⟨hbelow, habove⟩, leafAt_empty]

theorem leaves_lone (hns : Named ns) {x : String × Slot} (hx : x ∈ (lone ns).leaves) :
    x.1 = pathOf ns := by
  obtain ⟨ms, hpath, hleaf⟩ := exists_leafAt_of_mem_leaves (tidy_lone hns) hx
  rw [leafAt_lone hns] at hleaf
  split at hleaf
  · next heq => rw [hpath, heq]
  · cases hleaf

/-- The table with the one slot, or the empty table. -/
def loneIf (ns : List String) (filled : Bool) : Frame := if filled then lone ns else empty

end Frame

namespace SlotEdit

open EntityBook.Frame

/-- The change that leads to the table with the one slot, or to the empty one. -/
def toLoneIf (ns : List String) (filled : Bool) : SlotEdit :=
  if filled then .set (pathOf ns) (.frame .empty) else .delete (pathOf ns)

theorem sound_toLoneIf (ns : List String) (filled : Bool) : (toLoneIf ns filled).Sound := by
  cases filled with
  | true => exact ⟨trivial, Slot.parse_text_empty⟩
  | false => trivial

theorem apply_toLoneIf {ns : List String} (hns : Named ns) (filled filled' : Bool) :
    (toLoneIf ns filled').apply (loneIf ns filled) = loneIf ns filled' := by
  have htidy : (loneIf ns filled).Tidy := by
    cases filled with
    | true => exact tidy_lone hns
    | false => trivial
  have hleaf {ms : List String} {s : Slot} (h : (loneIf ns filled).leafAt ms = some s) : ms = ns := by
    cases filled with
    | false => simp [loneIf] at h
    | true =>
      by_contra hne
      rw [show loneIf ns true = lone ns from rfl, leafAt_lone hns, if_neg hne] at h
      cases h
  cases filled' with
  | true =>
    have happly : (toLoneIf ns true).apply (loneIf ns filled) =
        (loneIf ns filled).setAt (.frame .empty) ns := by
      show (SlotEdit.set (pathOf ns) (.frame .empty)).apply _ = _
      exact (Frame.set_eq _ _ _).trans (by rw [names_pathOf hns.2])
    rw [happly]
    refine frame_ext (htidy.setAt (show (Slot.frame .empty).Tidy from trivial) hns.2)
      (tidy_lone hns) fun ms => ?_
    show _ = (Frame.empty.setAt (.frame .empty) ns).leafAt ms
    by_cases hbelow : ns <+: ms
    · obtain ⟨ks, rfl⟩ := hbelow
      rw [leafAt_setAt_below _ hns.1, leafAt_setAt_below _ hns.1]
    · have hne : ms ≠ ns := by
        rintro rfl
        exact hbelow (List.prefix_refl ms)
      by_cases habove : ms <+: ns
      · rw [leafAt_setAt_above _ habove hne, leafAt_setAt_above _ habove hne]
      -- There is nothing that is apart from the slot.
      · rw [leafAt_setAt_apart _ ⟨hbelow, habove⟩, leafAt_setAt_apart _ ⟨hbelow, habove⟩,
          leafAt_empty]
        exact Option.eq_none_iff_forall_ne_some.mpr fun s h => hne (hleaf h)
  | false =>
    have happly : (toLoneIf ns false).apply (loneIf ns filled) = (loneIf ns filled).deleteAt ns := by
      show (loneIf ns filled).deleteAt (names (pathOf ns)) = _
      rw [names_pathOf hns.2]
    rw [happly]
    refine frame_ext (htidy.deleteAt ns) (show Frame.empty.Tidy from trivial) fun ms => ?_
    show _ = Frame.empty.leafAt ms
    rw [leafAt_empty]
    refine Option.eq_none_iff_forall_ne_some.mpr fun s h => ?_
    have hms := hleaf (leafAt_of_leafAt_deleteAt h)
    subst hms
    have hnone := leafAt_deleteAt_below hns.1 (loneIf ms filled) []
    rw [List.append_nil, h] at hnone
    cases hnone

end SlotEdit

/-! ### Operations that are not taken back -/

/-- Steps that announce, change and finish in an order, and nothing else. -/
structure SlotStep.Fill (ss : List (SlotStep P)) (ms : List Mark) : Prop where
  inOrder : marks ss = ms
  own : ∀ t ∈ ss, t.mark? ≠ none
  sound : ∀ t ∈ ss, ∀ xs, t = .change xs → ∀ x ∈ xs, x.Sound

/-- The step that leaves the table as it is. -/
def Mark.idle : Mark → SlotStep P
  | before => .before
  | after => .after
  | change => .change []

namespace SlotStep

theorem Fill.cons {t : SlotStep P} {m : Mark} {ss : List (SlotStep P)} {ms : List Mark}
    (ht : t.mark? = some m) (hsound : ∀ xs, t = .change xs → ∀ x ∈ xs, x.Sound)
    (h : Fill ss ms) : Fill (t :: ss) (m :: ms) where
  inOrder := by
    unfold marks
    rw [List.filterMap_cons_some ht]
    exact congrArg (m :: ·) h.inOrder
  own := by
    intro u hu hnone
    rcases List.mem_cons.mp hu with rfl | hu
    · cases ht.symm.trans hnone
    · exact h.own u hu hnone
  sound := by
    intro u hu
    rcases List.mem_cons.mp hu with rfl | hu
    · exact hsound
    · exact h.sound u hu

theorem fill_idle (ms : List Mark) : Fill (ms.map (Mark.idle (P := P))) ms := by
  induction ms with
  | nil =>
    refine ⟨rfl, ?_, ?_⟩
    · intro t ht
      cases ht
    · intro t ht
      cases ht
  | cons m rest ih =>
    refine ih.cons (t := m.idle) ?_ ?_
    · cases m <;> rfl
    · intro xs heq x hx
      cases m with
      | change =>
        cases heq
        cases hx
      | before | after => cases heq

theorem isIdle_idle (ms : List Mark) : ∀ t ∈ ms.map (Mark.idle (P := P)), t.IsIdle := by
  intro t ht
  obtain ⟨m, _, rfl⟩ := List.mem_map.mp ht
  cases m with
  | change => rfl
  | before | after => trivial

end SlotStep

/-- Some operation goes on in an order from a table and a record, and undo of it does not
    lead to the given table. -/
def SlotState.Spoils (l : UndoLog P) (e : Entity) (name : String) (f : Frame) (s : SlotState)
    (ms : List Mark) : Prop :=
  ∃ ss : List (SlotStep P), SlotStep.Fill ss ms ∧ (s.steps l e name ss).record.seen ≠ [] ∧
    (s.steps l e name ss).undone ≠ f

namespace SlotState

variable {l : UndoLog P} {e : Entity} {name : String} {f : Frame} {s : SlotState} {ms : List Mark}

theorem Spoils.cons {t : SlotStep P} {m : Mark} (h : Spoils l e name f (s.step l e name t) ms)
    (ht : t.mark? = some m) (hsound : ∀ xs, t = .change xs → ∀ x ∈ xs, x.Sound) :
    Spoils l e name f s (m :: ms) := by
  obtain ⟨ss, hfill, hseen, hundone⟩ := h
  exact ⟨t :: ss, hfill.cons ht hsound, hseen, hundone⟩

theorem Spoils.before (h : Spoils l e name f ⟨s.table, s.record.announce s.table⟩ ms) :
    Spoils l e name f s (.before :: ms) :=
  h.cons (t := .before) rfl fun _ heq => nomatch heq

theorem Spoils.after (h : Spoils l e name f ⟨s.table, s.record.finish l e name s.table⟩ ms) :
    Spoils l e name f s (.after :: ms) :=
  h.cons (t := .after) rfl fun _ heq => nomatch heq

theorem Spoils.change {x : SlotEdit} (hx : x.Sound)
    (h : Spoils l e name f ⟨x.apply s.table, s.record⟩ ms) :
    Spoils l e name f s (.change :: ms) := by
  refine h.cons (t := .change [x]) rfl ?_
  intro xs heq y hy
  cases heq
  rw [List.mem_singleton.mp hy]
  exact hx

/-- Leaving the table alone from here on. -/
theorem spoils_idle (hseen : s.record.seen ≠ []) (hmissed : s.record.missed s.table = [])
    (hbad : ∀ h, h = s.record.last.getD s.table ∨ h = s.table →
      (h.undoPatches s.record.seen).foldl Frame.apply s.table ≠ f) :
    Spoils l e name f s ms := by
  obtain ⟨htable, hkept, hnone, hlast⟩ := steps_idle l e name hseen hmissed
    (SlotStep.isIdle_idle (P := P) ms)
  refine ⟨_, SlotStep.fill_idle ms, by rw [hkept]; exact hseen, ?_⟩
  rw [undone_of_missed (by rw [htable]; exact hnone), htable, hkept]
  refine hbad _ ?_
  rcases hlast with heq | heq
  · rw [heq]
    exact Or.inl rfl
  · rw [heq]
    exact Or.inr rfl

/-! ### A slot under a new name -/

theorem exists_fresh_name (names : List String) : ∃ n, Frame.ProperName n ∧ n ∉ names := by
  -- A name that is longer than all of them.
  obtain ⟨k, hk⟩ : ∃ k, ∀ m ∈ names, m.length < k := by
    induction names with
    | nil => exact ⟨0, fun m hm => absurd hm List.not_mem_nil⟩
    | cons a rest ih =>
      obtain ⟨k, hk⟩ := ih
      refine ⟨max k (a.length + 1), fun m hm => ?_⟩
      rcases List.mem_cons.mp hm with rfl | hm
      · omega
      · have hlt := hk m hm
        omega
  have hchars : (String.ofList (List.replicate (k + 1) 'a')).toList = List.replicate (k + 1) 'a' :=
    String.toList_ofList
  refine ⟨String.ofList (List.replicate (k + 1) 'a'), ⟨?_, ?_⟩, ?_⟩
  · intro hempty
    rw [hempty] at hchars
    cases hchars
  · rw [hchars]
    intro hm
    exact absurd (List.eq_of_mem_replicate hm) (by decide)
  · intro hm
    have hlt := hk _ hm
    rw [← String.length_toList, hchars, List.length_replicate] at hlt
    omega

theorem patch?_path {path : String} {c : Capture} {x : Frame.Patch}
    (h : Frame.patch? path c = some x) : x.1 = Frame.names path := by
  unfold Frame.patch? at h
  split at h
  · cases h
  · cases h
    rfl
  · split at h
    · cases h
      rfl
    · cases h

/-- Once something is recorded of a table that is not watched, a slot that is written
    stays. -/
theorem spoils_unwatched (hf : f.Tidy) (hseen : s.record.seen ≠ [])
    (hnamed : ∀ x ∈ s.record.seen, ∃ ns, Frame.Named ns ∧ x.1 = Frame.pathOf ns)
    (hwatches : s.record.watches = 0) : Spoils l e name f s (.change :: ms) := by
  obtain ⟨n, hn, hfresh⟩ := exists_fresh_name
    ((s.record.seen.map fun x => (Frame.names x.1).headD "") ++ f.leafList.map fun x => x.1.headD "")
  rw [List.mem_append, not_or] at hfresh
  obtain ⟨hunseen, hunheld⟩ := hfresh
  have hnone : f.leafAt [n] = none := by
    refine Option.eq_none_iff_forall_ne_some.mpr fun v hv => hunheld ?_
    exact List.mem_map.mpr ⟨_, (Frame.mem_leafList hf).mpr hv, rfl⟩
  refine Spoils.change (Book.sound_writeEmpty n) (spoils_idle hseen ?_ ?_)
  · exact SlotRecord.missed_eq_nil.mpr (Or.inl hwatches)
  · intro h _ hback
    have hapart : ∀ x ∈ h.undoPatches s.record.seen, Frame.Apart x.1 [n] := by
      intro x hx
      obtain ⟨y, hy, _, hpatch⟩ := Frame.mem_undoPatches.mp hx
      obtain ⟨ns, hns, hpath⟩ := hnamed y hy
      rw [patch?_path hpatch]
      have hhead : (Frame.names y.1).headD "" ≠ n := fun heq =>
        hunseen (List.mem_map.mpr ⟨y, hy, heq⟩)
      rw [hpath, Frame.names_pathOf hns.2] at hhead ⊢
      cases ns with
      | nil => exact absurd rfl hns.1
      | cons m rest =>
        constructor
        · intro hpre
          exact hhead (List.cons_prefix_cons.mp hpre).1
        · intro hpre
          exact hhead (List.cons_prefix_cons.mp hpre).1.symm
    have hleaf := Frame.leafAt_foldl_apart (f := (Book.writeEmpty n).apply s.table) hapart
    have hwritten := Frame.leafAt_setAt_below (.frame .empty) (List.cons_ne_nil n []) s.table []
    rw [List.append_nil] at hwritten
    rw [Book.apply_writeEmpty hn, hwritten, ← Book.apply_writeEmpty hn, hback, hnone] at hleaf
    cases hleaf

/-! ### Tables that were empty -/

theorem undoPatches_eq_nil {g : Frame} {seen : List (String × Capture)}
    (h : ∀ x ∈ seen, x.2 = g.seenAt x.1) : g.undoPatches seen = [] := by
  unfold Frame.undoPatches
  rw [List.filter_eq_nil_iff.mpr fun x hx => by simp [h x hx]]
  rfl

/-- A table that is not empty when it is announced is what undo gives back. -/
theorem spoils_announced (hg : s.table.Tidy) (hne : s.table ≠ .empty) (hseen : s.record.seen = []) :
    Spoils l e name .empty s (.before :: ms) := by
  refine Spoils.before ?_
  have hrecord : s.record.announce s.table =
      { seen := s.table.leaves.map fun x => (x.1, .value x.2.text),
        watches := s.record.watches + 1 } := if_pos (by simp [hseen])
  rw [hrecord]
  have hkept : ∀ x ∈ s.table.leaves.map fun x : String × Slot => (x.1, Capture.value x.2.text),
      x.2 = s.table.seenAt x.1 := by
    intro x hx
    obtain ⟨y, hy, rfl⟩ := List.mem_map.mp hx
    obtain ⟨ns, hns, hpath, hleaf, _⟩ := exists_names_of_mem_leaves hg hy
    show _ = s.table.seenAt y.1
    rw [hpath, Frame.seenAt_of_some hns (Frame.getAt_of_leafAt hleaf)]
  refine spoils_idle ?_ (SlotRecord.missed_eq_nil.mpr (Or.inr ?_)) ?_
  · intro hnil
    refine Book.HasTable.leaves_ne_nil hg ?_ (List.map_eq_nil_iff.mp hnil)
    exact Bool.eq_false_iff.mpr fun h => hne (Frame.isEmpty_iff.mp h)
  · intro x hx
    show x.1 ∈ (s.table.leaves.map fun x => (x.1, Capture.value x.2.text)).map (·.1)
    rw [List.map_map]
    exact List.mem_map_of_mem hx
  · intro h hh
    have htable : h = s.table := hh.elim id id
    subst htable
    show ((s.table.undoPatches _).foldl Frame.apply s.table) ≠ .empty
    rw [undoPatches_eq_nil hkept]
    exact hne

section Known

variable {b : Book P} {p : Param P}

/-- A value that the log knows is written to a table that is empty all along. -/
theorem spoils_known (hlog : ∀ op ∈ b.undo.past, Book.PathsNamed op.entries e p.name)
    (hread : ∀ path v, b.undo.lastKnown e p.name (some path) = some (.value v) →
      ∃ t, Slot.parse v = .ok t) {path v : String}
    (hknown : b.undo.lastKnown e p.name (some path) = some (.value v)) (htable : s.table = .empty)
    (hseen : s.record.seen = []) (hafter : Mark.after ∈ ms) :
    Spoils b.undo e p.name .empty s ms := by
  induction ms generalizing s with
  | nil => cases hafter
  | cons m rest ih =>
    cases m with
    | before =>
      refine Spoils.before (ih htable ?_ ((List.mem_cons.mp hafter).resolve_left (by decide)))
      unfold SlotRecord.announce
      rw [if_pos (by simp [hseen]), htable]
      rfl
    | change =>
      refine Spoils.cons (t := .change []) (ih htable hseen
        ((List.mem_cons.mp hafter).resolve_left (by decide))) rfl ?_
      intro xs heq x hx
      cases heq
      cases hx
    | after =>
      refine Spoils.after ?_
      rw [SlotRecord.finish_of_unseen hseen, htable]
      refine spoils_idle ?_ (SlotRecord.missed_eq_nil.mpr (Or.inr fun x hx => by cases hx)) ?_
      · intro hnil
        have hpath := UndoLog.mem_knownPaths_of_lastKnown hknown
        rw [(seenBefore_eq_nil.mp hnil).2] at hpath
        cases hpath
      · intro h hh
        have hempty : h = .empty := hh.elim id id
        subst hempty
        exact Book.HasTable.known_value_spoils hlog hread hknown

end Known

/-! ### Toggling one slot -/

/-- How an operation that only ever writes and deletes one slot stands when it has come to
    a stage, with the rest of the order still to go. -/
inductive Toggles (known : Bool) (ns : List String) : Stage → List Mark → SlotState → Prop where
  | quiet {n : Nat} {filled : Bool} {ms : List Mark} {s : SlotState} (seen : s.record.seen = [])
      (watches : s.record.watches = n) (table : s.table = .loneIf ns filled)
      (safe : filled = true → (Stage.quiet n false).safe known ms = true) :
      Toggles known ns (.quiet n filled) ms s
  /-- If the path was lost, the slot is written at the last change. -/
  | recorded {n : Nat} {lost changed filled : Bool} {ms : List Mark} {s : SlotState} {h : Frame}
      (path : Frame.pathOf ns ∈ s.record.seen.map (·.1)) (watches : s.record.watches = n)
      (last : s.record.last = some h)
      (absent : ∀ x ∈ s.record.seen, x.2 = .absent ∧ ∃ ns, Frame.Named ns ∧ x.1 = Frame.pathOf ns)
      (table : s.table = .loneIf ns filled)
      (gone : lost = true → h = .empty ∧ filled = (changed && !ms.contains .after))
      (still : lost = false → changed = false → h = .lone ns ∧ filled = true)
      (last_change : lost = false → changed = true → .after ∈ ms → filled = false) :
      Toggles known ns (.recorded n lost changed) ms s

section Toggle

variable {known : Bool} {ns : List String} {n : Nat} {filled lost changed : Bool}

theorem missed_loneIf (hns : Frame.Named ns) {r : SlotRecord}
    (hpath : Frame.pathOf ns ∈ r.seen.map (·.1)) (filled : Bool) :
    r.missed (.loneIf ns filled) = [] := by
  refine SlotRecord.missed_eq_nil.mpr (Or.inr fun x hx => ?_)
  cases filled with
  | false => cases hx
  | true =>
    rw [Frame.leaves_lone hns hx]
    exact hpath

/-- At the end of an order that is not safe, the slot is there again and counts as kept. -/
theorem Toggles.spoils_nil (hns : Frame.Named ns) {stage : Stage}
    (h : Toggles known ns stage [] s) (hrisk : stage.safe known [] = false) :
    Spoils l e name .empty s [] := by
  cases h with
  | quiet => cases hrisk
  | @recorded n lost changed filled _ _ h path watches last absent table gone still last_change =>
    obtain ⟨rfl, rfl⟩ : lost = true ∧ changed = true := by simpa [Stage.safe] using hrisk
    obtain ⟨rfl, rfl⟩ := gone rfl
    refine ⟨[], ⟨rfl, ?_, ?_⟩, ?_, ?_⟩
    · intro t ht
      cases ht
    · intro t ht
      cases ht
    · intro hnil
      rw [show s.record.seen = [] from hnil] at path
      cases path
    · have hkept : ∀ x ∈ s.record.seen, x.2 = Frame.empty.seenAt x.1 := by
        intro x hx
        obtain ⟨hnone, ms, hms, hpath⟩ := absent x hx
        rw [hnone, hpath, Frame.seenAt_of_none hms (Frame.getAt_empty ms)]
      have hmissed : s.record.missed s.table = [] := by
        rw [table]
        exact missed_loneIf hns path _
      show s.undone ≠ .empty
      rw [undone_of_missed hmissed, last, Option.getD_some, undoPatches_eq_nil hkept, table]
      exact Frame.setAt_ne_empty _ hns.1 .empty

/-- Announcing the table changes nothing once something is recorded. -/
theorem Toggles.before (h : Toggles known ns (.recorded n lost changed) (.before :: ms) s) :
    Toggles known ns (.recorded n lost changed) ms ⟨s.table, s.record.announce s.table⟩ := by
  cases h with
  | recorded path watches last absent table gone still last_change =>
    have hseen : s.record.seen ≠ [] := by
      intro hnil
      rw [hnil] at path
      cases path
    rw [SlotRecord.announce_of_seen hseen]
    refine .recorded path watches last absent table gone still ?_
    intro hlost hchanged hm
    exact last_change hlost hchanged (List.mem_cons_of_mem _ hm)

/-- The path is lost if the table changed, since then the slot was deleted. -/
theorem Toggles.after (hns : Frame.Named ns)
    (h : Toggles known ns (.recorded n lost changed) (.after :: ms) s) :
    Toggles known ns (.recorded (n - 1) (lost || changed) false) ms
      ⟨s.table, s.record.finish l e name s.table⟩ := by
  cases h with
  | @recorded _ _ _ filled _ _ h path watches last absent table gone still last_change =>
    have hseen : s.record.seen ≠ [] := by
      intro hnil
      rw [hnil] at path
      cases path
    have hmissed : s.record.missed s.table = [] := by
      rw [table]
      exact missed_loneIf hns path _
    rw [SlotRecord.finish_of_seen hseen, hmissed, List.append_nil]
    refine .recorded path (congrArg (· - 1) watches) rfl absent table ?_ ?_ ?_
    · intro hor
      have hfilled : filled = false := by
        cases lost with
        | true => simpa using (gone rfl).2
        | false => exact last_change rfl (by simpa using hor) List.mem_cons_self
      subst hfilled
      exact ⟨table, rfl⟩
    · intro hor _
      obtain ⟨hlost, hchanged⟩ := Bool.or_eq_false_iff.mp hor
      have hfilled := (still hlost hchanged).2
      subst hfilled
      exact ⟨table, rfl⟩
    · intro _ hchanged
      cases hchanged

/-- The slot is written if the change is the last one that matters. -/
theorem Toggles.change (hns : Frame.Named ns)
    (h : Toggles known ns (.recorded n lost changed) (.change :: ms) s) :
    Toggles known ns (.recorded n lost true) ms
      ⟨(SlotEdit.toLoneIf ns (!ms.contains .after)).apply s.table, s.record⟩ := by
  cases h with
  | recorded path watches last absent table gone still last_change =>
    rw [table, SlotEdit.apply_toLoneIf hns]
    refine .recorded path watches last absent rfl (fun hlost => ⟨(gone hlost).1, rfl⟩) ?_ ?_
    · intro _ hchanged
      cases hchanged
    · intro _ _ hm
      simp [hm]

variable {b : Book P} {p : Param P}

/-- If nothing is recorded when the change is said to be done, the path is recorded, from
    the table or from the log. -/
theorem Toggles.unannounced (hns : Frame.Named ns)
    (hlog : ∀ op ∈ b.undo.past, Book.PathsNamed op.entries e p.name)
    (hvalues : ∀ path v, b.undo.lastKnown e p.name (some path) ≠ some (.value v))
    (hknown : known = !(b.undo.knownPaths e p.name).isEmpty)
    (hpath : known = true → Frame.pathOf ns ∈ b.undo.knownPaths e p.name)
    (h : Toggles known ns (.quiet n filled) (.after :: ms) s)
    (hrisk : (Stage.quiet n filled).safe known (.after :: ms) = false) :
    ∃ stage, Toggles known ns stage ms ⟨s.table, s.record.finish b.undo e p.name s.table⟩ ∧
      stage.safe known ms = false := by
  cases h with
  | quiet seen watches table safe =>
    have htidy : s.table.Tidy := by
      rw [table]
      cases filled with
      | true => exact Frame.tidy_lone hns
      | false => trivial
    rw [SlotRecord.finish_of_unseen seen]
    unfold Stage.safe at hrisk
    by_cases hsome : (filled || known) = true
    · rw [if_pos hsome] at hrisk
      refine ⟨.recorded n known false, ?_, hrisk⟩
      -- If the log knows paths, then the table is empty: else another stage went wrong.
      have hempty : known = true → filled = false := by
        intro hk
        refine Bool.eq_false_iff.mpr fun hfilled => ?_
        have hsafe := safe hfilled
        unfold Stage.safe at hsafe
        rw [if_pos (by simp [hk]), hrisk] at hsafe
        cases hsafe
      refine .recorded (h := s.table) ?_ watches rfl ?_ table ?_ ?_ ?_
      · refine (mem_paths_seenBefore _ _ _ _ _).mpr ?_
        by_cases hk : known = true
        · exact Or.inr (hpath hk)
        · have hfilled : filled = true := by simpa [hk] using hsome
          left
          rw [table, hfilled, Frame.leaves_eq, List.map_map]
          refine List.mem_map.mpr ⟨(ns, .frame .empty), ?_, rfl⟩
          refine (Frame.mem_leafList (Frame.tidy_lone hns)).mpr ?_
          rw [Frame.leafAt_lone hns, if_pos rfl]
      · intro x hx
        exact ⟨Book.absent_of_mem_seenBefore hvalues hx,
          Book.named_of_mem_seenBefore (show Frame.empty.Tidy from trivial) htidy hlog hx⟩
      · intro hk
        have hfilled := hempty hk
        rw [hfilled] at table ⊢
        exact ⟨table, rfl⟩
      · intro hk _
        have hfilled : filled = true := by simpa [hk] using hsome
        rw [hfilled] at table ⊢
        exact ⟨table, rfl⟩
      · intro _ hchanged
        cases hchanged
    · rw [if_neg hsome] at hrisk
      obtain ⟨hfilled, hk⟩ := Bool.or_eq_false_iff.mp (Bool.eq_false_iff.mpr hsome)
      refine ⟨.quiet n false, ?_, hrisk⟩
      rw [hfilled] at table
      have hnone : b.undo.knownPaths e p.name = [] := by simpa [hk] using hknown
      refine .quiet (seenBefore_eq_nil.mpr ⟨by rw [table]; rfl, hnone⟩) watches table ?_
      intro h
      cases h

/-- An order that is not safe is spoiled by one slot, or by a new one that nothing is
    watching for. -/
theorem Toggles.spoils (hns : Frame.Named ns)
    (hlog : ∀ op ∈ b.undo.past, Book.PathsNamed op.entries e p.name)
    (hvalues : Mark.after ∈ ms →
      ∀ path v, b.undo.lastKnown e p.name (some path) ≠ some (.value v))
    (hknown : known = !(b.undo.knownPaths e p.name).isEmpty)
    (hpath : known = true → Frame.pathOf ns ∈ b.undo.knownPaths e p.name) {stage : Stage}
    (h : Toggles known ns stage ms s) (hrisk : stage.safe known ms = false) :
    Spoils b.undo e p.name .empty s ms := by
  induction ms generalizing stage s with
  | nil => exact h.spoils_nil hns hrisk
  | cons m rest ih =>
    have ih {stage : Stage} {s : SlotState} (h : Toggles known ns stage rest s)
        (hrisk : stage.safe known rest = false) : Spoils b.undo e p.name .empty s rest :=
      ih (fun hm => hvalues (List.mem_cons_of_mem m hm)) h hrisk
    cases stage with
    | quiet n filled =>
      cases m with
      | before =>
        cases h with
        | quiet seen watches table safe =>
          cases filled with
          | true =>
            refine spoils_announced (table ▸ Frame.tidy_lone hns) ?_ seen
            rw [table]
            exact Frame.setAt_ne_empty _ hns.1 .empty
          | false =>
            refine Spoils.before (ih ?_ hrisk)
            have hrecord : s.record.announce s.table = { seen := [], watches := n + 1 } := by
              unfold SlotRecord.announce
              rw [if_pos (by simp [seen]), watches, table]
              rfl
            rw [hrecord]
            refine .quiet rfl rfl table ?_
            intro h
            cases h
      | after =>
        obtain ⟨stage', h', hrisk'⟩ :=
          h.unannounced hns hlog (hvalues List.mem_cons_self) hknown hpath hrisk
        exact Spoils.after (ih h' hrisk')
      | change =>
        cases h with
        | quiet seen watches table _ =>
          have hchange (filled' : Bool) (hsafe : filled' = true →
                (Stage.quiet n false).safe known rest = true)
              (hrisk' : (Stage.quiet n filled').safe known rest = false) :
              Spoils b.undo e p.name .empty s (.change :: rest) := by
            refine Spoils.change (SlotEdit.sound_toLoneIf ns filled') (ih ?_ hrisk')
            refine .quiet seen watches ?_ hsafe
            show (SlotEdit.toLoneIf ns filled').apply s.table = _
            rw [table, SlotEdit.apply_toLoneIf hns]
          by_cases hempty : (Stage.quiet n false).safe known rest = true
          · refine hchange true (fun _ => hempty) ?_
            unfold Stage.safe at hrisk
            rwa [hempty, Bool.true_and] at hrisk
          · refine hchange false (fun h => ?_) (Bool.eq_false_iff.mpr hempty)
            cases h
    | recorded n lost changed =>
      cases m with
      | before => exact Spoils.before (ih h.before hrisk)
      | after => exact Spoils.after (ih (h.after hns) hrisk)
      | change =>
        by_cases hn : 0 < n
        · refine Spoils.change (SlotEdit.sound_toLoneIf ns _) (ih (h.change hns) ?_)
          unfold Stage.safe at hrisk
          rwa [decide_eq_true hn, Bool.true_and] at hrisk
        · cases h with
          | recorded path watches last absent =>
            refine spoils_unwatched (show Frame.empty.Tidy from trivial) ?_
              (fun x hx => (absent x hx).2) (by omega)
            intro hnil
            rw [hnil] at path
            cases path

/-- Every order that is not safe for an empty table is spoiled by some operation. -/
theorem spoils_of_not_safe (hlog : ∀ op ∈ b.undo.past, Book.PathsNamed op.entries e p.name)
    (hvalues : Mark.after ∈ ms →
      ∀ path v, b.undo.lastKnown e p.name (some path) ≠ some (.value v))
    (hrisk : (Stage.quiet 0 false).safe (!(b.undo.knownPaths e p.name).isEmpty) ms = false) :
    Spoils b.undo e p.name .empty { table := .empty } ms := by
  -- The slot has a path that the log knows, if there is one.
  obtain ⟨ns, hns, hpath⟩ : ∃ ns, Frame.Named ns ∧
      ((!(b.undo.knownPaths e p.name).isEmpty) = true →
        Frame.pathOf ns ∈ b.undo.knownPaths e p.name) := by
    cases hpaths : b.undo.knownPaths e p.name with
    | nil => exact ⟨["slot"], by unfold Frame.Named; decide, fun h => by cases h⟩
    | cons path rest =>
      obtain ⟨ns, hns, hname⟩ := Book.named_of_mem_knownPaths hlog (hpaths ▸ List.mem_cons_self)
      exact ⟨ns, hns, fun _ => hname ▸ List.mem_cons_self⟩
  refine Toggles.spoils hns hlog hvalues rfl hpath ?_ hrisk
  refine .quiet rfl rfl rfl ?_
  intro h
  cases h

end Toggle

/-! ### Tables that had slots -/

section Held

variable {b : Book P} {p : Param P}

/-- A slot that is written after the change was said to be done stays. -/
theorem spoils_after (hf : f.Tidy) (hseen : s.record.seen ≠ [])
    (hnamed : ∀ x ∈ s.record.seen, ∃ ns, Frame.Named ns ∧ x.1 = Frame.pathOf ns)
    (hwatches : s.record.watches = 0) (hchange : Mark.change ∈ ms) : Spoils l e name f s ms := by
  induction ms generalizing s with
  | nil => cases hchange
  | cons m rest ih =>
    cases m with
    | change => exact spoils_unwatched hf hseen hnamed hwatches
    | before =>
      have hlater := (List.mem_cons.mp hchange).resolve_left (by decide)
      refine Spoils.before ?_
      rw [SlotRecord.announce_of_seen hseen]
      exact ih hseen hnamed hwatches hlater
    | after =>
      have hlater := (List.mem_cons.mp hchange).resolve_left (by decide)
      have hmissed : s.record.missed s.table = [] := SlotRecord.missed_eq_nil.mpr (Or.inl hwatches)
      refine Spoils.after ?_
      rw [SlotRecord.finish_of_seen hseen, hmissed, List.append_nil]
      exact ih hseen hnamed (by simp [hwatches]) hlater

/-- So an order with a change after its change was said to be done is spoiled. -/
theorem spoils_of_change_after (hf : f.Tidy) (hne : f.leaves ≠ [])
    (hlog : ∀ op ∈ b.undo.past, Book.PathsNamed op.entries e p.name) (htable : s.table = f)
    (hrecord : s.record.seen = [] ∧ s.record.watches = 0 ∨
      s.record.seen = (f.leaves.map fun x => (x.1, .value x.2.text)) ∧ s.record.watches = 1)
    (horder : Mark.change ∈ ms.dropWhile (· ≠ .after)) : Spoils b.undo e p.name f s ms := by
  have hleaves : ∀ x ∈ f.leaves.map fun x => (x.1, Capture.value x.2.text),
      ∃ ns, Frame.Named ns ∧ x.1 = Frame.pathOf ns := by
    intro x hx
    obtain ⟨y, hy, rfl⟩ := List.mem_map.mp hx
    obtain ⟨ns, hns, hpath, _⟩ := exists_names_of_mem_leaves hf hy
    exact ⟨ns, hns, hpath⟩
  induction ms generalizing s with
  | nil => cases horder
  | cons m rest ih =>
    cases m with
    | change =>
      refine Spoils.cons (t := .change []) (ih htable hrecord horder) rfl ?_
      intro xs heq x hx
      cases heq
      cases hx
    | before =>
      refine Spoils.before (ih htable (Or.inr ?_) horder)
      rcases hrecord with ⟨hseen, hwatches⟩ | ⟨hseen, hwatches⟩
      · unfold SlotRecord.announce
        rw [if_pos (by simp [hseen]), htable, hwatches]
        exact ⟨rfl, rfl⟩
      · have hsome : s.record.seen ≠ [] := by
          rw [hseen]
          exact fun hnil => hne (List.map_eq_nil_iff.mp hnil)
        rw [SlotRecord.announce_of_seen hsome]
        exact ⟨hseen, hwatches⟩
    | after =>
      have hlater : Mark.change ∈ rest := by
        rw [List.dropWhile_cons_of_neg (by simp)] at horder
        exact (List.mem_cons.mp horder).resolve_left (by decide)
      refine Spoils.after ?_
      rcases hrecord with ⟨hseen, hwatches⟩ | ⟨hseen, hwatches⟩
      · rw [SlotRecord.finish_of_unseen hseen, htable]
        refine spoils_after hf ?_ ?_ hwatches hlater
        · exact fun hnil => hne (seenBefore_eq_nil.mp hnil).1
        · intro x hx
          exact Book.named_of_mem_seenBefore (show Frame.empty.Tidy from trivial) hf hlog hx
      · have hsome : s.record.seen ≠ [] := by
          rw [hseen]
          exact fun hnil => hne (List.map_eq_nil_iff.mp hnil)
        have hmissed : s.record.missed s.table = [] := by
          refine SlotRecord.missed_eq_nil.mpr (Or.inr fun x hx => ?_)
          rw [hseen, List.map_map]
          exact List.mem_map_of_mem (htable ▸ hx)
        rw [SlotRecord.finish_of_seen hsome, hmissed, List.append_nil]
        refine spoils_after hf hsome ?_ (by simp [hwatches]) hlater
        rw [hseen]
        exact hleaves

end Held

end SlotState

end EntityBook
