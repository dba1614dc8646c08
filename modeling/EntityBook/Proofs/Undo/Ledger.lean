import EntityBook.Proofs.Undo.Timeline
import EntityBook.Proofs.Undo.ValueRun
import EntityBook.Proofs.Undo.Zipper

/-! # The log knows the live value

  A ledger is a run in which a value is changed in operations only, each of which says so in
  the right order. Between operations, and with undo and redo at any time, what the applied
  operations captured last of the value is then its text, as long as the entity has not been
  deleted since.

  The invariant is that the log is a history that leads to the present value, or to the
  value at which the open operation was opened.
-/

namespace EntityBook

variable {P : PayloadFamily}

/-- Calls that write a parameter and record nothing. -/
def Call.isWrite (e : Entity) (name : String) : Call P → Bool
  | .write x n _ | .writeText x n _ => x == e && n == name
  | _ => false

namespace Book

/-! ### Ledgers -/

/-- Where a ledger stands. -/
inductive Stand where
  /-- Between operations. -/
  | outside
  /-- In a phase of an operation that was opened at a value, given the value that undo of it
      is to bring back. -/
  | inside (opened first : Option ParamValue) (ph : Phase)

/-- Nothing is lost if the open operation is dropped. -/
def Stand.Settled (b : Book P) (e : Entity) (p : Param P) : Stand → Prop
  | .outside => True
  | .inside opened _ _ => b.value? e p = opened

/-- The runs in which a value changes in operations only, and every operation that changes
    it is brought to an end that tells of it. All values at the ends of operations are read
    from their texts. -/
inductive Ledger (e : Entity) (p : Param P) : Book P → Stand → Prop where
  /-- A book that records and accepts every commit, in whose log nothing is about the
      entity yet. -/
  | start {b : Book P} (watches : b.Watches e p)
      (fresh : ∀ op ∈ b.undo.operations, Elsewhere e op.entries)
      (bounded : b.undo.operations.length ≤ b.config.undoLimit)
      (reads : p.ReadsBack (b.value? e p)) : Ledger e p b .outside
  /-- Between operations anything else may be done. -/
  | other {b : Book P} (run : Ledger e p b .outside) {c : Call P}
      (balanced : c.isBalanced = true) (leaves : Leaves e p b (b.call c)) :
      Ledger e p (b.call c) .outside
  /-- An operation that is open already is dropped. -/
  | opened {b : Book P} {stand : Stand} (run : Ledger e p b stand) (settled : stand.Settled b e p)
      (label : String) : Ledger e p (b.startOperation label)
        (.inside (b.value? e p) (b.value? e p) (if b.contains e then .untouched else .away))
  | step {b : Book P} {opened first : Option ParamValue} {ph ph' : Phase} {c : Call P}
      (run : Ledger e p b (.inside opened first ph)) (advances : b.Advances e p first ph c ph') :
      Ledger e p (b.call c) (.inside opened first ph')
  /-- While neither the applied operations nor the open one hold anything of the value, undo
      may as well bring back the present one. -/
  | adopted {b : Book P} {opened first : Option ParamValue} {ph : Phase}
      (run : Ledger e p b (.inside opened first ph)) (bare : ph.isBare = true)
      (mute : Mute e p.name b.undo.past)
      (uncovered : ∀ o, b.undo.recording = some o → cell o.baseline e p.name = [])
      (reads : p.ReadsBack (b.value? e p)) :
      Ledger e p b (.inside opened (b.value? e p) .untouched)
  /-- If the entity was made, that has been recorded, and if another value was adopted, the
      operation has entries. -/
  | closed {b : Book P} {opened first : Option ParamValue} {ph : Phase}
      (run : Ledger e p b (.inside opened first ph)) (closes : ph.closes = true)
      (made : ∀ o, b.undo.recording = some o →
        (UndoEntry.created e ∈ o.entries ↔ first = none ∧ ph ≠ .away))
      (kept : first = opened ∨ b.endOperation.1 = true)
      (reads : p.ReadsBack (b.value? e p)) : Ledger e p b.endOperation.2 .outside
  /-- Undo at any time, whether there is something to undo or not. -/
  | undo {b : Book P} {stand : Stand} (run : Ledger e p b stand) (settled : stand.Settled b e p) :
      Ledger e p b.undoLast.2 .outside
  /-- Redo at any time. -/
  | redo {b : Book P} {stand : Stand} (run : Ledger e p b stand) (settled : stand.Settled b e p) :
      Ledger e p b.redoNext.2 .outside

/-! ### What a ledger keeps -/

/-- The log of a book is a history that leads to a value, and on from it. -/
structure Kept (b : Book P) (e : Entity) (p : Param P) (w : Option ParamValue) : Prop where
  watches : b.Watches e p
  remembers : b.Remembers e p w
  reads : p.ReadsBack w
  bounded : b.undo.operations.length ≤ b.config.undoLimit

/-- An operation is open. The log leads to the value at which it was opened, and to the one
    that undo of it is to bring back. -/
structure Underway (b : Book P) (e : Entity) (p : Param P) (opened first : Option ParamValue)
    (ph : Phase) : Prop where
  kept : b.Kept e p opened
  past : ∃ oldest, b.History e p oldest b.undo.past first
  reads : p.ReadsBack first
  traced : b.IsTraced e p first ph

/-- The invariant of a ledger. -/
def Stand.Holds (b : Book P) (e : Entity) (p : Param P) : Stand → Prop
  | .outside => b.Kept e p (b.value? e p)
  | .inside opened first ph => b.Underway e p opened first ph

section Steps

variable {b b' : Book P} {e : Entity} {p : Param P} {opened first : Option ParamValue}
  {ph ph' : Phase} {c : Call P} {w : Option ParamValue}

theorem Kept.of_sameLog (h : b.Kept e p w) (hs : b'.Steady) (hlog : b.SameLog b') :
    b'.Kept e p w where
  watches := h.watches.of_sameLog hs hlog
  remembers := hlog.remembers h.remembers
  reads := h.reads
  bounded := by
    rw [hlog.operations, hlog.config]
    exact h.bounded

/-- A step of an operation keeps what it is to bring back. -/
theorem Underway.step (h : b.Underway e p opened first ph) (hstep : b.Advances e p first ph c ph') :
    b.SameLog (b.call c) ∧ (b.call c).Underway e p opened first ph' := by
  obtain ⟨oldest, hpast⟩ := h.past
  obtain ⟨hbalanced, hlog, ht⟩ := hstep.preserves h.kept.watches hpast h.reads h.traced
  refine ⟨hlog, h.kept.of_sameLog (h.kept.watches.steady.call hbalanced) hlog, ?_, h.reads, ht⟩
  exact ⟨oldest, hlog.past ▸ hpast.of_setup hlog.toSameSetup⟩

/-- As long as nothing is held of the value, another one may be adopted. -/
theorem Underway.adopt (h : b.Underway e p opened first ph) (hbare : ph.isBare = true)
    (hmute : Mute e p.name b.undo.past)
    (huncovered : ∀ o, b.undo.recording = some o → cell o.baseline e p.name = [])
    (hreads : p.ReadsBack (b.value? e p)) :
    b.Underway e p opened (b.value? e p) .untouched where
  kept := h.kept
  past := by
    obtain ⟨oldest, hpast⟩ := h.past
    exact ⟨_, h.kept.watches.history_of_mute hmute hpast.fits hreads⟩
  reads := hreads
  traced := h.traced.adopt h.kept.watches hbare huncovered hreads

/-- An operation that was just opened. -/
theorem Kept.startOperation (h : b.Kept e p (b.value? e p)) (label : String) :
    b.SameLog (b.startOperation label) ∧ (b.startOperation label).Underway e p (b.value? e p)
      (b.value? e p) (if b.contains e then .untouched else .away) := by
  unfold Book.startOperation
  rw [if_pos h.watches.enabled]
  have hlog := SameLog.setRecording b (some { label })
  have hkept := h.of_sameLog (h.watches.steady.setRecording _) hlog
  refine ⟨hlog, hkept, hkept.remembers.past, h.reads, ?_⟩
  refine IsTraced.setRecording (b := b)
    ⟨?_, ?_, ?_, ?_, ?_, ?_, fun _ => Or.inl rfl, fun _ => rfl, ?_⟩
  · cases hi : b.get? e with
    | none =>
      rw [h.watches.get?_eq_none.mp hi, if_neg (by rw [contains_of_none hi]; simp)]
      exact .away rfl
    | some i =>
      obtain ⟨hvalue, _⟩ := h.watches.exists_value hi
      rw [if_pos (contains_of_some hi), hvalue]
      exact .untouched (Or.inl rfl) (h.reads _ hvalue)
  · split <;> simp
  · intro c hc
    cases hc
  · intro x hx
    cases hx
  · intro u hu
    cases hu
  · intro c hc
    cases hc
  · intro _ c hc
    cases hc

/-- Without entries the value is the one at first. -/
theorem Traces.value?_of_nil {o : OpenOperation P} (h : b.Traces e p first ph o)
    (hph : ph.closes = true) (hnil : o.entries = [])
    (hmade : UndoEntry.created e ∈ o.entries ↔ first = none ∧ ph ≠ .away) :
    b.value? e p = first := by
  have hholding := h.holding
  rw [hnil] at hholding hmade
  generalize b.value? e p = w at hholding ⊢
  generalize hcs : cell ([] : List (UndoEntry P)) e p.name = cs at hholding
  cases hholding with
  | unrecorded | outdated | doomed => cases hph
  | announced | recorded | assumed => cases hcs
  | away absent => exact absent.symm
  | untouched starts =>
    rcases starts with rfl | ⟨rfl, _⟩
    · rfl
    · exact absurd (hmade.mpr ⟨rfl, by simp⟩) List.not_mem_nil
  | gone =>
    have hmem := h.deleted.mpr (Or.inr rfl)
    rw [hnil] at hmem
    cases hmem

/-- The log after a commit: the baseline leads from the value at first to itself, and the
    operation on to the present one. -/
theorem Underway.history_committedLog (h : b.Underway e p opened first ph) {o : OpenOperation P}
    (ht : b.Traces e p first ph o) (hph : ph.closes = true) {entries : List (UndoEntry P)}
    (hleads : b.Leads e p entries first w) :
    (∃ oldest, b.History e p oldest (committedLog b.undo b.config o entries).past w) ∧
      (committedLog b.undo b.config o entries).future = [] := by
  obtain ⟨oldest, hpast⟩ := h.past
  unfold committedLog
  dsimp only
  split
  · exact History.push (l := { b.undo with recording := none }) hpast ⟨o.label, entries⟩ hleads _
  · have hne : ph ≠ .unrecorded := by
      rintro rfl
      cases hph
    have hbase := ht.leads_baseline h.kept.watches hne h.reads
    obtain ⟨⟨oldest', hpast'⟩, _⟩ := History.push (l := { b.undo with recording := none }) hpast
      ⟨b.config.baselineLabel, o.baseline⟩ hbase b.config.undoLimit
    exact hpast'.push ⟨o.label, entries⟩ hleads _

/-- The end of an operation. If it is committed, it is the last in the log, and undo brings
    back the value at first. -/
theorem Underway.endOperation (h : b.Underway e p opened first ph) (hph : ph.closes = true)
    (hmade : ∀ o, b.undo.recording = some o →
      (UndoEntry.created e ∈ o.entries ↔ first = none ∧ ph ≠ .away))
    (hkept : first = opened ∨ b.endOperation.1 = true) (hreads : p.ReadsBack (b.value? e p)) :
    b.endOperation.2.value? e p = b.value? e p ∧ b.endOperation.2.Kept e p (b.value? e p) ∧
      (b.endOperation.1 = true → 0 < b.config.undoLimit →
        b.endOperation.2.undoLast.1 = true ∧ b.endOperation.2.undoLast.2.value? e p = first) := by
  have hw := h.kept.watches
  obtain ⟨o, ho, ht⟩ := h.traced
  by_cases hnil : b.addNewSlots o.entries o.watched = []
  · rw [endOperation_of_nil ho hnil] at hkept ⊢
    obtain ⟨more, hmore, _⟩ := exists_addNewSlots_eq hw o.entries ht.watched
    have hnone : o.entries = [] := (List.append_eq_nil_iff.mp (hmore.symm.trans hnil)).1
    have hsame := ht.value?_of_nil hph hnone (hmade o ho)
    have hopened : first = opened := hkept.resolve_right (by simp)
    refine ⟨rfl, ?_, ?_⟩
    · rw [hsame, hopened]
      exact h.kept.of_sameLog (hw.steady.setRecording none) (.setRecording b none)
    · intro hbad
      cases hbad
  · have hleads := ht.leads hw hph (hmade o ho) h.reads hreads
    rw [endOperation_of_ne_nil ho hnil]
    generalize (b.addNewSlots o.entries o.watched).map b.close = entries at hleads ⊢
    obtain ⟨⟨oldest, hpast⟩, hfuture⟩ := h.history_committedLog ht hph hleads
    obtain ⟨l', _, hpush⟩ := exists_committedLog_eq_push b.undo b.config o entries
    have hset := SameSetup.withLog b (committedLog b.undo b.config o entries)
    have hsteady : (b.withLog (committedLog b.undo b.config o entries)).Steady :=
      ⟨hw.steady.wellFormed.withLog _, hw.steady.quiet⟩
    refine ⟨rfl, ⟨hw.of_setup hsteady hset, ⟨?_, ?_⟩, hreads, ?_⟩, ?_⟩
    · exact ⟨oldest, hpast.of_setup hset⟩
    · refine ⟨b.value? e p, ?_⟩
      show Book.History _ e p _ (committedLog b.undo b.config o entries).future _
      rw [hfuture]
      rfl
    · show (committedLog b.undo b.config o entries).operations.length ≤ b.config.undoLimit
      rw [hpush]
      exact UndoLog.length_push_le _ _ _
    · intro _ hlimit
      have hundone := undoLast_of_push
        (b := b.withLog (committedLog b.undo b.config o entries)) hpush hlimit
      rw [hundone]
      refine ⟨rfl, hleads.undo _ ?_ (SameSetup.withLog b _) rfl⟩
      exact ⟨hw.steady.wellFormed.of_eq rfl rfl rfl rfl, hw.steady.quiet⟩

/-- Undo and redo move the cursor and leave the operations. -/
theorem Steady.operations_undoLast (h : b.Steady) :
    b.undoLast.2.undo.operations = b.undo.operations := by
  cases hlast : b.undo.lastApplied? with
  | none => rw [undoLast_of_none hlast]
  | some op =>
    rw [undoLast_of_some hlast]
    have hc : ((b.setRecording none).setCursor (b.undo.cursor - 1)).Steady :=
      ⟨h.wellFormed.of_eq rfl rfl rfl rfl, h.quiet⟩
    obtain ⟨_, _, hundo⟩ := hc.replay op.entries .undo
    have hops := congrArg UndoLog.operations hundo
    exact hops

theorem Steady.operations_redoNext (h : b.Steady) :
    b.redoNext.2.undo.operations = b.undo.operations := by
  cases hnext : b.undo.nextUndone? with
  | none => rw [redoNext_of_none hnext]
  | some op =>
    rw [redoNext_of_some hnext]
    obtain ⟨_, _, hundo⟩ := (h.setRecording none).replay op.entries .redo
    have hops := congrArg UndoLog.operations hundo
    exact hops

/-- Undo leads to another value that the log remembers. -/
theorem Kept.undoLast (h : b.Kept e p (b.value? e p)) :
    b.undoLast.2.Kept e p (b.undoLast.2.value? e p) := by
  obtain ⟨hs, hset, w', hreads, hvalue, hrem⟩ := h.remembers.undoLast h.watches.steady rfl h.reads
  rw [hvalue]
  refine ⟨h.watches.of_setup hs hset, hrem, hreads, ?_⟩
  rw [h.watches.steady.operations_undoLast, hset.config]
  exact h.bounded

theorem Kept.redoNext (h : b.Kept e p (b.value? e p)) :
    b.redoNext.2.Kept e p (b.redoNext.2.value? e p) := by
  obtain ⟨hs, hset, w', hreads, hvalue, hrem⟩ := h.remembers.redoNext h.watches.steady rfl h.reads
  rw [hvalue]
  refine ⟨h.watches.of_setup hs hset, hrem, hreads, ?_⟩
  rw [h.watches.steady.operations_redoNext, hset.config]
  exact h.bounded

end Steps

/-- Every ledger keeps the log a history of the value. -/
theorem Ledger.holds {b : Book P} {e : Entity} {p : Param P} {stand : Stand}
    (h : Ledger e p b stand) :
    stand.Holds b e p := by
  -- What holds of an operation that may be dropped holds of the present value.
  have hdropped {b : Book P} {stand : Stand} (h : stand.Holds b e p)
      (settled : stand.Settled b e p) :
      b.Kept e p (b.value? e p) := by
    cases stand with
    | outside => exact h
    | inside opened first ph =>
      rw [show b.value? e p = opened from settled]
      exact h.kept
  -- Induction on the run; `Stand.Holds` is the invariant that carries it.
  induction h with
  | @start b watches fresh bounded reads =>
    refine ⟨watches, ⟨⟨b.value? e p, ?_⟩, ⟨b.value? e p, ?_⟩⟩, reads, bounded⟩
    · exact watches.history_of_elsewhere (fun op hop => fresh op (List.mem_of_mem_take hop)) reads
    · exact watches.history_of_elsewhere (fun op hop => fresh op (List.mem_of_mem_drop hop)) reads
  | @other b run c balanced leaves ih =>
    have hk := ih.of_sameLog (ih.watches.steady.call balanced) (.of_undo leaves.setup leaves.undo)
    show (b.call c).Kept e p ((b.call c).value? e p)
    rw [leaves.value]
    exact hk
  | opened run settled label ih => exact ((hdropped ih settled).startOperation label).2
  | step run advances ih => exact (ih.step advances).2
  | adopted run bare mute uncovered reads ih => exact ih.adopt bare mute uncovered reads
  | @closed b opened first ph run closes made kept reads ih =>
    obtain ⟨hvalue, hk, _⟩ := ih.endOperation closes made kept reads
    show b.endOperation.2.Kept e p (b.endOperation.2.value? e p)
    rw [hvalue]
    exact hk
  | undo run settled ih => exact (hdropped ih settled).undoLast
  | redo run settled ih => exact (hdropped ih settled).redoNext

/-! ### What the log knows -/

section Known

variable {b : Book P} {e : Entity} {p : Param P} {opened first : Option ParamValue} {ph : Phase}
  {v : ParamValue}

/-- What the applied operations captured last of a value is its text, if the entity was not
    deleted in the first of them that captured it or later. -/
theorem Kept.lastKnown (h : b.Kept e p (some v)) {earlier later : List (UndoOperation P)}
    {op : UndoOperation P} (hpast : b.undo.past = earlier ++ op :: later)
    (hentry : (op.entries.any fun u => u.targets e p.name) = true)
    (hlive : ∀ x ∈ op :: later, UndoEntry.deleted e ∉ x.entries) :
    b.undo.lastKnown e p.name none = some (.value v.text) := by
  obtain ⟨oldest, hhistory⟩ := h.remembers.past
  rw [hpast] at hhistory
  obtain ⟨m, _, hsince⟩ := history_append.mp hhistory
  have hne : cell ((op :: later).flatMap UndoOperation.entries) e p.name ≠ [] := by
    rw [List.flatMap_cons, cell_append]
    exact List.append_ne_nil_of_left_ne_nil (any_targets.mp hentry) _
  obtain ⟨c, hc⟩ : ∃ c, (cell ((op :: later).flatMap UndoOperation.entries) e p.name).getLast? =
      some c := ⟨_, List.getLast?_eq_some_getLast hne⟩
  obtain ⟨hpath, hafter⟩ := hsince.last hc
  rcases hafter with ⟨_, x, hx, hgone⟩ | ⟨t, ht, v', hstarts, rfl⟩
  · exact absurd hgone (hlive x hx)
  · have hsame : v' = v := hstarts.unique (Or.inl rfl)
    subst hsame
    have hlast : (cell (b.undo.past.flatMap UndoOperation.entries) e p.name).getLast? = some c := by
      rw [hpast, List.flatMap_append, cell_append, List.getLast?_append_of_ne_nil _ hne]
      exact hc
    rw [lastKnown_of_getLast? hlast hpath (by rw [ht]; simp), ht]

/-- Writes record nothing, and leave what is recorded. -/
theorem Underway.run_writes (h : b.Underway e p opened first ph) (hbare : ph.isBare = true)
    {writes : List (Call P)} (hwrites : ∀ c ∈ writes, c.isWrite e p.name = true) :
    b.SameSetup (b.run writes) ∧ (b.run writes).undo = b.undo ∧
      ∃ ph', ph'.isBare = true ∧ (b.run writes).Underway e p opened first ph' := by
  induction writes generalizing b ph with
  | nil => exact ⟨.refl b, rfl, ph, hbare, h⟩
  | cons c rest ih =>
    have hwf := h.kept.watches.steady.wellFormed
    have hown := hwrites c List.mem_cons_self
    have hrev : b.Revises (b.call c) ∧ c.isBalanced = true := by
      cases c with
      | write x n v => exact ⟨Revises.write hwf x n v, rfl⟩
      | writeText x n s => exact ⟨Revises.writeText hwf x n s, rfl⟩
      | _ => cases hown
    obtain ⟨hrev, hbalanced⟩ := hrev
    obtain ⟨o, ho, ht⟩ := h.traced
    obtain ⟨i, hi⟩ := ht.exists_get? h.kept.watches (Phase.ne_of_isBare hbare)
    obtain ⟨j, hj, _⟩ := hrev.live hi
    have hnext : ph.change? = some .unrecorded := by
      cases ph <;> first | rfl | cases hbare
    have hset : b.SameSetup (b.call c) := .of_revises hrev
    obtain ⟨_, hstep⟩ := h.step (.change hbalanced hset hrev.undo (contains_of_some hj) hnext)
    obtain ⟨hset', hundo, hrun⟩ := ih hstep rfl fun x hx => hwrites x (List.mem_cons_of_mem _ hx)
    exact ⟨hset.trans hset', hundo.trans hrev.undo, hrun⟩

/-- An operation that recorded something of the value is committed. -/
theorem Underway.committed (h : b.Underway e p opened first .recorded) :
    b.endOperation.1 = true := by
  obtain ⟨o, ho, ht⟩ := h.traced
  have hne : o.entries ≠ [] := by
    have hholding := ht.holding
    intro hnil
    rw [hnil] at hholding
    generalize hcs : cell ([] : List (UndoEntry P)) e p.name = cs at hholding
    generalize b.value? e p = w at hholding
    cases hholding with
    | recorded => cases hcs
  obtain ⟨more, hmore, _⟩ := exists_addNewSlots_eq h.kept.watches o.entries ht.watched
  rw [endOperation_of_ne_nil ho (by rw [hmore]; exact List.append_ne_nil_of_left_ne_nil hne _)]

/-- A log that holds an operation has room for one. -/
theorem Kept.limit_pos {w : Option ParamValue} (h : b.Kept e p w) (hpast : b.undo.past ≠ []) :
    0 < b.config.undoLimit := by
  have hfits : b.undo.past.length ≤ b.undo.operations.length := List.length_take_le' _ _
  exact Nat.lt_of_lt_of_le (List.length_pos_iff.mpr hpast) (hfits.trans h.bounded)

/-- An operation that only writes a value that the log knows, and then has it recorded, is
    committed, and undo of it brings the value back. -/
theorem Kept.unannounced_undone (h : b.Kept e p (some v)) (hv : b.value? e p = some v)
    (hknown : b.undo.lastKnown e p.name none = some (.value v.text))
    (hlimit : 0 < b.config.undoLimit) (label : String) {writes : List (Call P)}
    (hwrites : ∀ c ∈ writes, c.isWrite e p.name = true)
    (hreads : p.ReadsBack (((b.startOperation label).run writes).value? e p)) :
    let c := (((b.startOperation label).run writes).recordAfter e p.name).2.endOperation
    c.1 = true ∧ c.2.undoLast.1 = true ∧ c.2.undoLast.2.value? e p = some v := by
  have hthere : b.contains e = true := by
    obtain ⟨i, hi, _⟩ := value?_eq_some.mp hv
    exact contains_of_some hi
  obtain ⟨hlog, hopen⟩ := Kept.startOperation (hv ▸ h) label
  have hempty : (b.startOperation label).undo.recording = some { label } := by
    unfold Book.startOperation
    rw [if_pos h.watches.enabled]
    rfl
  rw [hthere, if_pos rfl, hv] at hopen
  obtain ⟨hset, hundo, ph, hbare, hwritten⟩ := hopen.run_writes rfl hwrites
  generalize (b.startOperation label).run writes = b' at hset hundo hwritten hreads ⊢
  have hlog := hlog.trans (.of_undo hset hundo)
  obtain ⟨o, ho, ht⟩ := hwritten.traced
  obtain ⟨_, hrecorded⟩ :=
    hwritten.step (.after (Or.inr ⟨hbare, _, (hlog.lastKnown ..).trans hknown⟩))
  have hrecorded : (b'.recordAfter e p.name).2.Underway e p (some v) (some v) .recorded := hrecorded
  -- The entity was not made in the operation.
  have hmade : ∀ x, (b'.recordAfter e p.name).2.undo.recording = some x →
      (UndoEntry.created e ∈ x.entries ↔ some v = none ∧ Phase.recorded ≠ .away) := by
    obtain ⟨o', ho', hcreated⟩ :=
      ht.created_recordAfter hwritten.kept.watches ho (Phase.ne_of_isBare hbare)
    have hnew : o = { label } := Option.some.inj (ho.symm.trans ((congrArg _ hundo).trans hempty))
    intro x hx
    cases ho'.symm.trans hx
    simp [hcreated, hnew]
  obtain ⟨r, hr⟩ := b'.exists_recordAfter_eq e p.name
  have hreads : p.ReadsBack ((b'.recordAfter e p.name).2.value? e p) := by
    rw [hr]
    exact hreads
  have hlimit : 0 < (b'.recordAfter e p.name).2.config.undoLimit := by
    rw [hr]
    exact hlog.config ▸ hlimit
  obtain ⟨_, _, hundone⟩ := hrecorded.endOperation rfl hmade (Or.inl rfl) hreads
  obtain ⟨hdone, hback⟩ := hundone hrecorded.committed hlimit
  exact ⟨hrecorded.committed, hdone, hback⟩

/-- Between operations of a ledger, if some applied operation has an entry about a value and
    the entity was deleted neither in it nor later, then the applied operations captured last
    the text of the present value. So an operation that only writes the value and then has it
    recorded, without announcing it, is committed, and undo of it brings the value back. -/
theorem log_knows_live_value (h : Ledger e p b .outside) {earlier later : List (UndoOperation P)}
    {op : UndoOperation P} (hpast : b.undo.past = earlier ++ op :: later)
    (hentry : (op.entries.any fun u => u.targets e p.name) = true)
    (hlive : ∀ x ∈ op :: later, UndoEntry.deleted e ∉ x.entries) (hv : b.value? e p = some v) :
    b.undo.lastKnown e p.name none = some (.value v.text) ∧
    ∀ (label : String) (writes : List (Call P)), (∀ c ∈ writes, c.isWrite e p.name = true) →
      p.ReadsBack (((b.startOperation label).run writes).value? e p) →
      let c := (((b.startOperation label).run writes).recordAfter e p.name).2.endOperation
      c.1 = true ∧ c.2.undoLast.1 = true ∧ c.2.undoLast.2.value? e p = some v := by
  have hk : b.Kept e p (some v) := hv ▸ h.holds
  have hknown := hk.lastKnown hpast hentry hlive
  have hlimit := hk.limit_pos (by rw [hpast]; simp)
  exact ⟨hknown, fun label writes hwrites hreads =>
    hk.unannounced_undone hv hknown hlimit label hwrites hreads⟩

end Known

/-- A string is read from its text. -/
theorem readsBack_of_string {p : Param P} (hp : p.kind = .scalar .string) (b : Book P) (e : Entity) :
    p.ReadsBack (b.value? e p) := by
  intro v hv
  obtain ⟨i, _, hvalue⟩ := value?_eq_some.mp hv
  have hkind : v.HasKind p.kind := Instance.hasKind_value hvalue
  rw [hp] at hkind ⊢
  cases v with
  | scalar k s =>
    cases hkind
    simp [ParamValue.parse, ParamValue.read, ParamValue.text, ParamValue.chars, ScalarKind.read,
      ScalarKind.chars, Except.map]
  | _ => cases hkind

/-! ### A ledger of labels -/

section Nodes

open Bag

/-- Whether an entity was made is seen from the entries of the open operation. -/
theorem made_iff_of_recording {b : Book P} {e : Entity} {first : Option ParamValue} {ph : Phase}
    (h : (b.undo.recording.all fun o =>
      decide (e ∈ entitiesOf o.entries .delete) == (first.isNone && ph != .away)) = true) :
    ∀ o, b.undo.recording = some o →
      (UndoEntry.created e ∈ o.entries ↔ first = none ∧ ph ≠ .away) := by
  intro o ho
  rw [ho] at h
  have heq : decide (e ∈ entitiesOf o.entries .delete) = (first.isNone && ph != .away) :=
    beq_iff_eq.mp h
  calc UndoEntry.created e ∈ o.entries
      ↔ e ∈ entitiesOf o.entries .delete := mem_entitiesOf_delete.symm
    _ ↔ (first.isNone && ph != .away) = true := by rw [← heq, decide_eq_true_iff]
    _ ↔ first = none ∧ ph ≠ .away := by simp

/-- A node is made and labelled. Then it is labelled anew, and that is undone. -/
def relabelled : Book bags :=
  (emptyBook 1).run [.startOperation "draft", .create "node" (node 1).guid, .recordCreate (node 1),
    .modify (node 1) "label" "draft", .endOperation, .startOperation "revise",
    .modify (node 1) "label" "final", .endOperation, .undo]

theorem watches_emptyBook : (emptyBook 1).Watches (node 1) nodeLabel where
  steady := steady_emptyBook 1
  lawful := isLawful_nodes
  enabled := rfl
  accepting _ _ := rfl
  param := rfl
  value := rfl

theorem ledger_relabelled : Ledger (node 1) nodeLabel relabelled .outside := by
  have hreads (b : Book bags) : nodeLabel.ReadsBack (b.value? (node 1) nodeLabel) :=
    readsBack_of_string rfl b (node 1)
  have hstart : Ledger (node 1) nodeLabel (emptyBook 1) .outside :=
    .start watches_emptyBook (fun op hop => nomatch hop) (Nat.zero_le _) (hreads _)
  -- The node is made and labelled.
  have hdraft := hstart.opened trivial "draft"
  rw [if_neg (by decide +kernel)] at hdraft
  have hmade := hdraft.step (.create (by decide +kernel) (hreads _))
  have hnoted := hmade.step (.recordCreate _)
  have hwritten := hnoted.step (.modify (s := "draft") rfl (by decide +kernel))
  have hdrafted := hwritten.closed rfl
    (made_iff_of_recording (by decide +kernel)) (Or.inl rfl) (hreads _)
  -- It is labelled anew.
  have hrevise := hdrafted.opened trivial "revise"
  rw [if_pos (by decide +kernel)] at hrevise
  have hrewritten := hrevise.step (.modify (s := "final") rfl (by decide +kernel))
  have hrevised := hrewritten.closed rfl
    (made_iff_of_recording (by decide +kernel)) (Or.inl rfl) (hreads _)
  exact hrevised.undo trivial

theorem past_relabelled : relabelled.undo.past ≠ [] := by
  rw [← List.length_pos_iff]
  decide +kernel

/-- After the undo the log knows the first label, and undo brings it back when it was written
    and recorded without an announcement. -/
theorem first_label_known :
    let v : ParamValue := .scalar .string "draft"
    let c := (((relabelled.startOperation "again").run [.writeText (node 1) "label" "sketch",
      .writeText (node 1) "label" "final"]).recordAfter (node 1) "label").2.endOperation
    (Ledger (node 1) nodeLabel relabelled .outside ∧ relabelled.undo.future ≠ [] ∧
      relabelled.value? (node 1) nodeLabel = some v) ∧
    relabelled.undo.lastKnown (node 1) "label" none = some (.value "draft") ∧
    c.1 = true ∧ c.2.value? (node 1) nodeLabel = some (.scalar .string "final") ∧
    c.2.undoLast.1 = true ∧ c.2.undoLast.2.value? (node 1) nodeLabel = some v := by
  intro v c
  have hvalue : relabelled.value? (node 1) nodeLabel = some v := by decide +kernel
  have hlive : ∀ x ∈ [relabelled.undo.past.getLast past_relabelled],
      UndoEntry.deleted (node 1) ∉ x.entries := by
    intro x hx
    cases List.mem_singleton.mp hx
    rw [← mem_entitiesOf_create]
    decide +kernel
  obtain ⟨hknown, hagain⟩ := log_knows_live_value ledger_relabelled
    (List.dropLast_append_getLast past_relabelled).symm (by decide +kernel) hlive hvalue
  obtain ⟨hcommitted, hdone, hback⟩ := hagain "again" [.writeText (node 1) "label" "sketch",
    .writeText (node 1) "label" "final"] (by decide) (readsBack_of_string rfl _ _)
  have hfuture : 0 < relabelled.undo.future.length := by decide +kernel
  exact ⟨⟨ledger_relabelled, List.length_pos_iff.mp hfuture, hvalue⟩, hknown, hcommitted,
    by decide +kernel, hdone, hback⟩

/-- The baseline of the first operation knows the first label, but the entry about it does
    not, so undo leaves the second one. If nothing is known of a label, undo leaves the second
    one as well, and an operation that changes nothing does not bring it back after the node
    has been made again. -/
theorem label_not_known :
    let note (b : Book bags) : Book bags := b.run [.startOperation "note",
      .recordBefore (node 1) "label", .recordAfter (node 1) "label", .endOperation]
    let write (b : Book bags) (s : String) : Book bags := b.run [.startOperation "write",
      .recordBefore (node 1) "next", .writeText (node 1) "label" s, .recordAfter (node 1) "label",
      .endOperation]
    let b := (emptyBook 1).run [.create "node" (node 1).guid, .writeText (node 1) "label" "old"]
    let c := (write b "new").call .undo
    let made := (emptyBook 1).run [.startOperation "make", .create "node" (node 1).guid,
      .recordCreate (node 1), .endOperation]
    let d := (note ((write made "new").call .undo)).run [.undo, .undo, .redo, .redo]
    (c.contains (node 1) = true ∧
      c.undo.lastKnown (node 1) "label" none = some (.value "old") ∧
      c.value? (node 1) nodeLabel = some (.scalar .string "new") ∧
      ((write c "other").call .undo).value? (node 1) nodeLabel = some (.scalar .string "old")) ∧
    d.contains (node 1) = true ∧
      d.undo.lastKnown (node 1) "label" none = some (.value "new") ∧
      d.value? (node 1) nodeLabel = some (.scalar .string "") := by
  decide +kernel

end Nodes

end Book

end EntityBook
