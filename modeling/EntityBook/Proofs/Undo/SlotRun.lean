import EntityBook.Proofs.Undo.Beside

/-! # Operations on a side-table, call by call

  An operation announces a side-table, changes it and says that its change is done, in
  any order, with other things between these calls that spare the table. What the
  operation holds of the table can be followed step by step, and undo of the operation
  makes of the table what its record says.
-/

namespace EntityBook

variable {P : PayloadFamily}

/-! ### Steps of an operation -/

/-- A step of an operation on a side-table. -/
inductive SlotStep (P : PayloadFamily) where
  /-- The table is announced. -/
  | before
  /-- Its change is said to be done. -/
  | after
  /-- Slots are changed, one after the other, inside one edit. -/
  | change (xs : List SlotEdit)
  /-- Something else is done. -/
  | other (c : Call P)

theorem Instance.touches_editSlots (i : Instance P) (xs : List SlotEdit) :
    i.Touches (i.editSlots xs) := by
  induction xs generalizing i with
  | nil => exact .refl i
  | cons x rest ih =>
    have hfirst := Touches.withSlots i (x.apply i.slots)
    have hrest := ih (i.withSlots (x.apply i.slots))
    refine ⟨hfirst.toRewrites.trans hrest.toRewrites, Or.inr ?_⟩
    rcases hrest.marked with heq | hdirty
    · exact (congrArg Instance.dirty heq).trans rfl
    · exact hdirty

namespace SlotStep

/-- The call that a step makes. -/
def call (e : Entity) (name : String) : SlotStep P → Call P
  | before => .recordBefore e name
  | after => .recordAfter e name
  | change xs => .edit e ⟨fun i => i.editSlots xs, fun i => i.touches_editSlots xs⟩
  | other c => c

/-- What is asked of a step: values that are written read back, and other calls spare the
    table. -/
def Proper (b : Book P) (e : Entity) : SlotStep P → Prop
  | change xs => ∀ x ∈ xs, x.Sound
  | other c => c.SparesSlots b e
  | before | after => True

end SlotStep

/-- A kind of step that matters for the record of a side-table. -/
inductive Mark where
  /-- The table is announced. -/
  | before
  /-- Its change is said to be done. -/
  | after
  /-- It is changed. -/
  | change
  deriving DecidableEq, Repr

/-- The kind of a step. -/
def SlotStep.mark? : SlotStep P → Option Mark
  | before => some .before
  | after => some .after
  | change _ => some .change
  | other _ => none

/-- The order in which an operation announces, changes and finishes. -/
def marks (ss : List (SlotStep P)) : List Mark := ss.filterMap SlotStep.mark?

/-- A side-table, with what the open operation holds of it. -/
structure SlotState where
  /-- The table. -/
  table : Frame
  /-- The record. -/
  record : SlotRecord := {}

namespace SlotState

/-- What a step makes of a table and its record. -/
def step (l : UndoLog P) (e : Entity) (name : String) (s : SlotState) : SlotStep P → SlotState
  | .before => { s with record := s.record.announce s.table }
  | .after => { s with record := s.record.finish l e name s.table }
  | .change xs => { s with table := SlotEdit.applyAll xs s.table }
  | .other _ => s

/-- What steps make of them. -/
def steps (l : UndoLog P) (e : Entity) (name : String) (s : SlotState) (ss : List (SlotStep P)) :
    SlotState := ss.foldl (step l e name) s

/-- What the log gets of the table. -/
def entries (s : SlotState) : List (String × Capture) := s.record.seen ++ s.record.missed s.table

/-- What undo makes of the table in the end. -/
def undone (s : SlotState) : Frame := s.record.undone s.table

variable {l : UndoLog P} {e : Entity} {name : String} {ss : List (SlotStep P)}

/-- Steps of no kind that matters change nothing. -/
theorem steps_of_marks_nil (h : marks ss = []) (s : SlotState) : s.steps l e name ss = s := by
  induction ss generalizing s with
  | nil => rfl
  | cons t rest ih =>
    cases t with
    | other c => exact ih h s
    | before | after | change _ => cases h

/-- The first step that matters is made first. -/
theorem exists_of_marks_cons (l : UndoLog P) (e : Entity) (name : String) {m : Mark}
    {ms : List Mark} (h : marks ss = m :: ms) :
    ∃ t rest, t.mark? = some m ∧ marks rest = ms ∧ t ∈ ss ∧ (∀ u ∈ rest, u ∈ ss) ∧
      ∀ s : SlotState, s.steps l e name ss = (s.step l e name t).steps l e name rest := by
  induction ss with
  | nil => cases h
  | cons t rest ih =>
    cases hm : t.mark? with
    | some m' =>
      unfold marks at h
      rw [List.filterMap_cons_some hm] at h
      obtain ⟨rfl, hrest⟩ := List.cons.inj h
      exact ⟨t, rest, hm, hrest, List.mem_cons_self, fun u hu => List.mem_cons_of_mem t hu,
        fun _ => rfl⟩
    | none =>
      have hrest : marks rest = m :: ms := by
        unfold marks at h ⊢
        rwa [List.filterMap_cons_none hm] at h
      obtain ⟨u, more, hu, hmore, hmem, hall, hsteps⟩ := ih hrest
      refine ⟨u, more, hu, hmore, List.mem_cons_of_mem t hmem,
        fun v hv => List.mem_cons_of_mem t (hall v hv), ?_⟩
      intro s
      have hother : s.step l e name t = s := by
        cases t with
        | other c => rfl
        | before | after | change _ => cases hm
      show (s.step l e name t).steps l e name rest = _
      rw [hother]
      exact hsteps s

/-- Announcing comes first. -/
theorem steps_of_marks_before (l : UndoLog P) (e : Entity) (name : String) {ms : List Mark}
    (h : marks ss = .before :: ms) :
    ∃ rest, marks rest = ms ∧ (∀ u ∈ rest, u ∈ ss) ∧ ∀ s : SlotState, s.steps l e name ss =
      ({ s with record := s.record.announce s.table } : SlotState).steps l e name rest := by
  obtain ⟨t, rest, ht, hrest, _, hall, hsteps⟩ := exists_of_marks_cons l e name h
  cases t with
  | before => exact ⟨rest, hrest, hall, hsteps⟩
  | after | change _ | other _ => cases ht

/-- Finishing comes first. -/
theorem steps_of_marks_after (l : UndoLog P) (e : Entity) (name : String) {ms : List Mark}
    (h : marks ss = .after :: ms) :
    ∃ rest, marks rest = ms ∧ (∀ u ∈ rest, u ∈ ss) ∧ ∀ s : SlotState, s.steps l e name ss =
      ({ s with record := s.record.finish l e name s.table } : SlotState).steps l e name rest := by
  obtain ⟨t, rest, ht, hrest, _, hall, hsteps⟩ := exists_of_marks_cons l e name h
  cases t with
  | after => exact ⟨rest, hrest, hall, hsteps⟩
  | before | change _ | other _ => cases ht

/-- A change comes first. -/
theorem steps_of_marks_change (l : UndoLog P) (e : Entity) (name : String) {ms : List Mark}
    (h : marks ss = .change :: ms) :
    ∃ xs rest, SlotStep.change xs ∈ ss ∧ marks rest = ms ∧ (∀ u ∈ rest, u ∈ ss) ∧
      ∀ s : SlotState, s.steps l e name ss =
        ({ s with table := SlotEdit.applyAll xs s.table } : SlotState).steps l e name rest := by
  obtain ⟨t, rest, ht, hrest, hmem, hall, hsteps⟩ := exists_of_marks_cons l e name h
  cases t with
  | change xs => exact ⟨xs, rest, hmem, hrest, hall, hsteps⟩
  | before | after | other _ => cases ht

/-- Changes alone only change the table. -/
theorem steps_of_marks_changes (l : UndoLog P) (e : Entity) (name : String) {n : Nat}
    {ms : List Mark} (h : marks ss = List.replicate n .change ++ ms) (s : SlotState) :
    ∃ g rest, marks rest = ms ∧
      s.steps l e name ss = ({ s with table := g } : SlotState).steps l e name rest := by
  induction n generalizing ss s with
  | zero => exact ⟨s.table, ss, h, rfl⟩
  | succ n ih =>
    obtain ⟨xs, rest, _, hrest, _, hsteps⟩ := steps_of_marks_change l e name h
    obtain ⟨g, more, hmore, hg⟩ := ih hrest { s with table := SlotEdit.applyAll xs s.table }
    exact ⟨g, more, hmore, (hsteps s).trans hg⟩

end SlotState

namespace Book

/-- An operation that was opened in one book has led to another one, which has a table of
    which the operation holds a record. -/
structure HoldsRecord (b₀ b : Book P) (e : Entity) (p : Param P) (s : SlotState) : Prop where
  setup : b₀.SameSetup b
  table : b.HasTable e p s.table
  recording : ∃ o, b.undo = { b₀.undo with recording := some o } ∧ s.record.Holds o e p

section Steps

variable {b₀ b b' : Book P} {e : Entity} {p : Param P} {s : SlotState} {ss : List (SlotStep P)}

theorem proper_congr {t : SlotStep P} (h : t.Proper b e) (hset : b.SameSetup b') :
    t.Proper b' e := by
  cases t with
  | other c => exact sparesSlots_congr h hset
  | before | after | change _ => exact h

/-- Changing slots inside one edit. -/
theorem HasTable.change {g : Frame} (h : b.HasTable e p g) {xs : List SlotEdit}
    (hxs : ∀ x ∈ xs, x.Sound) :
    (b.edit e fun i => ((), i.editSlots xs)).2.HasTable e p (SlotEdit.applyAll xs g) ∧
      b.SameSetup (b.edit e fun i => ((), i.editSlots xs)).2 ∧
      (b.edit e fun i => ((), i.editSlots xs)).2.undo = b.undo := by
  have hrev : b.Revises (b.edit e fun i => ((), i.editSlots xs)).2 :=
    .edit h.wellFormed fun i => .editSlots i xs
  have htable := table?_editTable h.wellFormed h.table [xs]
  rw [List.flatten_cons, List.flatten_nil, List.append_nil] at htable
  obtain ⟨htidy, hread⟩ := SlotEdit.tidy_applyAll hxs h.tidy h.readable
  exact ⟨h.of_setup (hrev.wellFormed h.wellFormed) (.of_revises hrev) htable htidy hread,
    .of_revises hrev, hrev.undo⟩

/-- No step brings back an entity that is gone. -/
theorem contains_of_step (hb : b.WellFormed) (hp : b.undoableParam e p.name = .ok p)
    (hslots : p.isSlots = true) {t : SlotStep P} (ht : t.Proper b e) :
    b.SameSetup (b.call (t.call e p.name)) ∧
      ((b.call (t.call e p.name)).contains e = true → b.contains e = true) := by
  cases t with
  | before =>
    obtain ⟨r, hr⟩ := b.exists_recordBefore_eq e p.name
    show b.SameSetup (b.recordBefore e p.name).2 ∧
      ((b.recordBefore e p.name).2.contains e = true → _)
    rw [hr]
    exact ⟨⟨rfl, rfl, rfl, rfl⟩, fun h => h⟩
  | after =>
    obtain ⟨r, hr⟩ := b.exists_recordAfter_eq e p.name
    show b.SameSetup (b.recordAfter e p.name).2 ∧ ((b.recordAfter e p.name).2.contains e = true → _)
    rw [hr]
    exact ⟨⟨rfl, rfl, rfl, rfl⟩, fun h => h⟩
  | change xs =>
    have hrev : b.Revises (b.edit e fun i => ((), i.editSlots xs)).2 :=
      .edit hb fun i => .editSlots i xs
    refine ⟨.of_revises hrev, ?_⟩
    intro hlive
    cases hi : b.get? e with
    | some i => exact contains_of_some hi
    | none => exact absurd ((contains_of_none (hrev.gone hi)).symm.trans hlive) Bool.false_ne_true
  | other c =>
    have hbeside : Beside e p b (b.call c) := .call hp hslots hb ht
    refine ⟨hbeside.setup, ?_⟩
    intro hlive
    obtain ⟨j, hj⟩ := Option.isSome_iff_exists.mp hlive
    have htable : (b.call c).table? e = some j.slots := congrArg (Option.map Instance.slots) hj
    obtain ⟨i, hi, _⟩ := Option.map_eq_some_iff.mp (hbeside.table htable)
    exact contains_of_some hi

theorem contains_of_steps (hb : b.WellFormed) (hp : b.undoableParam e p.name = .ok p)
    (hslots : p.isSlots = true) (hss : ∀ t ∈ ss, t.Proper b e) :
    b.SameSetup (b.run (ss.map (·.call e p.name))) ∧
      ((b.run (ss.map (·.call e p.name))).contains e = true → b.contains e = true) := by
  induction ss generalizing b with
  | nil => exact ⟨.refl b, fun h => h⟩
  | cons t rest ih =>
    obtain ⟨hset, hback⟩ := contains_of_step hb hp hslots (hss t List.mem_cons_self)
    have hrest := ih ((Steps.call b _).wellFormed hb)
      ((undoableParam_congr hset.registry e p.name).trans hp)
      fun t' ht' => proper_congr (hss t' (List.mem_cons_of_mem t ht')) hset
    exact ⟨hset.trans hrest.1, fun hlive => hback (hrest.2 hlive)⟩

namespace HoldsRecord

theorem setRecording (h : HoldsRecord b₀ b e p s) {o : OpenOperation P} {r : SlotRecord}
    (hr : r.Holds o e p) : HoldsRecord b₀ (b.setRecording (some o)) e p { s with record := r } where
  setup := h.setup.trans ⟨rfl, rfl, rfl, rfl⟩
  table := h.table.withUndo _
  recording := by
    obtain ⟨o', ho', _⟩ := h.recording
    refine ⟨o, ?_, hr⟩
    unfold Book.setRecording
    rw [ho']

/-- Announcing, changing and finishing do to the book what they do to the record, and
    nothing else does anything. -/
theorem step (h : HoldsRecord b₀ b e p s) {t : SlotStep P} (ht : t.Proper b₀ e)
    (hlive : (b.call (t.call e p.name)).contains e = true) :
    HoldsRecord b₀ (b.call (t.call e p.name)) e p (s.step b₀.undo e p.name t) := by
  obtain ⟨o, ho, hholds⟩ := h.recording
  have hopen : b.undo.recording = some o := by rw [ho]
  cases t with
  | before =>
    obtain ⟨o', heq, hr⟩ := h.table.recordBefore_holds hopen hholds
    show HoldsRecord b₀ (b.recordBefore e p.name).2 e p _
    rw [heq]
    exact h.setRecording hr
  | after =>
    obtain ⟨o', heq, hr⟩ := h.table.recordAfter_holds hopen hholds
    show HoldsRecord b₀ (b.recordAfter e p.name).2 e p _
    rw [heq]
    have hlog : SlotRecord.finish b.undo e p.name s.record s.table =
        SlotRecord.finish b₀.undo e p.name s.record s.table := by
      rw [ho]
      rfl
    exact h.setRecording (hlog ▸ hr)
  | change xs =>
    obtain ⟨htable, hset, hundo⟩ := h.table.change ht
    exact ⟨h.setup.trans hset, htable, o, hundo.trans ho, hholds⟩
  | other c =>
    have hbeside : Beside e p b (b.call c) := .call h.table.param h.table.slots h.table.wellFormed
      (sparesSlots_congr ht h.setup)
    obtain ⟨o', ho', hr⟩ := hbeside.holds hopen hholds
    obtain ⟨j, hj⟩ := Option.isSome_iff_exists.mp hlive
    have hthere : (b.call c).table? e = some j.slots := congrArg (Option.map Instance.slots) hj
    have hsame := (hbeside.table hthere).symm.trans h.table.table
    rw [hsame] at hthere
    refine ⟨h.setup.trans hbeside.setup, ?_, o', ?_, hr⟩
    · exact h.table.of_setup ((Steps.call b c).wellFormed h.table.wellFormed) hbeside.setup hthere
        h.table.tidy h.table.readable
    · show (b.call c).undo = _
      rw [hbeside.log, ho', ho]

/-- So do all steps, as long as the entity stays. -/
theorem run (h : HoldsRecord b₀ b e p s) (hss : ∀ t ∈ ss, t.Proper b₀ e)
    (hlive : (b.run (ss.map (·.call e p.name))).contains e = true) :
    HoldsRecord b₀ (b.run (ss.map (·.call e p.name))) e p (s.steps b₀.undo e p.name ss) := by
  induction ss generalizing b s with
  | nil => exact h
  | cons t rest ih =>
    have ht := hss t List.mem_cons_self
    have hrest : ∀ t' ∈ rest, t'.Proper b₀ e := fun t' ht' => hss t' (List.mem_cons_of_mem t ht')
    obtain ⟨hset, _⟩ :=
      contains_of_step h.table.wellFormed h.table.param h.table.slots (proper_congr ht h.setup)
    -- The entity is there in the end, so it is there after the step.
    have hthere : (b.call (t.call e p.name)).contains e = true := by
      refine (contains_of_steps ((Steps.call b _).wellFormed h.table.wellFormed) ?_ h.table.slots
        ?_).2 hlive
      · exact (undoableParam_congr hset.registry e p.name).trans h.table.param
      · intro t' ht'
        exact proper_congr (hrest t' ht') (h.setup.trans hset)
    exact ih (h.step ht hthere) hrest hlive

/-- If nothing else is done, the entity stays. -/
theorem contains_run (h : HoldsRecord b₀ b e p s) (hss : ∀ t ∈ ss, t.Proper b₀ e)
    (hown : ∀ t ∈ ss, t.mark? ≠ none) : (b.run (ss.map (·.call e p.name))).contains e = true := by
  have hthere {b : Book P} {f : Frame} (ht : b.HasTable e p f) : b.contains e = true := by
    obtain ⟨i, hi, _⟩ := ht.exists_instance
    exact contains_of_some hi
  induction ss generalizing b s with
  | nil => exact hthere h.table
  | cons t rest ih =>
    have ht := hss t List.mem_cons_self
    have hlive : (b.call (t.call e p.name)).contains e = true := by
      obtain ⟨o, ho, hholds⟩ := h.recording
      have hopen : b.undo.recording = some o := by rw [ho]
      cases t with
      | before =>
        obtain ⟨o', heq, _⟩ := h.table.recordBefore_holds hopen hholds
        show (b.recordBefore e p.name).2.contains e = true
        rw [heq]
        exact hthere (h.table.withUndo _)
      | after =>
        obtain ⟨o', heq, _⟩ := h.table.recordAfter_holds hopen hholds
        show (b.recordAfter e p.name).2.contains e = true
        rw [heq]
        exact hthere (h.table.withUndo _)
      | change xs => exact hthere (h.table.change ht).1
      | other c => exact absurd rfl (hown _ List.mem_cons_self)
    exact ih (h.step ht hlive) (fun t' ht' => hss t' (List.mem_cons_of_mem t ht'))
      fun t' ht' => hown t' (List.mem_cons_of_mem t ht')

end HoldsRecord

/-! ### The whole operation -/

/-- An operation on a side-table; answers whether it was committed. -/
def slotOperation (b : Book P) (label : String) (e : Entity) (name : String)
    (ss : List (SlotStep P)) : Bool × Book P :=
  ((b.startOperation label).run (ss.map (·.call e name))).endOperation

/-- The beginning: nothing is held of the table. -/
theorem HoldsRecord.start {f : Frame} (h : b.HasTable e p f) (label : String) :
    HoldsRecord b (b.startOperation label) e p { table := f } := by
  have hstart : b.startOperation label = b.setRecording (some { label }) := if_pos h.enabled
  rw [hstart]
  refine ⟨⟨rfl, rfl, rfl, rfl⟩, h.withUndo _, { label }, rfl, rfl, ?_, rfl⟩
  intro u hu
  cases hu

theorem endOperation_spares (b : Book P) :
    b.SameSetup b.endOperation.2 ∧ ∀ x, b.endOperation.2.get? x = b.get? x := by
  obtain ⟨l, hl⟩ := b.exists_endOperation_eq
  rw [hl]
  exact ⟨⟨rfl, rfl, rfl, rfl⟩, fun _ => rfl⟩

/-- The end: the log gets what is held of the table, among other things. -/
theorem HoldsRecord.endOperation (h : HoldsRecord b₀ b e p s) :
    (s.entries ≠ [] → b.endOperation.1 = true) ∧
    (b.endOperation.1 = true → ∃ (l : UndoLog P) (op : UndoOperation P),
      b.endOperation.2 = b.withLog (l.push op b.config.undoLimit) ∧ l.recording = none ∧
      UndoEntry.created e ∉ op.entries ∧
      (∀ u ∈ op.entries, u.entity = e → u.OfValue p) ∧
      cell op.entries e p.name =
        s.record.seen.map (slotChange e p (s.record.last.getD s.table)) ++
          (s.record.missed s.table).map (slotChange e p s.table)) := by
  obtain ⟨o, ho, hr⟩ := h.recording
  have hopen : b.undo.recording = some o := by rw [ho]
  have hcell := h.table.cell_closed hr
  have hvalues : ∀ u ∈ (b.addNewSlots o.entries o.watched).map b.close, u.entity = e →
      u.OfValue p := by
    intro u hu hue
    obtain ⟨v, hv, rfl⟩ := List.mem_map.mp hu
    rw [entity_close] at hue
    obtain ⟨c, rfl, hc⟩ := HasTable.ofValue_addNewSlots hr hv hue
    exact ⟨b.closed c, rfl, hc⟩
  by_cases hnil : b.addNewSlots o.entries o.watched = []
  · rw [endOperation_of_nil hopen hnil]
    rw [hnil] at hcell
    refine ⟨?_, ?_⟩
    · intro hne
      -- Nothing at all is recorded, so nothing is of the table.
      have hnone := List.append_eq_nil_iff.mp hcell.symm
      exact absurd (List.append_eq_nil_iff.mpr
        ⟨List.map_eq_nil_iff.mp hnone.1, List.map_eq_nil_iff.mp hnone.2⟩) hne
    · intro hc
      cases hc
  · rw [endOperation_of_ne_nil hopen hnil]
    obtain ⟨l, hl, hlog⟩ := exists_committedLog_eq_push b.undo b.config o
      ((b.addNewSlots o.entries o.watched).map b.close)
    refine ⟨fun _ => rfl, fun _ => ⟨l, _, congrArg b.withLog hlog, hl, ?_, hvalues, hcell⟩⟩
    intro hm
    obtain ⟨c, hc, _⟩ := hvalues _ hm rfl
    cases hc

/-- Among values, and changes of the table at paths, a change without a path is about a
    parameter that is no table. -/
theorem not_isSlots_of_path {entries : List (UndoEntry P)}
    (hvalues : ∀ u ∈ entries, u.entity = e → u.OfValue p)
    (hpaths : ∀ d ∈ cell entries e p.name, d.path.isSome = true) {d : Change P}
    (hd : UndoEntry.changed d ∈ entries) (hde : d.entity = e) (hnone : d.path = none) :
    d.param.isSlots = false := by
  obtain ⟨d', heq, hcase⟩ := hvalues _ hd hde
  cases heq
  rcases hcase with hname | ⟨_, hvalue⟩
  · have hsome := hpaths d (mem_cell.mpr ⟨hd, hde, hname⟩)
    rw [hnone] at hsome
    cases hsome
  · exact hvalue

/-- Among values, the patches of the entity are those of the table. -/
theorem undoPatchesOf_about {entries : List (UndoEntry P)}
    (hvalues : ∀ u ∈ entries, u.entity = e → u.OfValue p) :
    undoPatchesOf ((entries.filterMap UndoEntry.change?).filter fun c => c.entity == e) =
      undoPatchesOf (cell entries e p.name) := by
  have hcell : (((entries.filterMap UndoEntry.change?).filter fun c => c.entity == e).filter
      fun c => c.param.name == p.name) = cell entries e p.name := by
    unfold cell
    rw [List.filter_filter]
    refine List.filter_congr ?_
    intro d _
    exact Bool.and_comm _ _
  rw [← hcell]
  refine (undoPatchesOf_filter ?_).symm
  intro d hd hname
  obtain ⟨hm, hde⟩ := List.mem_filter.mp hd
  obtain ⟨d', heq, hcase⟩ := hvalues _ (mem_change?.mp hm) (eq_of_beq hde)
  cases heq
  rcases hcase with hsame | ⟨hnone, _⟩
  · simp [hsame] at hname
  · exact hnone

/-- Undo of a committed operation makes of the table what its record says, whatever is
    done beside it up to the undo, as long as the entity stays. -/
theorem undo_slotOperation {f : Frame} (h : b.HasTable e p f) (limit : 0 < b.config.undoLimit)
    (label : String) (hss : ∀ t ∈ ss, t.Proper b e) {outer : List (Call P)}
    (houter : ∀ x ∈ outer, x.SparesSlots b e)
    (hcommit : (b.slotOperation label e p.name ss).1 = true) {c : Book P}
    (hc : c = (b.slotOperation label e p.name ss).2.run outer) (hlive : c.contains e = true) :
    c.undoLast.1 = true ∧ c.undoLast.2.table? e =
      some (({ table := f } : SlotState).steps b.undo e p.name ss).undone := by
  have hstart := HoldsRecord.start h label
  have hproper : ∀ t ∈ ss, t.Proper (b.startOperation label) e := fun t ht =>
    proper_congr (hss t ht) hstart.setup
  have hset := hstart.setup.trans
    (contains_of_steps hstart.table.wellFormed hstart.table.param h.slots hproper).1
  have hwf := (Steps.run (b.startOperation label) (ss.map (·.call e p.name))).wellFormed
    hstart.table.wellFormed
  have hop : b.slotOperation label e p.name ss =
    ((b.startOperation label).run (ss.map (·.call e p.name))).endOperation := rfl
  have hholds (hthere : ((b.startOperation label).run (ss.map (·.call e p.name))).contains e =
      true) := hstart.run hss hthere
  generalize (b.startOperation label).run (ss.map (·.call e p.name)) = b₁ at hset hwf hop hholds
  -- The entity is there at the undo, so it was at the end of the operation.
  obtain ⟨hset', hget⟩ := endOperation_spares b₁
  have hwf' : b₁.endOperation.2.WellFormed := (Steps.call b₁ .endOperation).wellFormed hwf
  rw [hop] at hcommit hc
  have hbeside : Beside e p b₁.endOperation.2 c := by
    rw [hc]
    refine .run ?_ h.slots hwf' ?_
    · exact (undoableParam_congr (hset.trans hset').registry e p.name).trans h.param
    · intro x hx
      exact sparesSlots_congr (houter x hx) (hset.trans hset')
  obtain ⟨i, hi⟩ := Option.isSome_iff_exists.mp hlive
  have hthere : c.table? e = some i.slots := congrArg (Option.map Instance.slots) hi
  have hend := hbeside.table hthere
  obtain ⟨j, hj, _⟩ := Option.map_eq_some_iff.mp hend
  have hheld := hholds (contains_of_some ((hget e).symm.trans hj))
  generalize ({ table := f } : SlotState).steps b.undo e p.name ss = s at hheld ⊢
  have hslots : i.slots = s.table := by
    have heq : b₁.endOperation.2.table? e = b₁.table? e :=
      congrArg (Option.map Instance.slots) (hget e)
    exact Option.some.inj (hend.symm.trans (heq.trans hheld.table.table))
  -- Undo finds the operation, and nothing of it is passed over.
  obtain ⟨l, op, heq, hl, hspared, hvalues, hcell⟩ := hheld.endOperation.2 hcommit
  rw [hset.config] at heq
  have hlog : c.undo = l.push op b.config.undoLimit := by
    have hidle := hbeside.idle (by rw [heq]; exact hl)
    rw [hbeside.log, hidle, ← hl, heq]
    rfl
  have hdone := undoLast_of_push hlog limit
  refine ⟨congrArg Prod.fst hdone, ?_⟩
  rw [hdone]
  have hcwf : c.WellFormed := by
    rw [hc]
    exact (Steps.run _ _).wellFormed hwf'
  -- Entries about the table itself all have paths.
  have hpaths : ∀ d ∈ cell op.entries e p.name, d.path.isSome = true := by
    intro d hd
    rw [hcell] at hd
    rcases List.mem_append.mp hd with hm | hm
    · obtain ⟨x, _, rfl⟩ := List.mem_map.mp hm
      rfl
    · obtain ⟨x, _, rfl⟩ := List.mem_map.mp hm
      rfl
  have hback := table?_undo (b := (c.setRecording none).setCursor (c.undo.cursor - 1)) (e := e)
    (hcwf.of_eq rfl rfl rfl rfl) hspared (get?_prepared_of_some hi)
    fun d hd hde => not_isSlots_of_path hvalues hpaths hd hde
  rw [hback, hslots, undoPatchesOf_about hvalues, hcell, undoPatchesOf_append,
    undoPatchesOf_slotChange, undoPatchesOf_slotChange, List.foldl_append]
  rfl

/-- Before the first operation the log knows nothing. -/
theorem known_of_past_nil (hpast : b.undo.past = []) (e : Entity) (name : String) :
    (∀ op ∈ b.undo.past, PathsNamed op.entries e name) ∧
      ∀ path, b.undo.lastKnown e name path = none := by
  constructor
  · intro op hop
    rw [hpast] at hop
    cases hop
  · intro path
    unfold UndoLog.lastKnown
    rw [hpast]
    rfl

end Steps

end Book

end EntityBook
