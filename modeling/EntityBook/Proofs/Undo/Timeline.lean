import EntityBook.Proofs.Payload.Bag
import EntityBook.Proofs.Undo.Log
import EntityBook.Proofs.Undo.Operation

/-! # Undo and redo as time travel

  A timeline is a run of a book in which all changes happen inside operations,
  told as a user would tell it: the moments that can be undone, newest first, and
  those that can be redone, next first. A moment knows the books before and after
  it. `Timeline` keeps these two lists with no regard to the log, and the theorem
  says that the log does what they say.

  The invariant has the entries of every operation in the log explain a moment,
  and the moments lead from one to the next through the present book.
-/

namespace EntityBook

variable {P : PayloadFamily}

/-- A committed operation, by the books before and after it. -/
structure Moment (P : PayloadFamily) where
  /-- The book in which the operation was opened. -/
  before : Book P
  /-- The book that it left. -/
  after : Book P

namespace Book

/-! ### Runs of a book -/

/-- Does steps one after the other. -/
def performAll (b : Book P) (actions : List Action) : Book P := actions.foldl perform b

/-- Each step does what is asked of it in the book in which it is done. -/
def FaithfulRun (b : Book P) : List Action → Prop
  | [] => True
  | a :: rest => b.Faithful a ∧ (b.perform a).FaithfulRun rest

/-- The book inside an operation, after its steps. -/
def during (b : Book P) (label : String) (actions : List Action) : Book P :=
  (b.startOperation label).performAll actions

/-- A whole operation; answers whether it was committed. -/
def session (b : Book P) (label : String) (actions : List Action) : Bool × Book P :=
  (b.during label actions).endOperation

/-- Whether the open operation brings a baseline. -/
def bringsBaseline (b : Book P) : Bool :=
  match b.undo.recording with
  | some o => !o.baseline.isEmpty
  | none => false

/-- The moments of a committed operation, newest first. A baseline is one at which
    nothing happens. -/
def moments (b : Book P) (label : String) (actions : List Action) : List (Moment P) :=
  let own : Moment P := ⟨b, (b.session label actions).2⟩
  if (b.during label actions).bringsBaseline then [own, ⟨b, b⟩] else [own]

/-- The runs of a book whose changes all happen inside operations, with the
    moments that can be undone and those that can be redone. -/
inductive Timeline : Book P → List (Moment P) → List (Moment P) → Prop where
  /-- A book that records, accepts every commit and has nothing to undo yet. -/
  | start (b : Book P) (steady : b.Steady) (lawful : b.Lawful) (enabled : b.config.undoEnabled = true)
      (accepting : ∀ calls i, b.backend.refusal calls i = none)
      (fresh : b.undo.operations = [] ∧ b.undo.cursor = 0) : Timeline b [] []
  /-- An operation in which something was recorded takes the place of everything
      that could be redone; the oldest moments are dropped beyond the limit. -/
  | commit {b : Book P} {past future : List (Moment P)} (run : Timeline b past future)
      (label : String) (actions : List Action)
      (faithful : (b.startOperation label).FaithfulRun actions)
      (committed : (b.session label actions).1 = true) :
      Timeline (b.session label actions).2
        ((b.moments label actions ++ past).take b.config.undoLimit) []
  /-- An operation in which nothing was recorded leaves no moment. -/
  | dismiss {b : Book P} {past future : List (Moment P)} (run : Timeline b past future)
      (label : String) (actions : List Action)
      (faithful : (b.startOperation label).FaithfulRun actions)
      (dismissed : (b.session label actions).1 = false) :
      Timeline (b.session label actions).2 past future
  /-- Undo, whether there is something to undo or not. -/
  | undo {b : Book P} {past future : List (Moment P)} (run : Timeline b past future) :
      Timeline b.undoLast.2 past.tail (past.head?.toList ++ future)
  /-- Redo, whether there is something to redo or not. -/
  | redo {b : Book P} {past future : List (Moment P)} (run : Timeline b past future) :
      Timeline b.redoNext.2 (future.head?.toList ++ past) future.tail

/-! ### What entries explain -/

/-- Two books show the same, in the same surroundings. -/
structure Agrees (b b' : Book P) : Prop where
  view : b.SameView b'
  setup : b.SameSetup b'

namespace Agrees

variable {a b c : Book P}

theorem refl (b : Book P) : b.Agrees b := ⟨.refl b, .refl b⟩

theorem symm (h : a.Agrees b) : b.Agrees a := ⟨h.view.symm, h.setup.symm⟩

theorem trans (h : a.Agrees b) (h' : b.Agrees c) : a.Agrees c :=
  ⟨h.view.trans h'.view, h.setup.trans h'.setup⟩

/-- Nothing but the log differs. -/
theorem of_undo (h : ∀ e, b.get? e = a.get? e) (hs : a.SameSetup b) : a.Agrees b :=
  ⟨.of_get? hs.registry h, hs⟩

end Agrees

/-- Replaying entries leads from the one side of a moment to the other. -/
structure Explains (entries : List (UndoEntry P)) (m : Moment P) : Prop where
  undo : ∀ b : Book P, b.Steady → m.after.Agrees b → m.before.Agrees (b.replay entries .undo)
  redo : ∀ b : Book P, b.Steady → m.before.Agrees b → m.after.Agrees (b.replay entries .redo)

/-- A recorded operation explains the way from the book in which it was opened to
    any book that shows what there was when it ended. -/
theorem Recorded.explains {b₀ b b' : Book P} {o : OpenOperation P} (h : Recorded b₀ b o)
    (hb : b.Agrees b') : Explains (o.entries.map b.close) ⟨b₀, b'⟩ where
  undo := by
    intro c hc hcb
    have hbc := hb.trans hcb
    refine ⟨h.undo hc hbc.setup hbc.view, ?_⟩
    exact (h.setup.trans hbc.setup).trans (hc.replay _ _).2.1
  redo := by
    intro c hc hcb
    have hlast := h.redo hc hcb.setup hcb.view
    have hset := hcb.setup.trans (hc.replay (o.entries.map b.close) .redo).2.1
    refine ⟨hb.view.symm.trans hlast, ?_⟩
    exact (hb.setup.symm.trans h.setup.symm).trans hset

/-- A baseline explains a moment at which nothing happens. -/
theorem Recorded.explains_baseline {b₀ b : Book P} {o : OpenOperation P} (h : Recorded b₀ b o) :
    Explains o.baseline ⟨b₀, b₀⟩ where
  undo := by
    intro c hc hcb
    exact ⟨h.baseline_replay .undo hc hcb.setup hcb.view, hcb.setup.trans (hc.replay _ _).2.1⟩
  redo := by
    intro c hc hcb
    exact ⟨h.baseline_replay .redo hc hcb.setup hcb.view, hcb.setup.trans (hc.replay _ _).2.1⟩

/-! ### The chain of moments -/

/-- The moments lead to a book, newest first. -/
def LeadTo (b : Book P) : List (Moment P) → Prop
  | [] => True
  | m :: rest => m.after.Agrees b ∧ m.before.LeadTo rest

/-- The moments start from a book, next first. -/
def LeadFrom (b : Book P) : List (Moment P) → Prop
  | [] => True
  | m :: rest => m.before.Agrees b ∧ m.after.LeadFrom rest

theorem LeadTo.congr {b b' : Book P} {ms : List (Moment P)} (h : b.LeadTo ms)
    (hb : b.Agrees b') : b'.LeadTo ms := by
  cases ms with
  | nil => trivial
  | cons m rest => exact ⟨h.1.trans hb, h.2⟩

theorem LeadFrom.congr {b b' : Book P} {ms : List (Moment P)} (h : b.LeadFrom ms)
    (hb : b.Agrees b') : b'.LeadFrom ms := by
  cases ms with
  | nil => trivial
  | cons m rest => exact ⟨h.1.trans hb, h.2⟩

theorem LeadTo.take {b : Book P} {ms : List (Moment P)} (h : b.LeadTo ms) (n : Nat) :
    b.LeadTo (ms.take n) := by
  induction ms generalizing b n with
  | nil =>
    rw [List.take_nil]
    trivial
  | cons m rest ih =>
    cases n with
    | zero => trivial
    | succ n => exact ⟨h.1, ih h.2 n⟩

/-- The log of a book does what its moments say. -/
structure InStep (b : Book P) (past future : List (Moment P)) : Prop where
  steady : b.Steady
  lawful : b.Lawful
  enabled : b.config.undoEnabled = true
  accepting : ∀ calls i, b.backend.refusal calls i = none
  cursor : b.undo.cursor = past.length
  log : List.Forall₂ (fun op m => Explains op.entries m) b.undo.operations
    (past.reverse ++ future)
  past : b.LeadTo past
  future : b.LeadFrom future

/-! ### Appending to the log -/

/-- The log after an operation was appended, with the moment that it explains. -/
theorem push_explains {l : UndoLog P} {ms : List (Moment P)} {entries : List (UndoEntry P)}
    {m : Moment P} (hl : List.Forall₂ (fun op m => Explains op.entries m) l.past ms.reverse)
    (hop : Explains entries m) (label : String) (limit : Nat) :
    List.Forall₂ (fun op m => Explains op.entries m) (l.push ⟨label, entries⟩ limit).operations
        ((m :: ms).take limit).reverse ∧
      (l.push ⟨label, entries⟩ limit).cursor = ((m :: ms).take limit).length := by
  have hlen : l.past.length = ms.length := by
    rw [hl.length_eq, List.length_reverse]
  have hall : List.Forall₂ (fun op m => Explains op.entries m) (l.past ++ [⟨label, entries⟩])
      (m :: ms).reverse := by
    rw [List.reverse_cons]
    exact List.rel_append hl (.cons hop .nil)
  unfold UndoLog.push
  dsimp only
  rw [List.reverse_take]
  have hsize : (l.past ++ [(⟨label, entries⟩ : UndoOperation P)]).length = (m :: ms).length := by
    simp [hlen]
  -- The limit drops the oldest operations, which are the last moments of the past.
  constructor
  · rw [hsize]
    exact List.forall₂_drop _ hall
  · rw [List.length_drop, hsize, List.length_take]
    omega

theorem take_cons_take (m : Moment P) (ms : List (Moment P)) (n : Nat) :
    (m :: ms.take n).take n = (m :: ms).take n := by
  cases n with
  | zero => rfl
  | succ n =>
    rw [List.take_succ_cons, List.take_succ_cons, List.take_take]
    congr 2
    omega

/-! ### Operations of a run -/

/-- All steps of an operation preserve what it knows. -/
theorem Recorded.performAll {b₀ b : Book P} {o : OpenOperation P} (h : Recorded b₀ b o)
    {actions : List Action} (hf : b.FaithfulRun actions) :
    ∃ o', Recorded b₀ (b.performAll actions) o' := by
  induction actions generalizing b o with
  | nil => exact ⟨o, h⟩
  | cons a rest ih =>
    obtain ⟨hone, hrest⟩ := hf
    obtain ⟨o', h'⟩ := h.perform hone
    exact ih h' hrest

/-- An operation that follows `Recorded` watches nothing, so that no slots are added. -/
theorem Recorded.addNewSlots_eq {b₀ b : Book P} {o : OpenOperation P} (h : Recorded b₀ b o) :
    b.undo.recording = some o ∧ b.addNewSlots o.entries o.watched = o.entries := by
  constructor
  · rw [h.log]
  · rw [h.unwatched]
    rfl

/-- Ending an operation in which nothing was recorded. -/
theorem Recorded.endOperation_nil {b₀ b : Book P} {o : OpenOperation P} (h : Recorded b₀ b o)
    (he : o.entries = []) : b.endOperation = (false, b.setRecording none) := by
  obtain ⟨hrec, hslots⟩ := h.addNewSlots_eq
  exact endOperation_of_nil hrec (hslots.trans he)

/-- Ending any other operation. -/
theorem Recorded.endOperation_eq {b₀ b : Book P} {o : OpenOperation P} (h : Recorded b₀ b o)
    (he : o.entries ≠ []) :
    b.endOperation =
      (true, { b with undo := committedLog b.undo b.config o (o.entries.map b.close) }) := by
  obtain ⟨hrec, hslots⟩ := h.addNewSlots_eq
  have hend := endOperation_of_ne_nil hrec (by rw [hslots]; exact he)
  rw [hslots] at hend
  exact hend

/-- If nothing was recorded, nothing has changed. -/
theorem Recorded.agrees_of_nil {b₀ b : Book P} {o : OpenOperation P} (h : Recorded b₀ b o)
    (he : o.entries = []) : b₀.Agrees b := by
  refine ⟨.of_entities h.registry_eq ?_, h.setup⟩
  intro e
  -- Without entries, an entity was absent all along or is old with untouched values.
  cases h.life e with
  | absent before now => exact ⟨fun _ => now, fun i hi => absurd (before.symm.trans hi) (by simp)⟩
  | gone _ _ _ _ isGone =>
    rw [he] at isGone
    cases isGone
  | passed _ _ isMade =>
    rw [he] at isMade
    cases isMade
  | live i₀ i origin now _ cells =>
    cases origin with
    | new _ _ _ isMade =>
      rw [he] at isMade
      cases isMade
    | old _ before =>
      refine ⟨fun hn => absurd (hn.symm.trans before) (by simp), ?_⟩
      intro i₁ hi₁
      cases before.symm.trans hi₁
      refine ⟨i, now, ?_⟩
      intro cl hcl p hp
      have hv₀ := h.initial.wellFormed.exists_value before hcl hp
      have hv := h.steady.wellFormed.exists_value now (h.registry_eq ▸ hcl) hp
      have hcell := cells cl hcl p hp _ _ hv₀ hv
      rw [he, cell_nil] at hcell
      cases hcell with
      | untouched same => rw [hv, hv₀, same]

/-! ### Every step of a run keeps the log in step -/

/-- The operation at the place of a moment explains it. -/
theorem exists_explains {ops : List (UndoOperation P)} {xs ys : List (Moment P)} {m : Moment P}
    (h : List.Forall₂ (fun op m => Explains op.entries m) ops (xs ++ m :: ys)) :
    ∃ op, ops[xs.length]? = some op ∧ Explains op.entries m := by
  induction xs generalizing ops with
  | nil =>
    cases h with
    | cons hop _ => exact ⟨_, rfl, hop⟩
  | cons x rest ih =>
    cases h with
    | cons _ hrest => exact ih hrest

namespace InStep

variable {b : Book P} {past future : List (Moment P)} {m : Moment P}

theorem undoLast_nil (h : b.InStep [] future) : b.undoLast = (false, b) := by
  refine undoLast_of_none ?_
  unfold UndoLog.lastApplied?
  rw [h.cursor]
  rfl

theorem redoNext_nil (h : b.InStep past []) : b.redoNext = (false, b) := by
  have hlen := h.log.length_eq
  rw [List.append_nil, List.length_reverse, ← h.cursor] at hlen
  refine redoNext_of_none ?_
  unfold UndoLog.nextUndone?
  exact List.getElem?_eq_none (by omega)

/-- Undo steps back over the last moment. -/
theorem undoLast_cons (h : b.InStep (m :: past) future) :
    b.undoLast.1 = true ∧ m.before.Agrees b.undoLast.2 ∧
      b.undoLast.2.InStep past (m :: future) := by
  have hlog : List.Forall₂ (fun op m => Explains op.entries m) b.undo.operations
      (past.reverse ++ m :: future) := by
    have hlog := h.log
    rw [List.reverse_cons, List.append_assoc] at hlog
    exact hlog
  have hcursor : b.undo.cursor = past.length + 1 := h.cursor
  obtain ⟨op, hop, hexp⟩ := exists_explains hlog
  have hlast : b.undo.lastApplied? = some op := by
    unfold UndoLog.lastApplied?
    rw [hcursor]
    rw [List.length_reverse] at hop
    exact hop
  -- The book in which the replay takes place.
  let c := (b.setRecording none).setCursor (b.undo.cursor - 1)
  have hsteady : c.Steady :=
    ⟨h.steady.wellFormed.of_eq rfl rfl rfl rfl, h.steady.quiet⟩
  have hagrees : b.Agrees c := .of_undo (fun _ => rfl) ⟨rfl, rfl, rfl, rfl⟩
  obtain ⟨hafter, hset, hundo⟩ := hsteady.replay op.entries .undo
  have hundone : b.undoLast = (true, c.replay op.entries .undo) := undoLast_of_some hlast
  have hback := hexp.undo c hsteady (h.past.1.trans hagrees)
  rw [hundone]
  refine ⟨rfl, hback, ?_⟩
  refine ⟨hafter, h.lawful.of_setup (hagrees.setup.trans hset), ?_, ?_, ?_, ?_, ?_, ?_⟩
  · rw [hset.config]
    exact h.enabled
  · rw [hset.backend]
    exact h.accepting
  · rw [hundo]
    show b.undo.cursor - 1 = past.length
    omega
  · rw [hundo]
    exact hlog
  · exact h.past.2.congr hback
  · exact ⟨hback, h.future.congr h.past.1.symm⟩

/-- Redo steps on over the next moment. -/
theorem redoNext_cons (h : b.InStep past (m :: future)) :
    b.redoNext.1 = true ∧ m.after.Agrees b.redoNext.2 ∧
      b.redoNext.2.InStep (m :: past) future := by
  obtain ⟨op, hop, hexp⟩ := exists_explains h.log
  have hnext : b.undo.nextUndone? = some op := by
    unfold UndoLog.nextUndone?
    rw [h.cursor, ← List.length_reverse]
    exact hop
  have hsteady : (b.setRecording none).Steady := h.steady.setRecording none
  have hagrees : b.Agrees (b.setRecording none) := .of_undo (fun _ => rfl) ⟨rfl, rfl, rfl, rfl⟩
  obtain ⟨hafter, hset, hundo⟩ := hsteady.replay op.entries .redo
  have hon := hexp.redo _ hsteady (h.future.1.trans hagrees)
  -- The book after the replay, with the cursor moved on.
  let c := ((b.setRecording none).replay op.entries .redo).setCursor
    (((b.setRecording none).replay op.entries .redo).undo.cursor + 1)
  have hc : ((b.setRecording none).replay op.entries .redo).Agrees c :=
    .of_undo (fun _ => rfl) ⟨rfl, rfl, rfl, rfl⟩
  have hredone : b.redoNext = (true, c) := redoNext_of_some hnext
  rw [hredone]
  refine ⟨rfl, hon.trans hc, ?_⟩
  refine ⟨⟨hafter.wellFormed.of_eq rfl rfl rfl rfl, hafter.quiet⟩,
    h.lawful.of_setup (hagrees.setup.trans (hset.trans hc.setup)), ?_, ?_, ?_, ?_, ?_, ?_⟩
  · show ((b.setRecording none).replay op.entries .redo).config.undoEnabled = true
    rw [hset.config]
    exact h.enabled
  · show ∀ calls i, ((b.setRecording none).replay op.entries .redo).backend.refusal calls i = none
    rw [hset.backend]
    exact h.accepting
  · show ((b.setRecording none).replay op.entries .redo).undo.cursor + 1 = past.length + 1
    rw [hundo]
    exact congrArg (· + 1) h.cursor
  · show List.Forall₂ _ ((b.setRecording none).replay op.entries .redo).undo.operations _
    rw [hundo, List.reverse_cons, List.append_assoc]
    exact h.log
  · exact ⟨hon.trans hc, h.past.congr h.future.1.symm⟩
  · exact h.future.2.congr (hon.trans hc)

/-- An operation in which nothing was recorded. -/
theorem dismiss (h : b.InStep past future) {label : String} {actions : List Action}
    (hf : (b.startOperation label).FaithfulRun actions)
    (hd : (b.session label actions).1 = false) :
    (b.session label actions).2.InStep past future := by
  obtain ⟨o, hrec⟩ := (Recorded.start h.steady h.lawful h.enabled h.accepting label).performAll hf
  have hrec : Recorded b (b.during label actions) o := hrec
  -- An operation is dismissed only if nothing was recorded.
  by_cases he : o.entries = []
  · have hend : b.session label actions = (false, (b.during label actions).setRecording none) :=
      hrec.endOperation_nil he
    have hagrees : b.Agrees ((b.during label actions).setRecording none) :=
      (hrec.agrees_of_nil he).trans (.of_undo (fun _ => rfl) ⟨rfl, rfl, rfl, rfl⟩)
    rw [hend]
    refine ⟨hrec.steady.setRecording none, h.lawful.of_setup hagrees.setup, ?_, ?_, ?_, ?_,
      h.past.congr hagrees,
      h.future.congr hagrees⟩
    · rw [hagrees.setup.config]
      exact h.enabled
    · rw [hagrees.setup.backend]
      exact h.accepting
    · show (b.during label actions).undo.cursor = past.length
      rw [hrec.log]
      exact h.cursor
    · show List.Forall₂ _ (b.during label actions).undo.operations _
      rw [hrec.log]
      exact h.log
  · have hend : (b.session label actions).1 = true := by
      unfold session
      rw [hrec.endOperation_eq he]
    rw [hend] at hd
    cases hd

/-- The operations that are applied explain the past. -/
theorem explains_past (h : b.InStep past future) :
    List.Forall₂ (fun op m => Explains op.entries m) b.undo.past past.reverse := by
  have htake := List.forall₂_take b.undo.cursor h.log
  rw [h.cursor, ← List.length_reverse, List.take_left] at htake
  show List.Forall₂ _ (b.undo.operations.take b.undo.cursor) past.reverse
  rw [h.cursor, ← List.length_reverse]
  exact htake

/-- The log after a commit explains the operation, behind its baseline if there is one. -/
theorem committedLog_explains (h : b.InStep past future) {label : String} {actions : List Action}
    {o : OpenOperation P} (hrec : Recorded b (b.during label actions) o)
    (hagrees : (b.during label actions).Agrees (b.session label actions).2) {l : UndoLog P}
    (hl : l = committedLog (b.during label actions).undo b.config o
      (o.entries.map (b.during label actions).close)) :
    List.Forall₂ (fun op m => Explains op.entries m) l.operations
        ((b.moments label actions ++ past).take b.config.undoLimit).reverse ∧
      l.cursor = ((b.moments label actions ++ past).take b.config.undoLimit).length := by
  have hexp := hrec.explains hagrees
  have hlog : { (b.during label actions).undo with recording := none } =
      ({ b.undo with recording := none } : UndoLog P) := by
    rw [hrec.log]
  have hbase : (b.during label actions).bringsBaseline = !o.baseline.isEmpty := by
    unfold bringsBaseline
    rw [hrec.log]
  rw [hl]
  unfold committedLog moments
  rw [hlog, hbase]
  cases o.baseline.isEmpty with
  | true => exact push_explains h.explains_past hexp _ _
  | false =>
    have hfirst := push_explains h.explains_past hrec.explains_baseline b.config.baselineLabel
      b.config.undoLimit
    have hsecond := push_explains ((UndoLog.past_push _ _ _).symm ▸ hfirst.1) hexp o.label
      b.config.undoLimit
    rw [take_cons_take] at hsecond
    exact hsecond

/-- A committed operation. -/
theorem commit (h : b.InStep past future) {label : String} {actions : List Action}
    (hf : (b.startOperation label).FaithfulRun actions)
    (hc : (b.session label actions).1 = true) :
    (b.session label actions).2.InStep
      ((b.moments label actions ++ past).take b.config.undoLimit) [] := by
  obtain ⟨o, hrec⟩ := (Recorded.start h.steady h.lawful h.enabled h.accepting label).performAll hf
  have hrec : Recorded b (b.during label actions) o := hrec
  by_cases he : o.entries = []
  · have hend : (b.session label actions).1 = false := by
      unfold session
      rw [hrec.endOperation_nil he]
    rw [hend] at hc
    cases hc
  · have hend : b.session label actions = _ := hrec.endOperation_eq he
    have hagrees : (b.during label actions).Agrees (b.session label actions).2 := by
      rw [hend]
      exact .of_undo (fun _ => rfl) ⟨rfl, rfl, rfl, rfl⟩
    have hset : b.SameSetup (b.session label actions).2 := hrec.setup.trans hagrees.setup
    have hlead : (b.session label actions).2.LeadTo (b.moments label actions ++ past) := by
      unfold moments
      split
      · exact ⟨.refl _, .refl b, h.past⟩
      · exact ⟨.refl _, h.past⟩
    have hundo : (b.session label actions).2.undo =
        committedLog (b.during label actions).undo b.config o
          (o.entries.map (b.during label actions).close) := by
      rw [hend, hrec.setup.config]
    obtain ⟨hops, hcursor⟩ := h.committedLog_explains hrec hagrees hundo
    refine ⟨?_, h.lawful.of_setup hset, ?_, ?_, hcursor, ?_, hlead.take _, trivial⟩
    · rw [hend]
      exact ⟨hrec.steady.wellFormed.of_eq rfl rfl rfl rfl, hrec.steady.quiet⟩
    · rw [hset.config]
      exact h.enabled
    · rw [hset.backend]
      exact h.accepting
    · rw [List.append_nil]
      exact hops

end InStep

/-- Every run keeps the log in step with its moments. -/
theorem Timeline.inStep {b : Book P} {past future : List (Moment P)} (h : Timeline b past future) :
    b.InStep past future := by
  -- Induction on the run; `InStep` is the invariant that carries it.
  induction h with
  | start b steady lawful enabled accepting fresh =>
    obtain ⟨hops, hcursor⟩ := fresh
    refine ⟨steady, lawful, enabled, accepting, hcursor, ?_, trivial, trivial⟩
    rw [hops]
    exact .nil
  | commit run label actions faithful committed ih => exact ih.commit faithful committed
  | dismiss run label actions faithful dismissed ih => exact ih.dismiss faithful dismissed
  | @undo b past future run ih =>
    cases past with
    | nil =>
      rw [ih.undoLast_nil]
      exact ih
    | cons m rest => exact ih.undoLast_cons.2.2
  | @redo b past future run ih =>
    cases future with
    | nil =>
      rw [ih.redoNext_nil]
      exact ih
    | cons m rest => exact ih.redoNext_cons.2.2

/-- At every point of a run, undo goes back to what there was before the newest
    moment of the past and redo goes on to what there was after the next moment of
    the future. With no such moment they do nothing and say so. The present book
    stands between the two moments. -/
theorem undo_and_redo_travel {b : Book P} {past future : List (Moment P)}
    (h : Timeline b past future) :
    (match past with
      | [] => b.undoLast = (false, b)
      | m :: _ => b.undoLast.1 = true ∧ m.after.SameView b ∧ m.before.SameView b.undoLast.2) ∧
    (match future with
      | [] => b.redoNext = (false, b)
      | m :: _ => b.redoNext.1 = true ∧ m.before.SameView b ∧ m.after.SameView b.redoNext.2) := by
  have hstep := h.inStep
  constructor
  · cases past with
    | nil => exact hstep.undoLast_nil
    | cons m rest =>
      obtain ⟨hdone, hback, _⟩ := hstep.undoLast_cons
      exact ⟨hdone, hstep.past.1.view, hback.view⟩
  · cases future with
    | nil => exact hstep.redoNext_nil
    | cons m rest =>
      obtain ⟨hdone, hon, _⟩ := hstep.redoNext_cons
      exact ⟨hdone, hstep.future.1.view, hon.view⟩

/-! ### A run of nodes -/

section Nodes

open Bag

/-- A node of which nothing but the label was ever written, if it is there. -/
def isPlainNode (b : Book bags) (n : Nat) : Bool :=
  match b.get? (node n) with
  | none => true
  | some i => decide (i.slots = .empty) && nodeClass.params.all fun p =>
    p.name == "label" || p.isSlots || (i.value? p.accessor).all fun v =>
      match ParamValue.parse p.kind v.text with
      | .ok w => decide (w = v)
      | .error _ => false

/-- All values of such a node are restored from what is captured of them. -/
theorem restorableAll_of_isPlainNode {b : Book bags} (hr : b.registry = nodes) {n : Nat}
    (h : b.isPlainNode n = true) : b.RestorableAll (node n) := by
  intro cl hcl p hp i v hi hv
  have hclass : cl = nodeClass := by
    rw [hr] at hcl
    exact (Option.some.inj hcl).symm
  subst hclass
  unfold isPlainNode at h
  rw [hi] at h
  obtain ⟨hslots, hall⟩ := Bool.and_eq_true_iff.mp h
  have hmem := ObjectClass.mem_params_of_mem_copyable hp
  have hone := List.all_eq_true.mp hall p hmem
  rw [hv] at hone
  by_cases hs : p.isSlots = true
  · rw [Instance.accessor_of_isSlots hs] at hv
    cases hv
    rw [of_decide_eq_true hslots]
    refine ⟨trivial, ?_⟩
    intro ns s hns
    rw [Frame.leafAt_empty] at hns
    cases hns
  · have hkind := Instance.hasKind_value hv
    by_cases hlabel : p.name = "label"
    · -- a string is its own text
      have hp : p = nodeLabel := by
        refine ObjectClass.eq_of_name_eq (ObjectClass.wellFormed_build ..) hmem ?_ hlabel
        exact List.mem_cons_self
      subst hp
      cases v with
      | scalar k s =>
        cases hkind
        show ParamValue.parse (.scalar .string) (ParamValue.scalar .string s).text = _
        simp [ParamValue.parse, ParamValue.read, ParamValue.text, ParamValue.chars,
          ScalarKind.read, ScalarKind.chars, Except.map]
      | _ => cases hkind
    · have hparse : ParamValue.parse p.kind v.text = .ok v := by
        have hone : (match ParamValue.parse p.kind v.text with
            | .ok w => decide (w = v)
            | .error _ => false) = true := by
          simpa [hlabel, hs] using hone
        cases hw : ParamValue.parse p.kind v.text with
        | error err =>
          rw [hw] at hone
          cases hone
        | ok w =>
          rw [hw] at hone
          rw [of_decide_eq_true hone]
      cases v with
      | slots f => exact absurd (ParamValue.isSlots_of_hasKind hkind) hs
      | _ => exact hparse

/-- Writing the label of a plain node. -/
theorem faithful_label {b : Book bags} (hr : b.registry = nodes) {n : Nat} {s : String}
    (hr' : (b.modify (node n) "label" s).2.registry = nodes) (h : b.isPlainNode n = true)
    (h' : (b.modify (node n) "label" s).2.isPlainNode n = true) :
    b.Faithful (.modify (node n) "label" s) := by
  intro p hp
  obtain ⟨cl, hcl, hmem, hname⟩ := undoableParam_eq_ok.mp hp
  have hclass : cl = nodeClass := by
    rw [hr] at hcl
    exact (Option.some.inj hcl).symm
  subst hclass
  have hall := restorableAll_of_isPlainNode hr h
  have hall' := restorableAll_of_isPlainNode hr' h'
  refine ⟨?_, hall nodeClass ?_ p hmem, hall' nodeClass ?_ p hmem, fun _ => hall⟩
  · cases hname
    rfl
  · rw [hr]
    rfl
  · rw [hr']
    rfl

/-- Making an entity while none was deleted yet. -/
theorem faithful_create {b : Book P} {tag : TypeTag} {g : Guid}
    (h : (b.undo.recording.all fun o => (entitiesOf o.entries .create).isEmpty) = true) :
    b.Faithful (.create tag g) := by
  intro o e ho _ hm
  rw [ho] at h
  have hnil : entitiesOf o.entries .create = [] := List.isEmpty_iff.mp h
  have hin := mem_entitiesOf_create.mpr hm
  rw [hnil] at hin
  cases hin

/-- A node is made and labelled. -/
def draft : List Action := [.create "node" (node 1).guid, .modify (node 1) "label" "draft"]

/-- The node is labelled anew, another one is made and the first one is deleted. -/
def revision : List Action :=
  [.modify (node 1) "label" "final", .create "node" (node 2).guid, .delete (node 1)]

/-- The book after the draft. -/
def drafted : Book bags := ((emptyBook 1).session "draft" draft).2

/-- The book after the revision. -/
def revised : Book bags := (drafted.session "revise" revision).2

theorem steady_emptyBook (id : Nat) : (emptyBook id).Steady where
  wellFormed := wellFormed_emptyBook id
  quiet := by
    intro e i hi
    cases hi

theorem faithful_draft : ((emptyBook 1).startOperation "draft").FaithfulRun draft := by
  refine ⟨faithful_create (by decide +kernel), ?_, trivial⟩
  exact faithful_label rfl rfl (by decide +kernel) (by decide +kernel)

theorem faithful_revision : (drafted.startOperation "revise").FaithfulRun revision := by
  refine ⟨?_, faithful_create (by decide +kernel), ?_, trivial⟩
  · exact faithful_label rfl rfl (by decide +kernel) (by decide +kernel)
  · exact restorableAll_of_isPlainNode rfl (by decide +kernel)

theorem revision_undone_and_redone :
    (∃ past, Timeline revised (⟨drafted, revised⟩ :: past) []) ∧
      revised.undoLast.1 = true ∧ drafted.SameView revised.undoLast.2 ∧
      revised.undoLast.2.redoNext.1 = true ∧ revised.SameView revised.undoLast.2.redoNext.2 := by
  have hstart := Timeline.start (emptyBook 1) (steady_emptyBook 1) isLawful_nodes rfl
    (fun _ _ => rfl) ⟨rfl, rfl⟩
  have hdraft := hstart.commit "draft" draft faithful_draft (by decide +kernel)
  have hrun := hdraft.commit "revise" revision faithful_revision (by decide +kernel)
  have hnewest : ∃ past, Timeline revised (⟨drafted, revised⟩ :: past) [] := by
    unfold moments at hrun
    split at hrun
    · exact ⟨_, hrun⟩
    · exact ⟨_, hrun⟩
  obtain ⟨past, hpast⟩ := hnewest
  obtain ⟨⟨hundo, _, hback⟩, _⟩ := undo_and_redo_travel hpast
  obtain ⟨_, hredo, _, hon⟩ := undo_and_redo_travel hpast.undo
  exact ⟨⟨past, hpast⟩, hundo, hback, hredo, hon⟩

end Nodes

end Book

end EntityBook
