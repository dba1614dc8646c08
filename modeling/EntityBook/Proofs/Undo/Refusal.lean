import EntityBook.Proofs.Undo.Log
import EntityBook.Proofs.Undo.Timeline

/-! # Writes that the backend refuses

  A write whose commit is refused has happened all the same, but the call ends
  before it records the value after. So the log holds of a parameter the value at
  the end of the last call that went through, and the close fills in the present
  value only if there was no such call.

  `Writing` is what an operation that only writes knows, whatever the backend
  answers and whatever else is being edited; from it follows, parameter by
  parameter, when undo and redo of the operation are right.
-/

namespace EntityBook

variable {P : PayloadFamily}

namespace Book

/-! ### Calls that write -/

/-- A step that writes a parameter other than the side-table, whose text reads back
    before and after it. -/
def Writes (b : Book P) : Action → Prop
  | .modify e name s => ∀ p, b.undoableParam e name = .ok p →
    p.isSlots = false ∧ b.Restorable e p ∧ (b.modify e name s).2.Restorable e p
  | _ => False

/-- Every step writes a parameter. -/
def WritingRun (b : Book P) : List Action → Prop
  | [] => True
  | a :: rest => b.Writes a ∧ (b.perform a).WritingRun rest

/-- What a step leaves in the open operation as the value of a parameter after it:
    the value that it has then, if the step wrote it and went through. -/
def noted? (b : Book P) (e : Entity) (name : String) : Action → Option ParamValue
  | .modify e' name' s =>
    if e' = e ∧ name' = name then
      match b.modify e' name' s with
      | (.ok _, b') => (b'.read e name).toOption
      | (.error _, _) => none
    else none
  | _ => none

/-- The value that a parameter had at the end of the last step that wrote it and went
    through. -/
def lastNoted (b : Book P) (e : Entity) (name : String) : List Action → Option ParamValue
  | [] => none
  | a :: rest => ((b.perform a).lastNoted e name rest).or (b.noted? e name a)

end Book

/-! ### One parameter in one operation -/

/-- A change holds the value before of a parameter, and the one that was noted last. -/
structure Change.Notes (c : Change P) (p : Param P) (v₀ v : ParamValue)
    (noted : Option ParamValue) : Prop where
  param : c.param = p
  path : c.path = none
  before : c.before = .value v₀.text
  after : c.after = noted.elim .pending fun w => .value w.text
  readsBefore : ParamValue.parse p.kind v₀.text = .ok v₀
  readsNow : ParamValue.parse p.kind v.text = .ok v
  readsNoted : ∀ w, noted = some w → ParamValue.parse p.kind w.text = .ok w

/-- What an open operation holds of a parameter, which had the value `v₀` at first and
    has the value `v` now. -/
inductive NotedCell (p : Param P) (v₀ v : ParamValue) (noted : Option ParamValue) :
    List (Change P) → Prop where
  /-- Nothing. -/
  | untouched (same : v = v₀) (silent : noted = none) : NotedCell p v₀ v noted []
  /-- The value before. -/
  | seen (c : Change P) (notes : c.Notes p v₀ v noted) : NotedCell p v₀ v noted [c]

section Cells

open Book

variable {b : Book P} {e : Entity} {p : Param P} {v₀ v : ParamValue} {noted : Option ParamValue}
  {cs : List (Change P)}

/-- The close fills in the present value if nothing was noted. -/
theorem Change.Notes.closed {c : Change P} (h : c.Notes p v₀ v noted) {i : Instance P}
    (he : c.entity = e) (hi : b.get? e = some i) (hv : i.value? p.accessor = some v) :
    b.closed c =
      { c with after := .value (noted.getD v).text, kept := v₀.text = (noted.getD v).text } := by
  unfold Book.closed
  rw [he, h.param, h.path, Book.capture_eq hi hv, h.before, h.after]
  cases noted with
  | none => simp
  | some w => simp

theorem Change.Notes.reads {c : Change P} (h : c.Notes p v₀ v noted) :
    ParamValue.parse p.kind (noted.getD v).text = .ok (noted.getD v) := by
  cases noted with
  | none => exact h.readsNow
  | some w => exact h.readsNoted w rfl

namespace NotedCell

/-- Before its first change the value is captured. -/
theorem first (e : Entity) (hv : ParamValue.parse p.kind v.text = .ok v) :
    NotedCell p v v none [{ entity := e, param := p, path := none, before := .value v.text }] := by
  refine .seen _ ⟨rfl, rfl, rfl, rfl, hv, hv, ?_⟩
  intro w hw
  cases hw

/-- A cell in which something was seen holds whatever is written afterwards, as far
    as that reads back. -/
theorem rewrite (h : NotedCell p v₀ v noted cs) (hcs : cs ≠ []) {w : ParamValue}
    (hw : ParamValue.parse p.kind w.text = .ok w) : NotedCell p v₀ w noted cs := by
  cases h with
  | untouched => exact absurd rfl hcs
  | seen c hc =>
    exact .seen c ⟨hc.param, hc.path, hc.before, hc.after, hc.readsBefore, hw, hc.readsNoted⟩

/-- Noting the present value. -/
theorem note {c : Change P} (h : c.Notes p v₀ v noted) :
    NotedCell p v₀ v (some v) [{ c with after := .value v.text }] := by
  refine .seen _ ⟨h.param, h.path, h.before, rfl, h.readsBefore, h.readsNow, ?_⟩
  intro w hw
  cases hw
  exact h.readsNow

/-- Undo gives the first value back, unless it counts as kept. -/
theorem undo (h : NotedCell p v₀ v noted cs) {i : Instance P} (he : ∀ c ∈ cs, c.entity = e)
    (hi : b.get? e = some i) (hv : i.value? p.accessor = some v) :
    Direction.undo.replayValue (cs.map b.closed) v =
      if v₀ = noted.getD v then v else v₀ := by
  cases h with
  | untouched same silent =>
    subst same
    simp [silent, Direction.replayValue]
  | seen c hc =>
    rw [List.map_singleton, hc.closed (he c List.mem_cons_self) hi hv]
    exact undo_single hc.param hc.path hc.before hc.readsBefore hc.reads v

/-- Redo gives the value that was noted, or else the last one, unless that counts as
    kept. -/
theorem redo (h : NotedCell p v₀ v noted cs) {i : Instance P} (he : ∀ c ∈ cs, c.entity = e)
    (hi : b.get? e = some i) (hv : i.value? p.accessor = some v) (w : ParamValue) :
    Direction.redo.replayValue (cs.map b.closed) w =
      if v₀ = noted.getD v then w else noted.getD v := by
  cases h with
  | untouched same silent =>
    subst same
    simp [silent, Direction.replayValue]
  | seen c hc =>
    rw [List.map_singleton, hc.closed (he c List.mem_cons_self) hi hv]
    exact redo_single hc.param hc.path hc.readsBefore hc.reads w

end NotedCell

end Cells

namespace Book

open Recorded

/-! ### What the operation knows -/

/-- The cells of a live entity. -/
def NotedCells (b₀ : Book P) (entries : List (UndoEntry P)) (e : Entity) (i₀ i : Instance P)
    (noted : String → Option ParamValue) : Prop :=
  ∀ cl, b₀.registry.find? e.typeTag = some cl → ∀ p ∈ cl.copyable, ∀ v₀ v,
    i₀.value? p.accessor = some v₀ → i.value? p.accessor = some v →
      NotedCell p v₀ v (noted p.name) (cell entries e p.name)

/-- Nothing but changes of single values was recorded. -/
structure OnlyChanges (b₀ : Book P) (o : OpenOperation P) : Prop where
  unwatched : o.watched = []
  changes : ∀ u ∈ o.entries, ∃ c, u = .changed c
  fits : b₀.FitEntries o.entries

theorem OnlyChanges.append {b₀ : Book P} {o : OpenOperation P} (h : OnlyChanges b₀ o)
    (baseline : List (UndoEntry P)) {c : Change P}
    (hc : ∃ cl, b₀.registry.find? c.entity.typeTag = some cl ∧ c.Fits cl) :
    OnlyChanges b₀ { o with baseline, entries := o.entries ++ [.changed c] } where
  unwatched := h.unwatched
  changes := by
    intro u hu
    rcases List.mem_append.mp hu with hu | hu
    · exact h.changes u hu
    · exact ⟨c, List.mem_singleton.mp hu⟩
  fits := by
    intro d hd
    rcases List.mem_append.mp hd with hd | hd
    · exact h.fits d hd
    · cases List.mem_singleton.mp hd
      exact hc

theorem OnlyChanges.refresh {b₀ : Book P} {o : OpenOperation P} (h : OnlyChanges b₀ o)
    (baseline : List (UndoEntry P)) (b : Book P) (e : Entity) (p : Param P) (name : String) :
    OnlyChanges b₀ { o with baseline, entries := o.entries.map (b.refresh e p name) } where
  unwatched := h.unwatched
  changes := by
    intro u hu
    obtain ⟨v, hv, rfl⟩ := List.mem_map.mp hu
    obtain ⟨c, rfl⟩ := h.changes v hv
    exact ⟨_, refresh_changed b e p name c⟩
  fits := fitEntries_refresh b h.fits e p name

/-- An operation under way in which parameters were written, with the values that
    were noted of them. -/
structure Writing (b₀ b : Book P) (o : OpenOperation P)
    (noted : Entity → String → Option ParamValue) : Prop where
  wellFormed : b.WellFormed
  setup : b₀.SameSetup b
  log : b.undo = { b₀.undo with recording := some o }
  plain : OnlyChanges b₀ o
  gone : ∀ e, b₀.get? e = none → b.get? e = none ∧ ∀ name, noted e name = none
  live : ∀ e i₀, b₀.get? e = some i₀ →
    ∃ i, b.get? e = some i ∧ NotedCells b₀ o.entries e i₀ i (noted e)

variable {b₀ b b' : Book P} {e : Entity} {name s : String} {p : Param P} {i : Instance P}

/-- Writing one parameter of a live entity leaves the others as they are. -/
theorem exists_written (hb : b.WellFormed) (lawful : b.Lawful)
    (hp : b.undoableParam e name = .ok p) (hi : b.get? e = some i) (s : String) :
    ∃ k, (b.writeText e name s).2.get? e = some k ∧
      ∀ cl, b.registry.find? e.typeTag = some cl → ∀ q ∈ cl.copyable, q.name ≠ p.name →
        k.value? q.accessor = i.value? q.accessor := by
  obtain ⟨cl, hcl, hmem, hname⟩ := undoableParam_eq_ok.mp hp
  have hparam : b.param? e name = .ok p := Registry.param?_eq_ok.mpr ⟨cl, hcl, hname⟩
  have hidle := (hb.fits e i hi).deleting
  unfold Book.writeText
  rw [hparam]
  dsimp only
  cases hw : i.enter.writeText p s with
  | ok j =>
    obtain ⟨k, hk, hclean⟩ := get?_tryEdit_self (f := fun i => i.writeText p s) hi hw
      (Instance.rewrites_writeText hw) hidle
    obtain ⟨_, w, _, hwrite⟩ := Instance.writeText_cases hw
    refine ⟨k, hk, ?_⟩
    intro cl' hcl' q hq hn
    cases hcl'.symm.trans hcl
    have hlaw : cl.IsLawful := lawful.of_find? hcl
    have hsame : k.Same j := (Instance.Same.of_markClean hclean).trans (Instance.Same.leave j).symm
    rw [hsame.value?, hlaw.independent p hmem q hq (Ne.symm hn) _ _ w hwrite]
    exact ((Instance.Same.enter i).value? _).symm
  | error err =>
    obtain ⟨k, hk, hclean⟩ := get?_tryEdit_failed (f := fun i => i.writeText p s) hi hw hidle
    refine ⟨k, hk, ?_⟩
    intro _ _ q _ _
    exact (Instance.Same.of_markClean hclean).value? q.accessor

/-- A call on an entity that is not there fails and leaves the book as it is. -/
theorem modify_of_none (hi : b.get? e = none) (name s : String) :
    ∃ err, b.modify e name s = (.error err, b) := by
  have hbefore := recordBefore_of_none hi name
  obtain ⟨err, herr⟩ : ∃ err, b.writeText e name s = (.error err, b) := by
    unfold Book.writeText
    split
    · exact ⟨_, rfl⟩
    · unfold tryEdit
      rw [edit_of_none hi]
      exact ⟨_, rfl⟩
  have hmodifies := b.modifies e name s
  generalize b.modify e name s = out at hmodifies ⊢
  cases hmodifies with
  | unrecorded =>
    rw [hbefore]
    exact ⟨_, rfl⟩
  | unwritten =>
    rw [hbefore, herr]
    exact ⟨_, rfl⟩
  | written _ write =>
    rw [hbefore, herr] at write
    cases write

/-- After the value before was recorded, the parameter is written, and if that goes
    through, the value after is recorded. -/
theorem modify_of_recorded (h : b.recordBefore e name = (.ok (), b')) :
    (∃ err, b.modify e name s = (.error err, (b'.writeText e name s).2)) ∨
      b.modify e name s = (b'.writeText e name s).2.recordAfter e name := by
  have hmodifies := b.modifies e name s
  generalize b.modify e name s = out at hmodifies ⊢
  cases hmodifies with
  | unrecorded before =>
    rw [h] at before
    cases before
  | unwritten =>
    rw [h]
    exact Or.inl ⟨_, rfl⟩
  | written =>
    rw [h]
    exact Or.inr rfl

/-- If the value before cannot be recorded, nothing is written. -/
theorem modify_of_unrecorded {err : StoreError} (h : b.recordBefore e name = (.error err, b')) :
    b.modify e name s = (.error err, b') := by
  unfold Book.modify
  rw [h]

/-! ### What is read and what is noted -/

theorem noted?_of_ne {e' : Entity} {n : String} (h : ¬ (e' = e ∧ n = name)) :
    b.noted? e' n (.modify e name s) = none := by
  unfold noted?
  dsimp only
  rw [if_neg]
  intro hboth
  exact h ⟨hboth.1.symm, hboth.2.symm⟩

theorem noted?_of_error {err : StoreError} (h : b.modify e name s = (.error err, b'))
    (e' : Entity) (n : String) : b.noted? e' n (.modify e name s) = none := by
  unfold noted?
  dsimp only
  rw [h]
  split <;> rfl

theorem noted?_of_ok (h : b.modify e name s = (.ok (), b')) :
    b.noted? e name (.modify e name s) = (b'.read e name).toOption := by
  unfold noted?
  dsimp only
  rw [if_pos ⟨rfl, rfl⟩, h]

namespace Writing

variable {o o' : OpenOperation P} {noted noted' : Entity → String → Option ParamValue}

theorem start (hb : b.WellFormed) (enabled : b.config.undoEnabled = true) (label : String) :
    Writing b (b.startOperation label) { label } fun _ _ => none := by
  have hstart : b.startOperation label = b.setRecording (some { label }) := by
    unfold startOperation
    rw [if_pos enabled]
  rw [hstart]
  refine ⟨hb.of_eq rfl rfl rfl rfl, ⟨rfl, rfl, rfl, rfl⟩, rfl, ⟨rfl, ?_, ?_⟩, ?_, ?_⟩
  · intro u hu
    cases hu
  · intro c hc
    cases hc
  · intro e he
    exact ⟨he, fun _ => rfl⟩
  · intro e i₀ hi₀
    refine ⟨i₀, hi₀, ?_⟩
    intro cl _ p _ v₀ v hv₀ hv
    exact .untouched (Option.some.inj (hv.symm.trans hv₀)) rfl

theorem recording?_eq (h : Writing b₀ b o noted) (enabled : b₀.config.undoEnabled = true) :
    b.recording? = some o := by
  unfold recording?
  rw [h.setup.config, if_pos enabled, h.log]

theorem lawful (h : Writing b₀ b o noted) (hl : b₀.Lawful) : b.Lawful := hl.of_setup h.setup

/-- The operation goes on when one parameter of one entity changes, in the book or in
    the entries. -/
theorem revise (h : Writing b₀ b o noted) {cl : ObjectClass P} (hi : b.get? e = some i)
    (hcl : b.registry.find? e.typeTag = some cl) (hp : p ∈ cl.copyable) {j : Instance P}
    (hb : b'.WellFormed) (hset : b.SameSetup b')
    (hlog : b'.undo = { b.undo with recording := some o' }) (hplain : OnlyChanges b₀ o')
    (hj : b'.get? e = some j) (hothers : ∀ e', e' ≠ e → b'.get? e' = b.get? e')
    (hrest : ∀ q ∈ cl.copyable, q.name ≠ p.name → j.value? q.accessor = i.value? q.accessor)
    (hcells : ∀ e' n, ¬ (e' = e ∧ n = p.name) →
      cell o'.entries e' n = cell o.entries e' n ∧ noted' e' n = noted e' n)
    (hown : ∀ v₀ v w, i.value? p.accessor = some v → j.value? p.accessor = some w →
      NotedCell p v₀ v (noted e p.name) (cell o.entries e p.name) →
        NotedCell p v₀ w (noted' e p.name) (cell o'.entries e p.name)) :
    Writing b₀ b' o' noted' where
  wellFormed := hb
  setup := h.setup.trans hset
  log := by rw [hlog, h.log]
  plain := hplain
  gone := by
    intro e' he'
    obtain ⟨hnow, hnone⟩ := h.gone e' he'
    have hne : e' ≠ e := by
      rintro rfl
      rw [hi] at hnow
      cases hnow
    refine ⟨(hothers e' hne).trans hnow, ?_⟩
    intro n
    exact (hcells e' n fun hboth => hne hboth.1).2.trans (hnone n)
  live := by
    intro e' i₀ hi₀
    obtain ⟨k, hk, cells⟩ := h.live e' i₀ hi₀
    by_cases he : e' = e
    · subst he
      cases hk.symm.trans hi
      refine ⟨j, hj, ?_⟩
      intro cl' hcl' q hq v₀ v hv₀ hv
      have hcl₀ : b₀.registry.find? e'.typeTag = some cl := h.setup.registry ▸ hcl
      cases hcl'.symm.trans hcl₀
      have hclwf : cl.WellFormed := h.wellFormed.registry.of_find? hcl
      by_cases hn : q.name = p.name
      · have hqp : q = p := ObjectClass.eq_of_name_eq hclwf
          (ObjectClass.mem_params_of_mem_copyable hq)
          (ObjectClass.mem_params_of_mem_copyable hp) hn
        subst hqp
        have hnow := h.wellFormed.exists_value hi hcl hq
        exact hown v₀ _ v hnow hv (cells cl hcl₀ q hq v₀ _ hv₀ hnow)
      · obtain ⟨hcell, hnoted⟩ := hcells e' q.name fun hboth => hn hboth.2
        rw [hcell, hnoted]
        exact cells cl hcl₀ q hq v₀ v hv₀ ((hrest q hq hn).symm.trans hv)
    · refine ⟨k, (hothers e' he).trans hk, ?_⟩
      intro cl' hcl' q hq v₀ v hv₀ hv
      obtain ⟨hcell, hnoted⟩ := hcells e' q.name fun hboth => he hboth.1
      rw [hcell, hnoted]
      exact cells cl' hcl' q hq v₀ v hv₀ hv

/-- Before a parameter is written, its value is captured. -/
theorem see (h : Writing b₀ b o noted) (enabled : b₀.config.undoEnabled = true)
    (hp : b.undoableParam e p.name = .ok p) (hs : p.isSlots = false) (hr : b.Restorable e p)
    (hi : b.get? e = some i) :
    ∃ o', b.recordBefore e p.name = (.ok (), b.setRecording (some o')) ∧
      Writing b₀ (b.setRecording (some o')) o' noted ∧ cell o'.entries e p.name ≠ [] := by
  obtain ⟨baseline, more, hrec, hmore⟩ :=
    recordBefore_of_live h.wellFormed (h.recording?_eq enabled) hp hs hi
  obtain ⟨cl, hcl, hmem, _⟩ := undoableParam_eq_ok.mp hp
  refine ⟨_, hrec, ?_⟩
  have hb (x : Option (OpenOperation P)) : (b.setRecording x).WellFormed :=
    h.wellFormed.of_eq rfl rfl rfl rfl
  have hset (x : Option (OpenOperation P)) : b.SameSetup (b.setRecording x) :=
    ⟨rfl, rfl, rfl, rfl⟩
  rcases hmore with ⟨rfl, hcell⟩ | ⟨rfl, hnew⟩
  -- It was seen before, and at most the baseline grows.
  · rw [List.append_nil]
    refine ⟨h.revise hi hcl hmem (hb _) (hset _) rfl ?_ hi (fun _ _ => rfl) (fun _ _ _ => rfl)
      (fun _ _ _ => ⟨rfl, rfl⟩) ?_, hcell⟩
    · exact ⟨h.plain.unwatched, h.plain.changes, h.plain.fits⟩
    · intro v₀ v w hv hw hown
      cases hv.symm.trans hw
      exact hown
  · refine ⟨h.revise hi hcl hmem (hb _) (hset _) rfl ?_ hi (fun _ _ => rfl) (fun _ _ _ => rfl)
      ?_ ?_, ?_⟩
    · exact h.plain.append baseline ⟨cl, h.setup.registry ▸ hcl, hmem, hs.symm⟩
    · intro e' n hne
      rw [cell_append, cell_sighting_of_ne hne, List.append_nil]
      exact ⟨rfl, rfl⟩
    · intro v₀ v w hv hw hown
      cases hv.symm.trans hw
      have hparse : ParamValue.parse p.kind v.text = .ok v :=
        (hr i v hi hv).parse hs (Instance.hasKind_value hv)
      have hsight : sighting e i p = ⟨e, p, none, .value v.text, .pending, false⟩ := by
        unfold sighting valueOf
        rw [hv]
        rfl
      rw [cell_append, hnew, List.nil_append, cell_sighting_self, hsight]
      rw [hnew] at hown
      -- Nothing was seen of it so far, so it has the value that it had at first.
      cases hown with
      | untouched same silent =>
        rw [silent, ← same]
        exact .first e hparse
    · rw [cell_append, cell_sighting_self]
      simp

/-- Writing a parameter that was seen. -/
theorem write (h : Writing b₀ b o noted) (hl : b₀.Lawful)
    (hp : b.undoableParam e p.name = .ok p) (hs : p.isSlots = false)
    (hi : b.get? e = some i) (hcell : cell o.entries e p.name ≠ [])
    (hr : (b.writeText e p.name s).2.Restorable e p) :
    Writing b₀ (b.writeText e p.name s).2 o noted ∧
      ∃ k, (b.writeText e p.name s).2.get? e = some k := by
  obtain ⟨cl, hcl, hmem, _⟩ := undoableParam_eq_ok.mp hp
  obtain ⟨k, hk, hrest⟩ := exists_written h.wellFormed (h.lawful hl) hp hi s
  have hrev := Revises.writeText h.wellFormed e p.name s
  refine ⟨?_, k, hk⟩
  refine h.revise hi hcl hmem (hrev.wellFormed h.wellFormed) (.of_revises hrev) ?_ h.plain hk
    (fun e' he' => get?_writeText_of_ne he' p.name s) (hrest cl hcl) (fun _ _ _ => ⟨rfl, rfl⟩) ?_
  · rw [hrev.undo, h.log]
  · intro v₀ v w hv hw hown
    exact hown.rewrite hcell ((hr k w hk hw).parse hs (Instance.hasKind_value hw))

/-- Recording a parameter that was seen notes its present value. -/
theorem refresh (h : Writing b₀ b o noted) (enabled : b₀.config.undoEnabled = true)
    (hp : b.undoableParam e p.name = .ok p) (hi : b.get? e = some i)
    (hcell : cell o.entries e p.name ≠ []) :
    ∃ o', b.recordAfter e p.name = (.ok (), b.setRecording (some o')) ∧
      ∀ noted' : Entity → String → Option ParamValue,
        noted' e p.name = i.value? p.accessor →
        (∀ e' n, ¬ (e' = e ∧ n = p.name) → noted' e' n = noted e' n) →
        Writing b₀ (b.setRecording (some o')) o' noted' := by
  obtain ⟨baseline, hbase⟩ := exists_ensureBaseline h.wellFormed o hi
  obtain ⟨cl, hcl, hmem, _⟩ := undoableParam_eq_ok.mp hp
  have hready : b.Prepares e p.name p o { o with baseline } :=
    ⟨h.recording?_eq enabled, hp, hbase⟩
  refine ⟨_, hready.recordAfter_filled (any_targets.mpr hcell), ?_⟩
  intro noted' hself hothers
  rw [fillIn_of_unwatched (by simp [h.plain.unwatched])]
  refine h.revise hi hcl hmem (h.wellFormed.of_eq rfl rfl rfl rfl) ⟨rfl, rfl, rfl, rfl⟩ rfl
    (h.plain.refresh baseline b e p p.name) hi (fun _ _ => rfl) (fun _ _ _ => rfl) ?_ ?_
  · intro e' n hne
    exact ⟨cell_refresh_of_ne b o.entries p hne, hothers e' n hne⟩
  · intro v₀ v w hv hw hown
    cases hv.symm.trans hw
    rw [hself, hv, cell_refresh]
    cases hcs : cell o.entries e p.name with
    | nil => exact absurd hcs hcell
    | cons c rest =>
      rw [hcs] at hown
      cases hown with
      | seen _ hc =>
        have hin : c ∈ cell o.entries e p.name := by
          rw [hcs]
          exact List.mem_cons_self
        rw [List.map_singleton, refreshed_of_mem hin hc.path hi hv]
        exact .note hc

theorem congr (h : Writing b₀ b o noted) (hn : ∀ e n, noted' e n = noted e n) :
    Writing b₀ b o noted' := by
  have heq : noted' = noted := funext fun e => funext fun n => hn e n
  rw [heq]
  exact h

/-- Every call keeps what the operation knows, whatever the backend says. -/
theorem modify (h : Writing b₀ b o noted) (hl : b₀.Lawful)
    (enabled : b₀.config.undoEnabled = true) (hw : b.Writes (.modify e name s)) :
    ∃ o', Writing b₀ (b.modify e name s).2 o' fun e' n =>
      (b.noted? e' n (.modify e name s)).or (noted e' n) := by
  -- A call that fails before it writes leaves the book and notes nothing.
  have failed (err : StoreError) (hf : b.modify e name s = (.error err, b)) :
      ∃ o', Writing b₀ (b.modify e name s).2 o' fun e' n =>
        (b.noted? e' n (.modify e name s)).or (noted e' n) := by
    rw [hf]
    refine ⟨o, h.congr ?_⟩
    intro e' n
    rw [noted?_of_error hf, Option.none_or]
  cases hi : b.get? e with
  | none =>
    obtain ⟨err, hf⟩ := modify_of_none hi name s
    exact failed err hf
  | some i =>
    cases hp : b.undoableParam e name with
    | error err =>
      exact failed err (modify_of_unrecorded (recordBefore_of_unknown (h.recording?_eq enabled) hp))
    | ok p =>
      obtain ⟨hs, hr, hr'⟩ := hw p hp
      obtain ⟨cl, hcl, hmem, hname⟩ := undoableParam_eq_ok.mp hp
      have hname : p.name = name := ObjectClass.name_of_param? hname
      subst hname
      obtain ⟨o₁, hrec, h₁, hcell⟩ := h.see enabled hp hs hr hi
      have hcases := modify_of_recorded (s := s) hrec
      -- Recording a value does not change it, so what is written reads back at once.
      have hget : (b.modify e p.name s).2.get? e =
          ((b.setRecording (some o₁)).writeText e p.name s).2.get? e := by
        rcases hcases with ⟨err, hf⟩ | hf
        · rw [hf]
        · rw [hf]
          exact get?_recordAfter _ e p.name e
      have hr₂ : ((b.setRecording (some o₁)).writeText e p.name s).2.Restorable e p := by
        intro k v hk hv
        exact hr' k v (hget.trans hk) hv
      obtain ⟨h₂, k, hk⟩ := h₁.write hl hp hs hi hcell hr₂
      rcases hcases with ⟨err, hf⟩ | hf
      · rw [hf]
        refine ⟨o₁, h₂.congr ?_⟩
        intro e' n
        rw [noted?_of_error hf, Option.none_or]
      · have hp₂ : ((b.setRecording (some o₁)).writeText e p.name s).2.undoableParam e p.name =
            .ok p := by
          refine undoableParam_eq_ok.mpr ?_
          rw [h₂.setup.registry, ← h.setup.registry]
          exact undoableParam_eq_ok.mp hp
        obtain ⟨o₂, hafter, h₃⟩ := h₂.refresh enabled hp₂ hk hcell
        have hok := hf.trans hafter
        rw [hok]
        refine ⟨o₂, h₃ _ ?_ ?_⟩
        · have hcl₂ := h₂.setup.registry ▸ h.setup.registry ▸ hcl
          have hvalue := h₂.wellFormed.exists_value hk hcl₂ hmem
          rw [noted?_of_ok hok, read_eq (b := setRecording _ (some o₂)) hp₂ hk hvalue, hvalue]
          rfl
        · intro e' n hne
          rw [noted?_of_ne hne, Option.none_or]

theorem perform (h : Writing b₀ b o noted) (hl : b₀.Lawful)
    (enabled : b₀.config.undoEnabled = true) {a : Action} (hw : b.Writes a) :
    ∃ o', Writing b₀ (b.perform a) o' fun e n => (b.noted? e n a).or (noted e n) := by
  cases a with
  | modify e name s => exact h.modify hl enabled hw
  | create tag g => exact hw.elim
  | delete e => exact hw.elim

/-- A run notes of every parameter the value after the last call that went through. -/
theorem performAll (h : Writing b₀ b o noted) (hl : b₀.Lawful)
    (enabled : b₀.config.undoEnabled = true) {actions : List Action}
    (run : b.WritingRun actions) :
    ∃ o', Writing b₀ (b.performAll actions) o' fun e n =>
      (b.lastNoted e n actions).or (noted e n) := by
  induction actions generalizing b o noted with
  | nil => exact ⟨o, h⟩
  | cons a rest ih =>
    obtain ⟨hone, hrest⟩ := run
    obtain ⟨o', h'⟩ := h.perform hl enabled hone
    obtain ⟨o'', h''⟩ := ih h' hrest
    refine ⟨o'', h''.congr ?_⟩
    intro e n
    exact Option.or_assoc

/-! ### Replay -/

/-- Closed writes only change values. -/
theorem changes_closed (h : Writing b₀ b o noted) :
    ∀ u ∈ o.entries.map b.close, ∃ c, u = .changed c := by
  intro u hu
  obtain ⟨w, hw, rfl⟩ := List.mem_map.mp hu
  obtain ⟨c, rfl⟩ := h.plain.changes w hw
  exact ⟨b.closed c, rfl⟩

/-- What a replay makes of a value, whatever the backend says. -/
theorem value?_replay (h : Writing b₀ b o noted) (hl : b₀.Lawful) {c : Book P} (hc : c.WellFormed)
    (hset : b₀.SameSetup c) (d : Direction) (hp : b₀.undoableParam e p.name = .ok p)
    {k : Instance P} (hk : c.get? e = some k) {v : ParamValue}
    (hv : k.value? p.accessor = some v) :
    ∃ l, (c.replay (o.entries.map b.close) d).get? e = some l ∧ l.value? p.accessor =
      some (d.replayValue ((cell o.entries e p.name).map b.closed) v) := by
  obtain ⟨cl, hcl, hmem, _⟩ := undoableParam_eq_ok.mp hp
  obtain ⟨cl', hcl', _, htype⟩ := (hc.fits e k hk).known
  cases hcl'.symm.trans (hset.registry.symm ▸ hcl)
  have hfit : c.FitEntries (o.entries.map b.close) := h.plain.fits.close.of_setup hset
  obtain ⟨hmade, hremoved⟩ := entitiesOf_of_changes h.changes_closed d
  have hlive : (c.prepared (o.entries.map b.close) d).get? e = some k := by
    unfold Book.prepared
    rw [hmade, List.foldl_nil]
    exact hk
  obtain ⟨l, hlast, hvalue⟩ := value?_replay_of_kept hc hremoved hfit hcl'
    ((hl.of_setup hset).of_find? hcl') hlive htype
  refine ⟨l, hlast, ?_⟩
  rw [← cell_close]
  exact hvalue p hmem v hv

end Writing

/-! ### Undo and redo of writes -/

section Values

variable {v₀ v : ParamValue} {noted : Option ParamValue}

theorem undone_eq_iff : (if v₀ = noted.getD v then v else v₀) = v₀ ↔
    ∀ w, noted = some w → v₀ = w → v = w := by
  cases noted with
  | none => simp [eq_comm]
  | some w =>
    by_cases hw : v₀ = w
    · simp [hw]
    · simp [hw]

theorem redone_eq_iff {u : ParamValue} (hu : v₀ = noted.getD v → u = v) :
    (if v₀ = noted.getD v then u else noted.getD v) = v ↔
      ∀ w, noted = some w → v₀ = w ∨ v = w := by
  cases noted with
  | none =>
    by_cases hv : v₀ = v
    · simpa [hv] using hu hv
    · simp [hv]
  | some w =>
    by_cases hw : v₀ = w
    · simpa [hw] using hu hw
    · simp [hw, eq_comm]

end Values

/-- What is read of a parameter after undo, and after redo, of an operation that
    writes. -/
theorem Writing.read_replayed {o : OpenOperation P} {noted : Entity → String → Option ParamValue}
    (h : Writing b₀ b o noted) (hb₀ : b₀.WellFormed) (lawful : b₀.Lawful)
    (hp : b₀.undoableParam e name = .ok p) {m n : Book P} {u : UndoLog P}
    (hm : m = (b.withLog u).replay (o.entries.map b.close) .undo) (u' : UndoLog P)
    (hn : n = (m.withLog u').replay (o.entries.map b.close) .redo) :
    (m.read e name = b₀.read e name ↔
      ∀ w, noted e name = some w → b₀.read e name = .ok w → b.read e name = .ok w) ∧
    (n.read e name = b.read e name ↔
      ∀ w, noted e name = some w → b₀.read e name = .ok w ∨ b.read e name = .ok w) := by
  obtain ⟨cl, hcl, hmem, hname⟩ := undoableParam_eq_ok.mp hp
  obtain rfl : p.name = name := ObjectClass.name_of_param? hname
  have hback := Revises.replay_of_changes h.changes_closed (h.wellFormed.withLog u) .undo
  have hmid : b₀.SameSetup (b.withLog u) := h.setup.trans (.withLog b u)
  rw [← hm] at hback
  have hset : b₀.SameSetup (m.withLog u') := (hmid.trans (.of_revises hback)).trans (.withLog m u')
  have hwf := (hback.wellFormed (h.wellFormed.withLog u)).withLog u'
  have hforth := Revises.replay_of_changes h.changes_closed hwf .redo
  rw [← hn] at hforth
  -- The parameter is found in all books alike.
  have hparam {x : Book P} (hx : x.registry = b₀.registry) : x.undoableParam e p.name = .ok p :=
    (undoableParam_congr hx e p.name).trans hp
  have hpb := hparam h.setup.registry
  have hpm := hparam (x := m) hset.registry
  have hpn := hparam (hforth.registry.trans hset.registry)
  cases hi₀ : b₀.get? e with
  | none =>
    obtain ⟨hgone, hnone⟩ := h.gone e hi₀
    have hgone' : m.get? e = none := hback.gone hgone
    rw [read_of_none hp hi₀, read_of_none hpb hgone, read_of_none hpm hgone',
      read_of_none hpn (hforth.gone hgone'), hnone]
    simp
  | some i₀ =>
    obtain ⟨i, hi, cells⟩ := h.live e i₀ hi₀
    have hv₀ := hb₀.exists_value hi₀ hcl hmem
    have hv := h.wellFormed.exists_value hi (h.setup.registry.symm ▸ hcl) hmem
    have hcell := cells cl hcl p hmem _ _ hv₀ hv
    obtain ⟨j, hj, hvj⟩ := h.value?_replay lawful (h.wellFormed.withLog u) hmid .undo hp hi hv
    rw [hcell.undo entity_of_mem_cell hi hv] at hvj
    rw [← hm] at hj
    obtain ⟨k, hk, hvk⟩ := h.value?_replay lawful hwf hset .redo hp hj hvj
    rw [hcell.redo entity_of_mem_cell hi hv] at hvk
    rw [← hn] at hk
    rw [read_eq hp hi₀ hv₀, read_eq hpb hi hv, read_eq hpm hj hvj, read_eq hpn hk hvk]
    simp only [Except.ok.injEq]
    exact ⟨undone_eq_iff, redone_eq_iff fun heq => if_pos heq⟩

/-- Whatever the backend answers to the calls of an operation that writes parameters:
    undo gives the value back that a parameter had when the operation was opened,
    unless the last call on it that went through left it at just that value and a
    later one changed it; and redo gives the value that it had when the operation was
    closed, unless the last call that went through left it at neither of the two. So
    both are right for a parameter of which no call went through, and for one that
    was not changed after the last call that did. -/
theorem refused_writes_replayed_iff (hb : b.WellFormed) (lawful : b.Lawful)
    (enabled : b.config.undoEnabled = true) (limit : 0 < b.config.undoLimit) (label : String)
    {actions : List Action} (run : (b.startOperation label).WritingRun actions)
    (committed : (b.session label actions).1 = true) :
    (b.session label actions).2.undoLast.1 = true ∧
    (b.session label actions).2.undoLast.2.redoNext.1 = true ∧
    ∀ e name p, b.undoableParam e name = .ok p →
      ((b.session label actions).2.undoLast.2.read e name = b.read e name ↔
        ∀ v, (b.startOperation label).lastNoted e name actions = some v →
          b.read e name = .ok v → (b.session label actions).2.read e name = .ok v) ∧
      ((b.session label actions).2.undoLast.2.redoNext.2.read e name =
          (b.session label actions).2.read e name ↔
        ∀ v, (b.startOperation label).lastNoted e name actions = some v →
          b.read e name = .ok v ∨ (b.session label actions).2.read e name = .ok v) := by
  obtain ⟨o, h⟩ := (Writing.start hb enabled label).performAll lawful enabled run
  simp only [Option.or_none] at h
  have hrec : ((b.startOperation label).performAll actions).undo.recording = some o := by
    rw [h.log]
  obtain ⟨l, hl⟩ := exists_push_of_committed hrec h.plain.unwatched committed
  have hclosed : (b.session label actions).2 = _ := hl
  -- The closed book differs only in its log from the one in which the last call ended.
  obtain ⟨u, u', u'', hundone, hredone⟩ := undo_redo_of_push hclosed
    (h.setup.config.symm ▸ limit) fun u =>
      (Revises.replay_of_changes h.changes_closed (h.wellFormed.withLog u) .undo).undo
  refine ⟨congrArg Prod.fst hundone, congrArg Prod.fst hredone, ?_⟩
  intro e name p hp
  have hread := h.read_replayed hb lawful hp (congrArg Prod.snd hundone) u' rfl
  rw [hredone, hclosed]
  rw [hclosed] at hread
  exact hread

/-! ### A node with a refused commit -/

section Nodes

open Bag

/-- A book with one node. The backend refuses one commit, by its ordinal. -/
def guarded (ordinal : Nat) : Book bags :=
  let b := (emptyBook 1).setBackend (.refusing (.listed [ordinal] []) "full")
  (b.create "node" (node 1).guid).2

/-- The label of the node is written twice. -/
def relabel (first second : String) : List Action :=
  [.modify (node 1) "label" first, .modify (node 1) "label" second]

theorem wellFormed_guarded (ordinal : Nat) : (guarded ordinal).WellFormed := by
  have hb : ((emptyBook 1).setBackend (.refusing (.listed [ordinal] []) "full")).WellFormed :=
    (wellFormed_emptyBook 1).of_eq rfl rfl rfl rfl
  exact hb.create "node" (node 1).guid

theorem writes_label {b : Book bags} (hr : b.registry = nodes) {n : Nat} {s : String}
    (hr' : (b.modify (node n) "label" s).2.registry = nodes) (h : b.isPlainNode n = true)
    (h' : (b.modify (node n) "label" s).2.isPlainNode n = true) :
    b.Writes (.modify (node n) "label" s) := by
  intro p hp
  obtain ⟨hs, hbefore, hafter, _⟩ := faithful_label hr hr' h h' p hp
  exact ⟨hs, hbefore, hafter⟩

/-- The first commit is refused and the second one accepted: the label comes back. -/
theorem label_written_again_replayed :
    ((guarded 1).session "relabel" (relabel "a" "b")).1 = true ∧
    ((guarded 1).session "relabel" (relabel "a" "b")).2.undoLast.2.read (node 1) "label" =
      (guarded 1).read (node 1) "label" ∧
    ((guarded 1).session "relabel" (relabel "a" "b")).2.undoLast.2.redoNext.2.read
        (node 1) "label" =
      ((guarded 1).session "relabel" (relabel "a" "b")).2.read (node 1) "label" := by
  have hrun : ((guarded 1).startOperation "relabel").WritingRun (relabel "a" "b") :=
    ⟨writes_label rfl rfl (by decide +kernel) (by decide +kernel),
      writes_label rfl rfl (by decide +kernel) (by decide +kernel), trivial⟩
  have hcommit : ((guarded 1).session "relabel" (relabel "a" "b")).1 = true := by decide +kernel
  obtain ⟨_, _, hread⟩ := refused_writes_replayed_iff (wellFormed_guarded 1) isLawful_nodes rfl
    (by decide) "relabel" hrun hcommit
  obtain ⟨hundone, hredone⟩ := hread (node 1) "label" _ rfl
  have hnoted : ((guarded 1).startOperation "relabel").lastNoted (node 1) "label"
      (relabel "a" "b") = some (.scalar .string "b") := by rfl
  have hlast : ((guarded 1).session "relabel" (relabel "a" "b")).2.read (node 1) "label" =
      .ok (.scalar .string "b") := by rfl
  rw [hnoted, hlast] at hundone hredone
  refine ⟨hcommit, hundone.mpr ?_, ?_⟩
  · intro v hv _
    rw [Option.some.inj hv]
  · rw [hlast]
    refine hredone.mpr ?_
    intro v hv
    rw [Option.some.inj hv]
    exact Or.inr rfl

/-- The second commit is refused: redo gives what the first call wrote, and undo leaves
    what the second one wrote if the first one wrote what was there. -/
theorem refused_label_not_replayed :
    ((guarded 2).startOperation "relabel").WritingRun (relabel "a" "b") ∧
    ((guarded 2).session "relabel" (relabel "a" "b")).1 = true ∧
    ((guarded 2).session "relabel" (relabel "a" "b")).2.read (node 1) "label" =
      .ok (.scalar .string "b") ∧
    ((guarded 2).session "relabel" (relabel "a" "b")).2.undoLast.2.redoNext.2.read
        (node 1) "label" =
      .ok (.scalar .string "a") ∧
    ((guarded 2).startOperation "relabel").WritingRun (relabel "" "b") ∧
    ((guarded 2).session "relabel" (relabel "" "b")).1 = true ∧
    (guarded 2).read (node 1) "label" = .ok (.scalar .string "") ∧
    ((guarded 2).session "relabel" (relabel "" "b")).2.undoLast.2.read (node 1) "label" =
      .ok (.scalar .string "b") := by
  refine ⟨⟨writes_label rfl rfl ?_ ?_, writes_label rfl rfl ?_ ?_, trivial⟩, ?_, rfl, rfl,
    ⟨writes_label rfl rfl ?_ ?_, writes_label rfl rfl ?_ ?_, trivial⟩, ?_, rfl, rfl⟩
  all_goals decide +kernel

end Nodes

end Book

end EntityBook
