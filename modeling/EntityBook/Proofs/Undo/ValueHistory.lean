import EntityBook.Proofs.Undo.Log
import EntityBook.Proofs.Undo.Recording
import Mathlib.Data.List.Induction

/-! # The history of a value

  Between two operations of a log a parameter of an entity has a value, or the entity is
  not there. An operation leads from the one to the other in a replay, and what it captured
  last denotes the value to which it leads. If all operations of a log do, what the applied
  ones captured last denotes the present value.

  The invariant is about one parameter of one entity, whatever else the operations hold.
-/

namespace EntityBook

variable {P : PayloadFamily}

/-- A value, if there is one, is read from its text. -/
def Param.ReadsBack (p : Param P) (w : Option ParamValue) : Prop :=
  ∀ v, w = some v → ParamValue.parse p.kind v.text = .ok v

theorem readsBack_none {p : Param P} : p.ReadsBack none := by
  intro v hv
  cases hv

theorem readsBack_some {p : Param P} {v : ParamValue}
    (h : ParamValue.parse p.kind v.text = .ok v) : p.ReadsBack (some v) := by
  intro w hw
  cases hw
  exact h

namespace Book

/-! ### Values -/

/-- The value of a parameter of an entity, if the entity is there. -/
def value? (b : Book P) (e : Entity) (p : Param P) : Option ParamValue :=
  (b.get? e).bind fun i => i.value? p.accessor

/-- The value that a parameter of a new entity has. -/
def Initial (b : Book P) (e : Entity) (p : Param P) (v : ParamValue) : Prop :=
  ∃ cl payload, b.Makes e cl payload ∧ (b.newborn e payload).value? p.accessor = some v

/-- A value is the given one, or that of a new entity if the entity was not there. -/
def Starts (b : Book P) (e : Entity) (p : Param P) (w : Option ParamValue) (v : ParamValue) : Prop :=
  w = some v ∨ w = none ∧ b.Initial e p v

section Values

variable {b b' : Book P} {e : Entity} {p : Param P} {w w' : Option ParamValue} {v v' : ParamValue}

theorem value?_eq_some : b.value? e p = some v ↔
    ∃ i, b.get? e = some i ∧ i.value? p.accessor = some v := Option.bind_eq_some_iff

theorem value?_of_get? {i : Instance P} (hi : b.get? e = some i) :
    b.value? e p = i.value? p.accessor := by
  unfold value?
  rw [hi]
  rfl

/-- Without a value the entity is not there. -/
theorem value?_eq_none (hb : b.WellFormed) (hp : b.undoableParam e p.name = .ok p) :
    b.value? e p = none ↔ b.get? e = none := by
  constructor
  · intro h
    cases hi : b.get? e with
    | none => rfl
    | some i =>
      obtain ⟨cl, hcl, hmem, _⟩ := undoableParam_eq_ok.mp hp
      rw [value?_of_get? hi, hb.exists_value hi hcl hmem] at h
      cases h
  · intro h
    unfold value?
    rw [h]
    rfl

theorem Initial.unique (h : b.Initial e p v) (h' : b.Initial e p v') : v = v' := by
  obtain ⟨cl, payload, hm, hv⟩ := h
  obtain ⟨cl', payload', hm', hv'⟩ := h'
  cases hm.found.symm.trans hm'.found
  cases hm.payload.symm.trans hm'.payload
  exact Option.some.inj (hv.symm.trans hv')

theorem Initial.of_setup (h : b.Initial e p v) (hs : b.SameSetup b') : b'.Initial e p v := by
  obtain ⟨cl, payload, hm, hv⟩ := h
  exact ⟨cl, payload, hm.of_setup hs, by rw [hs.newborn]; exact hv⟩

theorem Starts.of_setup (h : b.Starts e p w v) (hs : b.SameSetup b') : b'.Starts e p w v :=
  h.imp_right fun hn => ⟨hn.1, hn.2.of_setup hs⟩

end Values

/-! ### Operations -/

/-- A text is that of a value, or that of a new entity's value if the entity is not there. -/
def Denotes (b : Book P) (e : Entity) (p : Param P) (t : String) (w : Option ParamValue) : Prop :=
  ∃ v, b.Starts e p w v ∧ t = v.text

/-- The entries of an operation lead from one value of a parameter to another one, in the
    surroundings of a book. -/
structure Leads (b : Book P) (e : Entity) (p : Param P) (entries : List (UndoEntry P))
    (w w' : Option ParamValue) : Prop where
  undo : ∀ c : Book P, c.Steady → b.SameSetup c → c.value? e p = w' →
    (c.replay entries .undo).value? e p = w
  redo : ∀ c : Book P, c.Steady → b.SameSetup c → c.value? e p = w →
    (c.replay entries .redo).value? e p = w'
  readsBefore : p.ReadsBack w
  readsAfter : p.ReadsBack w'
  fits : b.FitEntries (entries.filter fun u => u.entity == e)
  /-- Without a capture the value stays, or the entity is made. -/
  silent : cell entries e p.name = [] → w' = w ∨ w = none ∧ ∃ v, b.Initial e p v ∧ w' = some v
  /-- The last capture denotes the value, unless the entity was deleted. -/
  last : ∀ c, (cell entries e p.name).getLast? = some c → c.path = none ∧
    (c.after = .absent ∧ UndoEntry.deleted e ∈ entries ∨
      ∃ t, c.after = .value t ∧ b.Denotes e p t w')

/-- Operations lead from one value to the next. -/
def History (b : Book P) (e : Entity) (p : Param P) :
    Option ParamValue → List (UndoOperation P) → Option ParamValue → Prop
  | w, [], w' => w' = w
  | w, op :: ops, w' => ∃ m, b.Leads e p op.entries w m ∧ b.History e p m ops w'

/-- Operations that hold nothing of a value, and neither make nor delete its entity. -/
def Mute (e : Entity) (name : String) (ops : List (UndoOperation P)) : Prop :=
  ∀ op ∈ ops, UndoEntry.created e ∉ op.entries ∧ UndoEntry.deleted e ∉ op.entries ∧
    cell op.entries e name = []

section History

variable {b b' : Book P} {e : Entity} {p : Param P} {w w' m : Option ParamValue}
  {ops ops' : List (UndoOperation P)} {op : UndoOperation P} {entries : List (UndoEntry P)}

theorem Leads.of_setup (h : b.Leads e p entries w w') (hs : b.SameSetup b') :
    b'.Leads e p entries w w' where
  undo c hc hset := h.undo c hc (hs.trans hset)
  redo c hc hset := h.redo c hc (hs.trans hset)
  readsBefore := h.readsBefore
  readsAfter := h.readsAfter
  fits := h.fits.of_setup hs
  silent hnil := (h.silent hnil).imp_right fun hnew => by
    obtain ⟨hn, v, hv, hw⟩ := hnew
    exact ⟨hn, v, hv.of_setup hs, hw⟩
  last c hc := by
    obtain ⟨hpath, hafter⟩ := h.last c hc
    refine ⟨hpath, hafter.imp_right fun hdenotes => ?_⟩
    obtain ⟨t, ht, v, hv, heq⟩ := hdenotes
    exact ⟨t, ht, v, hv.of_setup hs, heq⟩

theorem History.of_setup (h : b.History e p w ops w') (hs : b.SameSetup b') :
    b'.History e p w ops w' := by
  induction ops generalizing w with
  | nil => exact h
  | cons op rest ih =>
    obtain ⟨m, hop, hrest⟩ := h
    exact ⟨m, hop.of_setup hs, ih hrest⟩

theorem history_append :
    b.History e p w (ops ++ ops') w' ↔ ∃ m, b.History e p w ops m ∧ b.History e p m ops' w' := by
  induction ops generalizing w with
  | nil =>
    constructor
    · intro h
      exact ⟨w, rfl, h⟩
    · rintro ⟨m, rfl, h⟩
      exact h
  | cons op rest ih =>
    constructor
    · rintro ⟨n, hop, hrest⟩
      obtain ⟨m, hm, hlast⟩ := ih.mp hrest
      exact ⟨m, ⟨n, hop, hm⟩, hlast⟩
    · rintro ⟨m, ⟨n, hop, hm⟩, hlast⟩
      exact ⟨n, hop, ih.mpr ⟨m, hm, hlast⟩⟩

theorem History.concat (h : b.History e p w ops m) (hop : b.Leads e p op.entries m w') :
    b.History e p w (ops ++ [op]) w' :=
  history_append.mpr ⟨m, h, w', hop, rfl⟩

theorem History.drop (h : b.History e p w ops w') (n : Nat) :
    ∃ m, b.History e p m (ops.drop n) w' := by
  rw [← List.take_append_drop n ops] at h
  obtain ⟨m, _, hrest⟩ := history_append.mp h
  exact ⟨m, hrest⟩

/-- All operations of a history fit the class of the entity. -/
theorem History.fits (h : b.History e p w ops w') :
    ∀ op ∈ ops, b.FitEntries (op.entries.filter fun u => u.entity == e) := by
  induction ops generalizing w with
  | nil =>
    intro op hm
    cases hm
  | cons op rest ih =>
    obtain ⟨m, hop, hrest⟩ := h
    intro x hm
    rcases List.mem_cons.mp hm with rfl | hm
    · exact hop.fits
    · exact ih hrest x hm

/-- What denotes a value still does after operations that captured nothing. -/
theorem Denotes.silent {t : String} (h : b.Denotes e p t w) (hop : b.Leads e p entries w w')
    (hnil : cell entries e p.name = []) : b.Denotes e p t w' := by
  obtain ⟨v, hv, rfl⟩ := h
  rcases hop.silent hnil with rfl | ⟨rfl, d, hd, rfl⟩
  · exact ⟨v, hv, rfl⟩
  · rcases hv with hv | ⟨_, hv⟩
    · cases hv
    · exact ⟨d, Or.inl rfl, by rw [hv.unique hd]⟩

/-- The last capture of a history denotes the value to which it leads, unless it was made
    when the entity was deleted. -/
theorem History.last (h : b.History e p w ops w') {c : Change P}
    (hc : (cell (ops.flatMap UndoOperation.entries) e p.name).getLast? = some c) :
    c.path = none ∧ (c.after = .absent ∧ (∃ op ∈ ops, UndoEntry.deleted e ∈ op.entries) ∨
      ∃ t, c.after = .value t ∧ b.Denotes e p t w') := by
  -- Induction from the last operation: it holds the capture, or it captured nothing.
  induction ops using List.reverseRecOn generalizing w' with
  | nil => cases hc
  | append_singleton ops op ih =>
    obtain ⟨m, hinit, n, hop, rfl⟩ := history_append.mp h
    rw [List.flatMap_append, List.flatMap_singleton, cell_append] at hc
    by_cases hnil : cell op.entries e p.name = []
    · rw [hnil, List.append_nil] at hc
      obtain ⟨hpath, hafter⟩ := ih hinit hc
      refine ⟨hpath, ?_⟩
      rcases hafter with ⟨habsent, op', hop', hgone⟩ | ⟨t, ht, hdenotes⟩
      · exact Or.inl ⟨habsent, op', List.mem_append_left _ hop', hgone⟩
      · exact Or.inr ⟨t, ht, hdenotes.silent hop hnil⟩
    · rw [List.getLast?_append_of_ne_nil _ hnil] at hc
      obtain ⟨hpath, hafter⟩ := hop.last c hc
      refine ⟨hpath, hafter.imp_left fun hgone => ?_⟩
      exact ⟨hgone.1, op, List.mem_append_right _ List.mem_cons_self, hgone.2⟩

end History

/-! ### What the log knows -/

section Known

variable {b : Book P} {l : UndoLog P} {e : Entity} {p : Param P} {name : String}
  {w w' : Option ParamValue} {entries : List (UndoEntry P)} {c : Change P}

/-- Looking for an entry from the end finds the last capture of a parameter. -/
theorem find?_reverse_of_getLast? (hc : (cell entries e name).getLast? = some c)
    (hpath : c.path = none) :
    entries.reverse.find? (fun u => u.targets e name && (u.change?.map (·.path)) == some none) =
      some (.changed c) := by
  induction entries using List.reverseRecOn with
  | nil => cases hc
  | append_singleton rest u ih =>
    rw [List.reverse_append, List.reverse_singleton, List.singleton_append]
    rw [cell_append] at hc
    cases ht : u.targets e name with
    | false =>
      have hnil : cell [u] e name = [] := by
        by_contra hne
        have hany := any_targets.mpr hne
        simp [ht] at hany
      rw [hnil, List.append_nil] at hc
      rw [List.find?_cons_of_neg (by simp [ht]), ih hc]
    | true =>
      cases u with
      | created _ | deleted _ => cases ht
      | changed d =>
        have hone : cell [UndoEntry.changed d] e name = [d] := by
          have hd : d.entity = e ∧ d.param.name = name := by simpa [UndoEntry.targets] using ht
          simp [cell, UndoEntry.change?, hd]
        rw [hone, List.getLast?_concat] at hc
        cases hc
        exact List.find?_cons_of_pos (by simp [ht, UndoEntry.change?, hpath])

theorem lastKnown_of_getLast?
    (hc : (cell (l.past.flatMap UndoOperation.entries) e name).getLast? = some c)
    (hpath : c.path = none) (hafter : c.after ≠ .pending) :
    l.lastKnown e name none = some c.after := by
  unfold UndoLog.lastKnown
  dsimp only
  rw [find?_reverse_of_getLast? hc hpath]
  dsimp only
  rw [if_neg hafter]

/-- Of what is not in the log nothing is known. -/
theorem exists_getLast?_of_lastKnown {x : Capture} (h : l.lastKnown e name none = some x) :
    ∃ c, (cell (l.past.flatMap UndoOperation.entries) e name).getLast? = some c := by
  have hne : cell (l.past.flatMap UndoOperation.entries) e name ≠ [] := by
    unfold UndoLog.lastKnown at h
    dsimp only at h
    split at h
    · next d hfind =>
      have hm := List.mem_reverse.mp (List.mem_of_find?_eq_some hfind)
      have hfound := List.find?_some hfind
      have ht := (Bool.and_eq_true_iff.mp hfound).1
      exact any_targets.mp (List.any_eq_true.mpr ⟨_, hm, ht⟩)
    · cases h
  exact ⟨_, List.getLast?_eq_some_getLast hne⟩

/-- A value that is known denotes the value to which the applied operations lead. -/
theorem History.denotes_of_lastKnown (h : b.History e p w l.past w') {t : String}
    (hknown : l.lastKnown e p.name none = some (.value t)) : b.Denotes e p t w' := by
  obtain ⟨c, hc⟩ := exists_getLast?_of_lastKnown hknown
  obtain ⟨hpath, hafter⟩ := h.last hc
  rcases hafter with ⟨habsent, _⟩ | ⟨t', ht', hdenotes⟩
  · rw [lastKnown_of_getLast? hc hpath (by rw [habsent]; simp), habsent] at hknown
    cases hknown
  · rw [lastKnown_of_getLast? hc hpath (by rw [ht']; simp), ht'] at hknown
    cases hknown
    exact hdenotes

end Known

/-! ### Undo and redo -/

/-- The log of a book is a history that leads to a value and on from it. -/
structure Remembers (b : Book P) (e : Entity) (p : Param P) (w : Option ParamValue) : Prop where
  past : ∃ oldest, b.History e p oldest b.undo.past w
  future : ∃ newest, b.History e p w b.undo.future newest

/-- The last applied operation stands at the end of the past. -/
theorem past_of_lastApplied? {l : UndoLog P} {op : UndoOperation P}
    (h : l.lastApplied? = some op) :
    ∃ n, l.cursor = n + 1 ∧ l.past = l.operations.take n ++ [op] ∧
      l.operations.drop n = op :: l.future := by
  unfold UndoLog.lastApplied? at h
  split at h
  · cases h
  · next n hcursor =>
    obtain ⟨hlt, hop⟩ := List.getElem?_eq_some_iff.mp h
    refine ⟨n, hcursor, ?_, ?_⟩
    · unfold UndoLog.past
      rw [hcursor, List.take_succ_eq_append_getElem hlt, hop]
    · unfold UndoLog.future
      rw [hcursor, List.drop_eq_getElem_cons hlt, hop]

/-- The next undone operation stands at the start of the future. -/
theorem future_of_nextUndone? {l : UndoLog P} {op : UndoOperation P}
    (h : l.nextUndone? = some op) :
    l.future = op :: l.operations.drop (l.cursor + 1) ∧
      l.operations.take (l.cursor + 1) = l.past ++ [op] := by
  obtain ⟨hlt, hop⟩ := List.getElem?_eq_some_iff.mp h
  constructor
  · unfold UndoLog.future
    rw [List.drop_eq_getElem_cons hlt, hop]
  · unfold UndoLog.past
    rw [List.take_succ_eq_append_getElem hlt, hop]

section Remembers

variable {b b' : Book P} {e : Entity} {p : Param P} {w w' : Option ParamValue}

theorem Remembers.of_setup (h : b.Remembers e p w) (hs : b.SameSetup b')
    (hpast : b'.undo.past = b.undo.past) (hfuture : b'.undo.future = b.undo.future) :
    b'.Remembers e p w where
  past := by
    obtain ⟨oldest, ho⟩ := h.past
    exact ⟨oldest, hpast ▸ ho.of_setup hs⟩
  future := by
    obtain ⟨newest, hn⟩ := h.future
    exact ⟨newest, hfuture ▸ hn.of_setup hs⟩

/-- Undo goes back to the value before the last applied operation. -/
theorem Remembers.undoLast (h : b.Remembers e p w) (hs : b.Steady) (hw : b.value? e p = w)
    (hreads : p.ReadsBack w) :
    b.undoLast.2.Steady ∧ b.SameSetup b.undoLast.2 ∧ ∃ w', p.ReadsBack w' ∧
      b.undoLast.2.value? e p = w' ∧ b.undoLast.2.Remembers e p w' := by
  cases hlast : b.undo.lastApplied? with
  | none =>
    rw [undoLast_of_none hlast]
    exact ⟨hs, .refl b, w, hreads, hw, h⟩
  | some op =>
    obtain ⟨n, hcursor, hpast, hfuture⟩ := past_of_lastApplied? hlast
    -- The book in which the replay takes place.
    let c := (b.setRecording none).setCursor (b.undo.cursor - 1)
    have hc : c.Steady := ⟨hs.wellFormed.of_eq rfl rfl rfl rfl, hs.quiet⟩
    obtain ⟨hsteady, hset, hundo⟩ := hc.replay op.entries .undo
    have hset : b.SameSetup (c.replay op.entries .undo) :=
      (SameSetup.withLog b c.undo).trans hset
    have hdone : b.undoLast.2 = c.replay op.entries .undo :=
      congrArg Prod.snd (undoLast_of_some hlast)
    obtain ⟨oldest, ho⟩ := h.past
    obtain ⟨newest, hn⟩ := h.future
    rw [hpast] at ho
    obtain ⟨m, hinit, w₁, hop, rfl⟩ := history_append.mp ho
    rw [hdone]
    refine ⟨hsteady, hset, m, hop.readsBefore, ?_, ?_, ?_⟩
    · exact hop.undo c hc (SameSetup.withLog b c.undo) hw
    · have hless : (c.replay op.entries .undo).undo.past = b.undo.operations.take n := by
        rw [hundo]
        show b.undo.operations.take (b.undo.cursor - 1) = _
        rw [hcursor, Nat.add_sub_cancel]
      exact ⟨oldest, hless ▸ hinit.of_setup hset⟩
    · have hmore : (c.replay op.entries .undo).undo.future = op :: b.undo.future := by
        rw [hundo, ← hfuture]
        show b.undo.operations.drop (b.undo.cursor - 1) = _
        rw [hcursor, Nat.add_sub_cancel]
      refine ⟨newest, ?_⟩
      rw [hmore]
      exact History.of_setup (⟨_, hop, hn⟩ : b.History e p m (op :: b.undo.future) newest) hset

/-- Redo goes on to the value after the next undone operation. -/
theorem Remembers.redoNext (h : b.Remembers e p w) (hs : b.Steady) (hw : b.value? e p = w)
    (hreads : p.ReadsBack w) :
    b.redoNext.2.Steady ∧ b.SameSetup b.redoNext.2 ∧ ∃ w', p.ReadsBack w' ∧
      b.redoNext.2.value? e p = w' ∧ b.redoNext.2.Remembers e p w' := by
  cases hnext : b.undo.nextUndone? with
  | none =>
    rw [redoNext_of_none hnext]
    exact ⟨hs, .refl b, w, hreads, hw, h⟩
  | some op =>
    obtain ⟨hfuture, hpast⟩ := future_of_nextUndone? hnext
    let c := b.setRecording none
    have hc : c.Steady := hs.setRecording none
    obtain ⟨hsteady, hset, hundo⟩ := hc.replay op.entries .redo
    let d := (c.replay op.entries .redo).setCursor ((c.replay op.entries .redo).undo.cursor + 1)
    have hset : b.SameSetup d :=
      ((SameSetup.withLog b c.undo).trans hset).trans (SameSetup.withLog _ d.undo)
    have hdone : b.redoNext.2 = d := congrArg Prod.snd (redoNext_of_some hnext)
    obtain ⟨oldest, ho⟩ := h.past
    obtain ⟨newest, hn⟩ := h.future
    rw [hfuture] at hn
    obtain ⟨m, hop, hrest⟩ := hn
    have hcursor : d.undo.cursor = b.undo.cursor + 1 := by
      show (c.replay op.entries .redo).undo.cursor + 1 = _
      rw [hundo]
      rfl
    have hops : d.undo.operations = b.undo.operations := by
      show (c.replay op.entries .redo).undo.operations = _
      rw [hundo]
      rfl
    rw [hdone]
    refine ⟨⟨hsteady.wellFormed.of_eq rfl rfl rfl rfl, hsteady.quiet⟩, hset, m, hop.readsAfter,
      hop.redo c hc (SameSetup.withLog b c.undo) hw, ?_, ?_⟩
    · have hmore : d.undo.past = b.undo.past ++ [op] := by
        rw [← hpast]
        unfold UndoLog.past
        rw [hcursor, hops]
      refine ⟨oldest, ?_⟩
      rw [hmore]
      exact (ho.concat hop).of_setup hset
    · have hless : d.undo.future = b.undo.operations.drop (b.undo.cursor + 1) := by
        unfold UndoLog.future
        rw [hcursor, hops]
      exact ⟨newest, hless ▸ hrest.of_setup hset⟩

/-! ### Appending -/

/-- Appending an operation that leads on to another value, in place of what was undone. -/
theorem History.push {l : UndoLog P} {oldest : Option ParamValue}
    (h : b.History e p oldest l.past w) (op : UndoOperation P) (hop : b.Leads e p op.entries w w')
    (limit : Nat) :
    (∃ oldest, b.History e p oldest (l.push op limit).past w') ∧ (l.push op limit).future = [] := by
  constructor
  · rw [UndoLog.past_push]
    exact (h.concat hop).drop _
  · exact List.drop_length

end Remembers

end Book

end EntityBook
