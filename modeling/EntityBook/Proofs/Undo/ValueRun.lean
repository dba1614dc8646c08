import EntityBook.Proofs.Run.Call
import EntityBook.Proofs.Undo.ValueReplay

/-! # Calls in an operation on a value

  Each call that a program may make while an operation is open takes what the operation
  holds of a value from one phase to another one: calls about other entities and other
  parameters leave it, changes and the calls that record them do not. `Advances` says which
  calls there are, and from which phase to which one they go.
-/

namespace EntityBook

variable {P : PayloadFamily}

namespace Book

/-! ### Calls that close their edits -/

/-- A move leaves a steady book. -/
theorem Steady.move {b b' : Book P} (h : b.Steady) (hm : Move b b') : b'.Steady := by
  have hwf : b'.WellFormed := (Moves.steps (.single hm)).wellFormed h.wellFormed
  cases hm with
  | create _ tag guid => exact (h.create tag guid).1
  | edit _ e touches => exact h.of_revises (.edit h.wellFormed fun i => (touches i).toRewrites)
  | delete _ e => exact (h.delete e).1
  | suspend | resume | subscribe | unsubscribe | markClean | register | log | pushPending
    | takePending => exact ⟨hwf, h.quiet⟩

theorem Steady.call {b : Book P} (h : b.Steady) {c : Call P} (hc : c.isBalanced = true) :
    (b.call c).Steady := by
  have hmoves := Moves.call b hc
  generalize b.call c = b' at hmoves ⊢
  induction hmoves with
  | refl => exact h
  | tail _ hm ih => exact ih.move hm

/-- Two books have the same surroundings and the same operations in their logs. -/
structure SameLog (b b' : Book P) : Prop extends b.SameSetup b' where
  operations : b'.undo.operations = b.undo.operations
  cursor : b'.undo.cursor = b.undo.cursor

namespace SameLog

variable {b b' b'' : Book P} {e : Entity} {p : Param P} {w : Option ParamValue}

theorem trans (h : b.SameLog b') (h' : b'.SameLog b'') : b.SameLog b'' where
  toSameSetup := h.toSameSetup.trans h'.toSameSetup
  operations := h'.operations.trans h.operations
  cursor := h'.cursor.trans h.cursor

theorem of_undo (hs : b.SameSetup b') (hundo : b'.undo = b.undo) : b.SameLog b' where
  toSameSetup := hs
  operations := by rw [hundo]
  cursor := by rw [hundo]

theorem setRecording (b : Book P) (r : Option (OpenOperation P)) : b.SameLog (b.setRecording r) :=
  ⟨⟨rfl, rfl, rfl, rfl⟩, rfl, rfl⟩

theorem of_eq_setRecording {r : Option (OpenOperation P)} (h : b' = b.setRecording r) :
    b.SameLog b' := h ▸ setRecording b r

theorem past (h : b.SameLog b') : b'.undo.past = b.undo.past := by
  unfold UndoLog.past
  rw [h.operations, h.cursor]

theorem future (h : b.SameLog b') : b'.undo.future = b.undo.future := by
  unfold UndoLog.future
  rw [h.operations, h.cursor]

theorem lastKnown (h : b.SameLog b') (e : Entity) (name : String) (path : Option String) :
    b'.undo.lastKnown e name path = b.undo.lastKnown e name path := by
  unfold UndoLog.lastKnown
  rw [h.past]

theorem remembers (h : b.SameLog b') (hr : b.Remembers e p w) : b'.Remembers e p w :=
  hr.of_setup h.toSameSetup h.past h.future

end SameLog

section Recording

variable (b : Book P) (e : Entity) (name : String)

theorem sameLog_writeText {b : Book P} (hb : b.WellFormed) (s : String) :
    b.SameLog (b.writeText e name s).2 := by
  have hrev := Revises.writeText hb e name s
  exact .of_undo (.of_revises hrev) hrev.undo

theorem sameLog_modify {b : Book P} (hb : b.WellFormed) (s : String) :
    b.SameLog (b.modify e name s).2 := by
  obtain ⟨r, hr⟩ := b.exists_recordBefore_eq e name
  have hbefore : b.SameLog (b.recordBefore e name).2 := hr ▸ .setRecording b r
  have hwf : (b.recordBefore e name).2.WellFormed := hr ▸ hb.of_eq rfl rfl rfl rfl
  have hwrite := hbefore.trans (sameLog_writeText e name hwf s)
  have hmodifies := b.modifies e name s
  generalize b.modify e name s = out at hmodifies
  cases hmodifies with
  | unrecorded => exact hbefore
  | unwritten => exact hwrite
  | written =>
    obtain ⟨r', hr'⟩ :=
      exists_recordAfter_eq ((b.recordBefore e name).2.writeText e name s).2 e name
    exact hwrite.trans (hr' ▸ .setRecording _ r')

end Recording

/-! ### Recorded writes -/

section Modify

variable {b b' : Book P} {e : Entity} {p : Param P} {first oldest : Option ParamValue}
  {ph ph' : Phase} {name s : String}

theorem Watches.of_sameLog (h : b.Watches e p) (hs : b'.Steady) (hlog : b.SameLog b') :
    b'.Watches e p := h.of_setup hs hlog.toSameSetup

/-- A step that records nothing and leaves the value. -/
theorem IsTraced.of_undo (h : b.IsTraced e p first ph) (hset : b.SameSetup b')
    (hundo : b'.undo = b.undo) (hvalue : b'.value? e p = b.value? e p) :
    b'.IsTraced e p first ph := by
  obtain ⟨o, ho, ht⟩ := h
  exact ⟨o, hundo ▸ ho, ht.congr rfl hset (by rw [hundo]) hvalue⟩

/-- One that records nothing and leaves the entity there. -/
theorem IsTraced.change (h : b.IsTraced e p first ph) (hset : b.SameSetup b')
    (hundo : b'.undo = b.undo) {v : ParamValue} (hv : b'.value? e p = some v)
    (hph : ph.change? = some ph') : b'.IsTraced e p first ph' := by
  obtain ⟨o, ho, ht⟩ := h
  exact ⟨o, hundo ▸ ho, ht.change hset hundo hv hph⟩

/-- A write that fails leaves the value. -/
theorem value?_writeText_of_error (hw : b.Watches e p) {err : StoreError}
    (herr : (b.writeText e p.name s).1 = .error err) :
    (b.writeText e p.name s).2.value? e p = b.value? e p := by
  obtain ⟨cl, hcl, hmem, hname⟩ := undoableParam_eq_ok.mp hw.param
  have hparam : b.param? e p.name = .ok p := Registry.param?_eq_ok.mpr ⟨cl, hcl, hname⟩
  unfold Book.writeText at herr ⊢
  rw [hparam] at herr ⊢
  dsimp only at herr ⊢
  cases hi : b.get? e with
  | none =>
    rw [tryEdit_snd, edit_of_none hi]
  | some i =>
    obtain ⟨hlevel, hdeleting⟩ := hw.steady.quiet e i hi
    have hidle : i.deleting = true → 0 < i.level := by
      intro hd
      rw [hdeleting] at hd
      cases hd
    -- Nobody refuses the edit, so it is the write that failed.
    cases hc : i.enter.writeText p s with
    | ok j =>
      have hok := tryEdit_fst_of_ok (f := fun i => i.writeText p s) hi hc
        (Instance.rewrites_writeText hc) hlevel hdeleting hw.accepting
      rw [hok] at herr
      cases herr
    | error err' =>
      obtain ⟨k, hk, hclean⟩ := get?_tryEdit_failed (f := fun i => i.writeText p s) hi hc hidle
      rw [value?_of_get? hk, value?_of_get? hi, Instance.value?_of_markClean hclean]

/-- A recorded write: when it succeeds, the value is recorded, otherwise it is announced. -/
theorem IsTraced.modify (h : b.IsTraced e p first ph) (hw : b.Watches e p)
    (hpast : b.History e p oldest b.undo.past first) (hfirst : p.ReadsBack first)
    (hph : ph.announce? = some ph') :
    ((b.modify e p.name s).1 = .ok () → (b.modify e p.name s).2.IsTraced e p first .recorded) ∧
      ∀ err, (b.modify e p.name s).1 = .error err →
        (b.modify e p.name s).2.IsTraced e p first ph' := by
  obtain ⟨hok, hbefore⟩ := h.recordBefore hw hph
  obtain ⟨r, hr⟩ := b.exists_recordBefore_eq e p.name
  have hsame : b.SameLog (b.recordBefore e p.name).2 := hr ▸ .setRecording b r
  have hwb : (b.recordBefore e p.name).2.Watches e p := hr ▸ hw.setRecording r
  obtain ⟨ph'', hchange, hnoted⟩ : ∃ ph'', ph'.change? = some ph'' ∧ ph''.isNoted = true := by
    cases ph <;> cases hph <;> exact ⟨_, rfl, rfl⟩
  have hrev := Revises.writeText hwb.steady.wellFormed e p.name s
  have hset := SameSetup.of_revises hrev
  have hmodifies := b.modifies e p.name s
  generalize b.modify e p.name s = out at hmodifies
  cases hmodifies with
  | unrecorded before => cases hok.symm.trans before
  | unwritten _ write =>
    have hvalue := value?_writeText_of_error hwb write
    exact ⟨fun hbad => (nomatch hbad), fun _ _ => hbefore.of_undo hset hrev.undo hvalue⟩
  | written _ write =>
    have hw₂ := hwb.of_setup (hwb.steady.of_revises hrev) hset
    -- The entity was there for the write, so it is there after it.
    obtain ⟨i, hi⟩ : ∃ i, ((b.recordBefore e p.name).2.writeText e p.name s).2.get? e = some i := by
      cases hi : (b.recordBefore e p.name).2.get? e with
      | none => exact absurd write (Recorded.writeText_ne_ok hi p.name s)
      | some i =>
        obtain ⟨j, hj, _⟩ := hrev.live hi
        exact ⟨j, hj⟩
    have hchanged := hbefore.change hset hrev.undo (hw₂.exists_value hi).1 hchange
    have hlog := hsame.trans (.of_undo hset hrev.undo)
    obtain ⟨hdone, hafter⟩ := hchanged.recordAfter hw₂
      (hlog.past ▸ hpast.of_setup hlog.toSameSetup) hfirst (Or.inl hnoted)
    refine ⟨fun _ => hafter, fun err hbad => ?_⟩
    exact absurd (hdone.symm.trans hbad) (by simp)

/-- A recorded write of another parameter that leaves the value. -/
theorem IsTraced.modify_of_ne (h : b.IsTraced e p first ph) (hw : b.Watches e p)
    (hname : name ≠ p.name) (hvalue : (b.modify e name s).2.value? e p = b.value? e p) :
    (b.modify e name s).2.IsTraced e p first ph := by
  have hbefore := h.recordBefore_of_ne hw hname
  obtain ⟨r, hr⟩ := b.exists_recordBefore_eq e name
  have hwb : (b.recordBefore e name).2.Watches e p := hr ▸ hw.setRecording r
  have hkept : (b.recordBefore e name).2.value? e p = b.value? e p := by
    rw [hr]
    rfl
  have hrev := Revises.writeText hwb.steady.wellFormed e name s
  have hset := SameSetup.of_revises hrev
  have hmodifies := b.modifies e name s
  generalize b.modify e name s = out at hmodifies hvalue
  cases hmodifies with
  | unrecorded => exact hbefore
  | unwritten => exact hbefore.of_undo hset hrev.undo (hvalue.trans hkept.symm)
  | written =>
    obtain ⟨r', hr'⟩ :=
      exists_recordAfter_eq ((b.recordBefore e name).2.writeText e name s).2 e name
    rw [hr'] at hvalue
    exact (hbefore.of_undo hset hrev.undo (hvalue.trans hkept.symm)).recordAfter_of_ne
      (hwb.of_setup (hwb.steady.of_revises hrev) hset) hname

end Modify

/-! ### Calls inside an operation -/

/-- What a book is to a value, and to all operations, the other one is too. -/
structure Leaves (e : Entity) (p : Param P) (b b' : Book P) : Prop where
  setup : b.SameSetup b'
  undo : b'.undo = b.undo
  value : b'.value? e p = b.value? e p

/-- A call inside an operation takes it from one phase of a value to another one, given the
    value at first. -/
inductive Advances (b : Book P) (e : Entity) (p : Param P) (first : Option ParamValue) :
    Phase → Call P → Phase → Prop where
  /-- Calls about other entities. -/
  | aside {ph : Phase} {c : Call P} (balanced : c.isBalanced = true) (h : c.isAside e = true) :
      Advances b e p first ph c ph
  /-- Calls that record nothing and leave the value, whatever else they do. -/
  | leave {ph : Phase} {c : Call P} (balanced : c.isBalanced = true)
      (leaves : Leaves e p b (b.call c)) : Advances b e p first ph c ph
  /-- Calls that record nothing and change the value. -/
  | change {ph ph' : Phase} {c : Call P} (balanced : c.isBalanced = true)
      (setup : b.SameSetup (b.call c)) (undo : (b.call c).undo = b.undo)
      (there : (b.call c).contains e = true) (next : ph.change? = some ph') :
      Advances b e p first ph c ph'
  /-- Writing and recording another parameter. -/
  | beside {ph : Phase} {c : Call P} {name : String} (h : c.param? = some (e, name))
      (other : name ≠ p.name) (value : (b.call c).value? e p = b.value? e p) :
      Advances b e p first ph c ph
  | before {ph ph' : Phase} (next : ph.announce? = some ph') :
      Advances b e p first ph (.recordBefore e p.name) ph'
  /-- What was not announced has to be known. -/
  | after {ph : Phase} (noted : ph.isNoted = true ∨ ph.isBare = true ∧ b.Knows e p first) :
      Advances b e p first ph (.recordAfter e p.name) .recorded
  /-- Otherwise it is recorded as it is, and must not change any more. -/
  | assume {v : ParamValue} (same : first = some v)
      (unknown : ∀ t, b.undo.lastKnown e p.name none ≠ some (.value t)) :
      Advances b e p first .untouched (.recordAfter e p.name) .assumed
  | modify {ph ph' : Phase} {s : String} (next : ph.announce? = some ph')
      (written : (b.modify e p.name s).1 = .ok ()) :
      Advances b e p first ph (.modify e p.name s) .recorded
  | refused {ph ph' : Phase} {s : String} {err : StoreError} (next : ph.announce? = some ph')
      (failed : (b.modify e p.name s).1 = .error err) :
      Advances b e p first ph (.modify e p.name s) ph'
  | create (made : (b.create e.typeTag e.guid).2.contains e = true)
      (reads : p.ReadsBack ((b.create e.typeTag e.guid).2.value? e p)) :
      Advances b e p first .away (.create e.typeTag e.guid) .untouched
  | recordCreate (ph : Phase) : Advances b e p first ph (.recordCreate e) ph
  | recordDelete {ph : Phase} (settled : ph.isSettled = true)
      (reads : p.ReadsBack (b.value? e p)) : Advances b e p first ph (.recordDelete e) .doomed
  | delete : Advances b e p first .doomed (.delete e) .gone

section Calls

variable {b : Book P} {e : Entity} {p : Param P} {first oldest : Option ParamValue}
  {ph ph' : Phase} {c : Call P}

/-- A call about other entities leaves a value, and what is recorded of it. -/
theorem IsTraced.aside (h : b.IsTraced e p first ph) (hw : b.Watches e p)
    (hc : c.isAside e = true) :
    b.SameLog (b.call c) ∧ (b.call c).IsTraced e p first ph := by
  have haside := Aside.call b hc
  obtain ⟨o, ho, ht⟩ := h
  obtain ⟨o', ho', habout⟩ := haside.recording ho
  have hlog : b.SameLog (b.call c) := ⟨haside.setup, by rw [ho'], by rw [ho']⟩
  have hvalue : (b.call c).value? e p = b.value? e p := by
    cases hi : b.get? e with
    | none =>
      unfold value?
      rw [haside.gone hi, hi]
    | some i =>
      obtain ⟨j, hj, _⟩ := haside.secure ⟨i, hi, (hw.steady.quiet e i hi).2⟩
      obtain ⟨i', hi', hsame, _⟩ := haside.held j hj
      cases hi.symm.trans hi'
      rw [value?_of_get? hj, value?_of_get? hi, hsame.value?]
  exact ⟨hlog, o', by rw [ho'], ht.congr habout haside.setup hlog.cursor hvalue⟩

/-- One about another parameter does as well if it leaves the value. -/
theorem IsTraced.beside {name : String} (h : b.IsTraced e p first ph) (hw : b.Watches e p)
    (hc : c.param? = some (e, name)) (hname : name ≠ p.name)
    (hvalue : (b.call c).value? e p = b.value? e p) :
    c.isBalanced = true ∧ b.SameLog (b.call c) ∧ (b.call c).IsTraced e p first ph := by
  cases c with
  | write x n v =>
    cases hc
    have hrev := Revises.write hw.steady.wellFormed e name v
    exact ⟨rfl, .of_undo (.of_revises hrev) hrev.undo,
      h.of_undo (.of_revises hrev) hrev.undo hvalue⟩
  | writeText x n s =>
    cases hc
    have hrev := Revises.writeText hw.steady.wellFormed e name s
    exact ⟨rfl, .of_undo (.of_revises hrev) hrev.undo,
      h.of_undo (.of_revises hrev) hrev.undo hvalue⟩
  | modify x n s =>
    cases hc
    exact ⟨rfl, sameLog_modify e name hw.steady.wellFormed s, h.modify_of_ne hw hname hvalue⟩
  | recordBefore x n =>
    cases hc
    obtain ⟨r, hr⟩ := b.exists_recordBefore_eq e name
    exact ⟨rfl, SameLog.of_eq_setRecording hr, h.recordBefore_of_ne hw hname⟩
  | recordAfter x n =>
    cases hc
    obtain ⟨r, hr⟩ := b.exists_recordAfter_eq e name
    exact ⟨rfl, SameLog.of_eq_setRecording hr, h.recordAfter_of_ne hw hname⟩
  | _ => cases hc

/-- Every call inside an operation leaves the log, and takes what the operation holds of the
    value to the next phase. -/
theorem Advances.preserves (hstep : b.Advances e p first ph c ph') (hw : b.Watches e p)
    (hpast : b.History e p oldest b.undo.past first) (hreads : p.ReadsBack first)
    (h : b.IsTraced e p first ph) :
    c.isBalanced = true ∧ b.SameLog (b.call c) ∧ (b.call c).IsTraced e p first ph' := by
  cases hstep with
  | aside balanced haside =>
    obtain ⟨hlog, ht⟩ := h.aside hw haside
    exact ⟨balanced, hlog, ht⟩
  | leave balanced leaves =>
    exact ⟨balanced, .of_undo leaves.setup leaves.undo,
      h.of_undo leaves.setup leaves.undo leaves.value⟩
  | change balanced setup undo there next =>
    obtain ⟨i, hi⟩ := Option.isSome_iff_exists.mp there
    have hlog : b.SameLog (b.call c) := .of_undo setup undo
    have hw' := hw.of_sameLog (hw.steady.call balanced) hlog
    exact ⟨balanced, hlog, h.change setup undo (hw'.exists_value hi).1 next⟩
  | beside hparam other value => exact h.beside hw hparam other value
  | before next =>
    obtain ⟨r, hr⟩ := b.exists_recordBefore_eq e p.name
    exact ⟨rfl, SameLog.of_eq_setRecording hr, (h.recordBefore hw next).2⟩
  | after noted =>
    obtain ⟨r, hr⟩ := b.exists_recordAfter_eq e p.name
    exact ⟨rfl, SameLog.of_eq_setRecording hr, (h.recordAfter hw hpast hreads noted).2⟩
  | assume same unknown =>
    subst same
    obtain ⟨r, hr⟩ := b.exists_recordAfter_eq e p.name
    exact ⟨rfl, SameLog.of_eq_setRecording hr, h.assume hw unknown⟩
  | @modify _ _ s next written =>
    exact ⟨rfl, sameLog_modify e p.name hw.steady.wellFormed s,
      (h.modify hw hpast hreads next).1 written⟩
  | @refused _ _ s err next failed =>
    exact ⟨rfl, sameLog_modify e p.name hw.steady.wellFormed s,
      (h.modify hw hpast hreads next).2 err failed⟩
  | create made reads =>
    obtain ⟨_, hset, hundo⟩ := hw.steady.create e.typeTag e.guid
    exact ⟨rfl, .of_undo hset hundo, h.create hw made reads⟩
  | recordCreate =>
    obtain ⟨r, hr⟩ := b.exists_recordCreate_eq e
    exact ⟨rfl, SameLog.of_eq_setRecording hr, h.recordCreate hw⟩
  | recordDelete settled reads =>
    obtain ⟨r, hr⟩ := b.exists_recordDelete_eq e
    exact ⟨rfl, SameLog.of_eq_setRecording hr, h.recordDelete hw reads settled⟩
  | delete =>
    obtain ⟨_, hset, hundo⟩ := hw.steady.delete e
    exact ⟨rfl, .of_undo hset hundo, h.delete hw⟩

end Calls

end Book

end EntityBook
