import EntityBook.Proofs.Undo.Timeline

/-! # Which entities undo and redo leave

  An operation that only makes and deletes entities can name the same entity any
  number of times. A replay does not follow the order of what was recorded: it
  makes all that was deleted and then deletes all that was made, once each. This
  gives back the live set of before for every entity but one that was live and was
  made again in the operation, which undo deletes; and redo gives back the live set
  of after for every entity but one that is live and was deleted in the operation.

  `Fate` is what the entries know of an entity while the operation goes on.
-/

namespace EntityBook.Book

variable {P : PayloadFamily}

/-- A step that makes or deletes an entity, and succeeds. -/
def Succeeds (b : Book P) : Action → Prop
  | .create tag g => ∃ e, (b.create tag g).1 = .ok e
  | .delete e => (b.recordDelete e).1 = .ok () ∧ ((b.recordDelete e).2.delete e).1 = .ok ()
  | .modify _ _ _ => False

/-- Every step makes or deletes an entity, and succeeds. -/
def ExistenceRun (b : Book P) : List Action → Prop
  | [] => True
  | a :: rest => b.Succeeds a ∧ (b.perform a).ExistenceRun rest

/-- The step that makes an entity. -/
def creation (e : Entity) : Action := .create e.typeTag e.guid

/-! ### What the entries know -/

/-- An entity in an operation under way, by the book in which it was opened and the
    entries so far. -/
structure Fate (b₀ b : Book P) (entries : List (UndoEntry P)) (e : Entity) : Prop where
  untouched : .created e ∉ entries → .deleted e ∉ entries → b.contains e = b₀.contains e
  /-- What was not there has to be made before it is deleted. -/
  new : b₀.contains e = false → .deleted e ∈ entries → .created e ∈ entries
  kept : .created e ∈ entries → .deleted e ∉ entries → b.contains e = true
  makes : .created e ∈ entries ∨ .deleted e ∈ entries → ∃ cl payload, b₀.Makes e cl payload

/-- An operation under way in which these steps were done. -/
structure Counted (b₀ b : Book P) (o : OpenOperation P) (done : List Action) : Prop where
  steady : b.Steady
  setup : b₀.SameSetup b
  log : b.undo = { b₀.undo with recording := some o }
  unwatched : o.watched = []
  unbased : o.baseline = []
  made : ∀ e, .created e ∈ o.entries ↔ creation e ∈ done
  gone : ∀ e, .deleted e ∈ o.entries ↔ .delete e ∈ done
  fate : ∀ e, Fate b₀ b o.entries e

variable {b₀ b b' : Book P} {e : Entity}

/-- Entries about other entities change nothing for an entity that stays as it is. -/
theorem Fate.append {entries more : List (UndoEntry P)} (h : Fate b₀ b entries e)
    (hlive : b'.contains e = b.contains e) (hmade : .created e ∉ more)
    (hgone : .deleted e ∉ more) : Fate b₀ b' (entries ++ more) e := by
  have made : UndoEntry.created e ∈ entries ++ more ↔ .created e ∈ entries :=
    mem_append_of_not_mem hmade
  have gone : UndoEntry.deleted e ∈ entries ++ more ↔ .deleted e ∈ entries :=
    mem_append_of_not_mem hgone
  refine ⟨?_, ?_, ?_, ?_⟩
  · rw [made, gone, hlive]
    exact h.untouched
  · rw [made, gone]
    exact h.new
  · rw [made, gone, hlive]
    exact h.kept
  · rw [made, gone]
    exact h.makes

namespace Counted

variable {o : OpenOperation P} {done : List Action}

theorem start (hb : b.Steady) (enabled : b.config.undoEnabled = true) (label : String) :
    Counted b (b.startOperation label) { label } [] := by
  have hstart : b.startOperation label = b.setRecording (some { label }) := by
    unfold startOperation
    rw [if_pos enabled]
  rw [hstart]
  refine ⟨hb.setRecording _, ⟨rfl, rfl, rfl, rfl⟩, rfl, rfl, rfl, ?_, ?_, fun e => ?_⟩
  · exact fun e => iff_of_false List.not_mem_nil List.not_mem_nil
  · exact fun e => iff_of_false List.not_mem_nil List.not_mem_nil
  · refine ⟨fun _ _ => rfl, fun _ hm => ?_, fun hm => ?_, fun hm => ?_⟩
    · cases hm
    · cases hm
    · rcases hm with hm | hm <;> cases hm

theorem recording?_eq (h : Counted b₀ b o done) (enabled : b₀.config.undoEnabled = true) :
    b.recording? = some o := by
  unfold recording?
  rw [h.setup.config, if_pos enabled, h.log]

/-- Entries are added by a step that changes at most one entity. -/
theorem extend (h : Counted b₀ b o done) (a : Action) (more : List (UndoEntry P))
    (hs : b'.Steady) (hsetup : b.SameSetup b')
    (hlog : b'.undo = { b.undo with recording := some { o with entries := o.entries ++ more } })
    (hmade : ∀ e, .created e ∈ more ↔ a = creation e)
    (hgone : ∀ e, .deleted e ∈ more ↔ a = .delete e)
    (hlive : ∀ e, .created e ∉ more → .deleted e ∉ more → b'.contains e = b.contains e)
    (hfate : ∀ e, .created e ∈ more ∨ .deleted e ∈ more → Fate b₀ b' (o.entries ++ more) e) :
    Counted b₀ b' { o with entries := o.entries ++ more } (done ++ [a]) where
  steady := hs
  setup := h.setup.trans hsetup
  log := by rw [hlog, h.log]
  unwatched := h.unwatched
  unbased := h.unbased
  made e := by
    rw [List.mem_append, List.mem_append, h.made e, hmade e, List.mem_singleton, eq_comm]
  gone e := by
    rw [List.mem_append, List.mem_append, h.gone e, hgone e, List.mem_singleton, eq_comm]
  fate e := by
    by_cases hm : .created e ∈ more ∨ .deleted e ∈ more
    · exact hfate e hm
    · rw [not_or] at hm
      exact (h.fate e).append (hlive e hm.1 hm.2) hm.1 hm.2

theorem create (h : Counted b₀ b o done) (enabled : b₀.config.undoEnabled = true)
    {tag : TypeTag} {g : Guid} (hs : b.Succeeds (.create tag g)) :
    ∃ o', Counted b₀ (b.perform (.create tag g)) o' (done ++ [.create tag g]) := by
  obtain ⟨e, he⟩ := hs
  obtain ⟨hsteady, hsetup, hundo⟩ := h.steady.create tag g
  unfold Book.perform
  cases hc : b.create tag g with
  | mk r b' =>
    rw [hc] at he hsteady hsetup hundo
    cases he
    obtain ⟨rfl, hg, hnone, cl, payload, hcl, hp, hb'⟩ := create_eq_ok.mp hc
    have hmakes : b.Makes ⟨tag, g⟩ cl payload := ⟨hg, hcl, hp⟩
    have hrec : b'.recording? = some o := by
      unfold recording?
      rw [hsetup.config, h.setup.config, if_pos enabled, hundo, h.log]
    simp only [hc]
    rw [recordCreate_of_some hrec]
    have hlive (x : Entity) :
        (b'.addEntries o [.created ⟨tag, g⟩]).contains x = b'.contains x := rfl
    have hnow : b'.contains ⟨tag, g⟩ = true := by
      rw [hb']
      exact (contains_adopt b _ _).mpr (Or.inl rfl)
    refine ⟨_, h.extend (.create tag g) [.created ⟨tag, g⟩] (hsteady.setRecording _)
      (hsetup.trans ⟨rfl, rfl, rfl, rfl⟩) ?_ ?_ ?_ ?_ ?_⟩
    · exact hundo ▸ rfl
    · intro x
      rw [List.mem_singleton]
      constructor
      · intro hx
        cases hx
        rfl
      · intro hx
        obtain ⟨t, gx⟩ := x
        cases hx
        rfl
    · intro x
      simp
    · intro x hx _
      have hne : x ≠ ⟨tag, g⟩ := fun heq => hx (by simp [heq])
      rw [hlive, hb']
      unfold contains
      rw [get?_adopt_of_ne b hne]
    · intro x hx
      have hx : x = ⟨tag, g⟩ := by simpa using hx
      subst hx
      have hmem : UndoEntry.created ⟨tag, g⟩ ∈ o.entries ++ [.created ⟨tag, g⟩] := by simp
      exact ⟨fun hn => absurd hmem hn, fun _ _ => hmem, fun _ _ => hnow,
        fun _ => ⟨cl, payload, hmakes.of_setup h.setup.symm⟩⟩

theorem delete (h : Counted b₀ b o done) (enabled : b₀.config.undoEnabled = true)
    (hs : b.Succeeds (.delete e)) :
    ∃ o', Counted b₀ (b.perform (.delete e)) o' (done ++ [.delete e]) := by
  obtain ⟨hrecorded, _⟩ := hs
  -- Recording a deletion succeeds only for a live entity.
  have hexists : ∃ i, b.get? e = some i := by
    have hrecords := b.recordsDelete e
    generalize b.recordDelete e = out at hrecords hrecorded
    cases hrecords with
    | idle closed => cases closed.symm.trans (h.recording?_eq enabled)
    | unknown | gone | unread => cases hrecorded
    | recorded _ _ live => exact ⟨_, live⟩
  obtain ⟨i, hi⟩ := hexists
  obtain ⟨cl, payload, hmakes, _⟩ := h.steady.wellFormed.exists_makes hi
  have hrecord := Recorded.recordDelete_of_live h.steady.wellFormed (h.recording?_eq enabled) hi
    hmakes.found
  have hadd : (b.addEntries o (Recorded.deletion e i cl)).Steady := h.steady.setRecording _
  obtain ⟨hsteady, hsetup, hundo⟩ := hadd.delete e
  have hset : b.SameSetup (b.addEntries o (Recorded.deletion e i cl)) := ⟨rfl, rfl, rfl, rfl⟩
  have hdeleted : UndoEntry.deleted e ∈ Recorded.deletion e i cl := List.mem_cons_self
  have hgone : ((b.addEntries o (Recorded.deletion e i cl)).delete e).2.get? e = none :=
    get?_delete_self hi (h.steady.quiet e i hi).1
  have hno (x : Entity) : UndoEntry.created x ∉ Recorded.deletion e i cl :=
    Recorded.not_mem_deletion (by simp) (by simp)
  show ∃ o', Counted b₀ ((b.recordDelete e).2.delete e).2 o' (done ++ [.delete e])
  rw [hrecord]
  refine ⟨_, h.extend (.delete e) (Recorded.deletion e i cl) hsteady (hset.trans hsetup) hundo
    ?_ ?_ ?_ ?_⟩
  · intro x
    exact iff_of_false (hno x) (by simp [creation])
  · intro x
    constructor
    · intro hx
      by_contra hne
      exact Recorded.not_mem_deletion (by simp) (fun heq => hne (by cases heq; rfl)) hx
    · intro hx
      cases hx
      exact hdeleted
  · intro x _ hx
    have hne : x ≠ e := by
      rintro rfl
      exact hx hdeleted
    unfold contains
    rw [get?_delete_of_ne _ hne]
    rfl
  · intro x hx
    have hx : x = e := by
      by_contra hne
      exact Recorded.not_mem_deletion (by simp) (fun heq => hne (by cases heq; rfl))
        (hx.resolve_left (hno x))
    subst hx
    have hmem : UndoEntry.deleted x ∈ o.entries ++ Recorded.deletion x i cl :=
      List.mem_append_right _ hdeleted
    have hlive : b.contains x = true := contains_of_some hi
    refine ⟨fun _ hn => absurd hmem hn, fun hnew _ => List.mem_append_left _ ?_,
      fun _ hn => absurd hmem hn, fun _ => ⟨cl, payload, hmakes.of_setup h.setup.symm⟩⟩
    -- It is live now and was not before, so it was made on the way.
    by_contra hnot
    by_cases hd : .deleted x ∈ o.entries
    · exact hnot ((h.fate x).new hnew hd)
    · have heq := (h.fate x).untouched hnot hd
      rw [hlive, hnew] at heq
      cases heq

theorem perform (h : Counted b₀ b o done) (enabled : b₀.config.undoEnabled = true) {a : Action}
    (hs : b.Succeeds a) : ∃ o', Counted b₀ (b.perform a) o' (done ++ [a]) := by
  cases a with
  | create tag g => exact h.create enabled hs
  | delete e => exact h.delete enabled hs
  | modify e name s => exact hs.elim

theorem performAll (h : Counted b₀ b o done) (enabled : b₀.config.undoEnabled = true)
    {actions : List Action} (hr : b.ExistenceRun actions) :
    ∃ o', Counted b₀ (b.performAll actions) o' (done ++ actions) := by
  induction actions generalizing b o done with
  | nil => exact ⟨o, by simpa [Book.performAll] using h⟩
  | cons a rest ih =>
    obtain ⟨hone, hrest⟩ := hr
    obtain ⟨o', h'⟩ := h.perform enabled hone
    obtain ⟨o'', h''⟩ := ih h' hrest
    exact ⟨o'', by simpa [Book.performAll] using h''⟩

end Counted

/-! ### Replay -/

/-- Which entities a replay leaves. -/
theorem contains_replay (hb : b.Steady) (entries : List (UndoEntry P)) (d : Direction)
    (hmakes : e ∈ entitiesOf entries d.made → ∃ cl payload, b.Makes e cl payload) :
    (b.replay entries d).contains e = true ↔
      e ∉ entitiesOf entries d.removed ∧
        (b.contains e = true ∨ e ∈ entitiesOf entries d.made) := by
  obtain ⟨hremoved, hother⟩ := hb.get?_replay entries d e
  by_cases hrem : e ∈ entitiesOf entries d.removed
  · simp [contains, hremoved hrem, hrem]
  · obtain ⟨hsome, hnone, hmade⟩ := hother hrem
    cases hi : b.get? e with
    | some i =>
      obtain ⟨k, hk, _⟩ := hsome i hi
      simp [contains, hi, hk, hrem]
    | none =>
      by_cases hm : e ∈ entitiesOf entries d.made
      · obtain ⟨cl, payload, hmk⟩ := hmakes hm
        obtain ⟨k, hk, _⟩ := hmade hi hm cl payload hmk
        simp [contains, hk, hrem, hm]
      · simp [contains, hi, hnone hi hm, hm]

section Close

variable {o : OpenOperation P} {done : List Action}

/-- Which entities undo leaves. -/
theorem Counted.contains_undo (h : Counted b₀ b o done) (hs : b'.Steady) (hset : b.SameSetup b')
    (hlive : b'.contains e = b.contains e) :
    (b'.replay (o.entries.map b.close) .undo).contains e = true ↔
      .created e ∉ o.entries ∧ (b.contains e = true ∨ .deleted e ∈ o.entries) := by
  have hreplay := contains_replay (e := e) hs (o.entries.map b.close) .undo
    fun hm => by
      obtain ⟨cl, payload, hmk⟩ := (h.fate e).makes (Or.inr ((Recorded.gone_iff b _ e).mp hm))
      exact ⟨cl, payload, hmk.of_setup (h.setup.trans hset)⟩
  unfold Direction.removed Direction.made at hreplay
  rw [Recorded.made_iff, Recorded.gone_iff, hlive] at hreplay
  exact hreplay

/-- Undo gives back whether an entity was live, unless it was live and was made
    again. -/
theorem Counted.undo_iff (h : Counted b₀ b o done) (hs : b'.Steady) (hset : b.SameSetup b')
    (hlive : b'.contains e = b.contains e) :
    (b'.replay (o.entries.map b.close) .undo).contains e = b₀.contains e ↔
      ¬ (b₀.contains e = true ∧ creation e ∈ done) := by
  have hundone := h.contains_undo hs hset hlive
  rw [← h.made e]
  by_cases hmade : .created e ∈ o.entries
  · have hgone : (b'.replay (o.entries.map b.close) .undo).contains e = false := by
      simpa [hmade] using hundone
    rw [hgone]
    cases b₀.contains e <;> simp [hmade]
  · refine iff_of_true (Bool.eq_iff_iff.mpr (hundone.trans ?_)) fun hn => hmade hn.2
    by_cases hdel : .deleted e ∈ o.entries
    · have hbefore : b₀.contains e = true := by
        by_contra hnew
        exact hmade ((h.fate e).new (by simpa using hnew) hdel)
      simp [hmade, hdel, hbefore]
    · rw [(h.fate e).untouched hmade hdel]
      simp [hmade, hdel]

/-- Redo gives back whether an entity is live, unless it is live and was deleted. -/
theorem Counted.redo_iff (h : Counted b₀ b o done) (hs : b'.Steady) (hset : b.SameSetup b')
    (hlive : b'.contains e = true ↔ .created e ∉ o.entries ∧
      (b.contains e = true ∨ .deleted e ∈ o.entries)) :
    (b'.replay (o.entries.map b.close) .redo).contains e = b.contains e ↔
      ¬ (b.contains e = true ∧ .delete e ∈ done) := by
  have hreplay := contains_replay (e := e) hs (o.entries.map b.close) .redo
    fun hm => by
      obtain ⟨cl, payload, hmk⟩ := (h.fate e).makes (Or.inl ((Recorded.made_iff b _ e).mp hm))
      exact ⟨cl, payload, hmk.of_setup (h.setup.trans hset)⟩
  unfold Direction.removed Direction.made at hreplay
  rw [Recorded.made_iff, Recorded.gone_iff, hlive] at hreplay
  rw [← h.gone e]
  by_cases hdel : .deleted e ∈ o.entries
  · have hgone : (b'.replay (o.entries.map b.close) .redo).contains e = false := by
      simpa [hdel] using hreplay
    rw [hgone]
    cases b.contains e <;> simp [hdel]
  · refine iff_of_true (Bool.eq_iff_iff.mpr (hreplay.trans ?_)) fun hn => hdel hn.2
    by_cases hmade : .created e ∈ o.entries
    · simp [hmade, hdel, (h.fate e).kept hmade hdel]
    · simp [hmade, hdel]

/-- What a committed operation leaves. -/
theorem Counted.endOperation (h : Counted b₀ b o done) (hc : b.endOperation.1 = true) :
    ∃ l : UndoLog P, b.endOperation.2 =
      { b with undo := l.push ⟨o.label, o.entries.map b.close⟩ b.config.undoLimit } := by
  have hrec : b.undo.recording = some o := by
    rw [h.log]
  exact exists_push_of_committed hrec h.unwatched hc

end Close

/-- After an operation that makes and deletes entities, undo gives back the live set
    of before and redo that of after, except for entities that were deleted and made
    again under the same identifier: undo loses those that were live before, and redo
    those that are live after. -/
theorem existence_replayed_iff (hb : b.Steady) (enabled : b.config.undoEnabled = true)
    (limit : 0 < b.config.undoLimit) (label : String) {actions : List Action}
    (run : (b.startOperation label).ExistenceRun actions)
    (committed : (b.session label actions).1 = true) :
    (b.session label actions).2.undoLast.1 = true ∧
    (b.session label actions).2.undoLast.2.redoNext.1 = true ∧
    ∀ e, ((b.session label actions).2.undoLast.2.contains e = b.contains e ↔
        ¬ (b.contains e = true ∧ creation e ∈ actions)) ∧
      ((b.session label actions).2.undoLast.2.redoNext.2.contains e =
          (b.session label actions).2.contains e ↔
        ¬ ((b.session label actions).2.contains e = true ∧ .delete e ∈ actions)) := by
  obtain ⟨o, hcount⟩ := (Counted.start hb enabled label).performAll enabled run
  rw [List.nil_append] at hcount
  obtain ⟨l, hl⟩ := hcount.endOperation committed
  have hclosed : (b.session label actions).2 = _ := hl
  -- From here on only the log of the closed book differs from the open one.
  generalize hd : (b.startOperation label).performAll actions = d at hcount hl hclosed
  generalize (b.session label actions).2 = c at hclosed
  have hlog : c.undo = l.push ⟨o.label, o.entries.map d.close⟩ d.config.undoLimit := by
    rw [hclosed]
  have hlimit : 0 < d.config.undoLimit := by
    rw [hcount.setup.config]
    exact limit
  have hmid : ((c.setRecording none).setCursor (c.undo.cursor - 1)).Steady := by
    rw [hclosed]
    exact ⟨hcount.steady.wellFormed.of_eq rfl rfl rfl rfl, hcount.steady.quiet⟩
  have hset : d.SameSetup ((c.setRecording none).setCursor (c.undo.cursor - 1)) := by
    rw [hclosed]
    exact ⟨rfl, rfl, rfl, rfl⟩
  have hlive (e : Entity) : ((c.setRecording none).setCursor (c.undo.cursor - 1)).contains e =
      d.contains e := by
    rw [hclosed]
    rfl
  have hend (e : Entity) : c.contains e = d.contains e := by
    rw [hclosed]
    rfl
  have hundone := undoLast_of_push hlog hlimit
  obtain ⟨hsteady', hset', hundo'⟩ := hmid.replay (o.entries.map d.close) .undo
  have hbook : c.undoLast.2 = _ := congrArg Prod.snd hundone
  have hmoved : c.undoLast.2.undo = ((c.setRecording none).setCursor (c.undo.cursor - 1)).undo := by
    rw [hbook]
    exact hundo'
  have hredone := redoNext_of_push hlog hlimit hmoved
  refine ⟨congrArg Prod.fst hundone, congrArg Prod.fst hredone, fun e => ⟨?_, ?_⟩⟩
  · rw [hbook]
    exact hcount.undo_iff hmid hset (hlive e)
  · rw [hredone, hend]
    have hsteady : (c.undoLast.2.setRecording none).Steady := by
      rw [hbook]
      exact hsteady'.setRecording none
    refine hcount.redo_iff hsteady ?_ ?_
    · rw [hbook]
      exact (hset.trans hset').trans ⟨rfl, rfl, rfl, rfl⟩
    · show c.undoLast.2.contains e = true ↔ _
      rw [hbook]
      exact hcount.contains_undo hmid hset (hlive e)

/-! ### Nodes that are made and deleted -/

section Nodes

open Bag

/-- A book with one node. -/
def lone : Book bags := ((emptyBook 1).create "node" (node 1).guid).2

/-- The node is deleted, and another one takes its place after a first attempt. -/
def exchange : List Action :=
  [.delete (node 1), creation (node 2), .delete (node 2), creation (node 3)]

/-- The node is deleted and made again. -/
def remake : List Action := [.delete (node 1), creation (node 1)]

theorem existenceRun_exchange : (lone.startOperation "exchange").ExistenceRun exchange :=
  ⟨⟨rfl, rfl⟩, ⟨node 2, rfl⟩, ⟨rfl, rfl⟩, ⟨node 3, rfl⟩, trivial⟩

theorem existenceRun_remake : (lone.startOperation "remake").ExistenceRun remake :=
  ⟨⟨rfl, rfl⟩, ⟨node 1, rfl⟩, trivial⟩

/-- Undo and redo of an exchange give back all live nodes. -/
theorem exchange_undone_and_redone :
    (lone.session "exchange" exchange).1 = true ∧
    ∀ n ∈ [1, 2, 3],
      (lone.session "exchange" exchange).2.undoLast.2.contains (node n) =
          lone.contains (node n) ∧
        (lone.session "exchange" exchange).2.undoLast.2.redoNext.2.contains (node n) =
          (lone.session "exchange" exchange).2.contains (node n) := by
  have hcommit : (lone.session "exchange" exchange).1 = true := by decide +kernel
  have hsteady : lone.Steady := ((steady_emptyBook 1).create _ _).1
  obtain ⟨_, _, hlive⟩ := existence_replayed_iff hsteady rfl (by decide) "exchange"
    existenceRun_exchange hcommit
  have hopened : ∀ n ∈ [1, 2, 3], lone.contains (node n) = true → n = 1 := by decide +kernel
  have hclosed : ∀ n ∈ [1, 2, 3],
      (lone.session "exchange" exchange).2.contains (node n) = true → n = 3 := by decide +kernel
  refine ⟨hcommit, fun n hn => ⟨(hlive (node n)).1.mpr ?_, (hlive (node n)).2.mpr ?_⟩⟩
  · rintro ⟨hn₁, hmade⟩
    cases hopened n hn hn₁
    simp [exchange, creation, node] at hmade
  · rintro ⟨hn₃, hgone⟩
    cases hclosed n hn hn₃
    simp [exchange, creation, node] at hgone

/-- A node that was made again is lost: undo deletes it, and so does redo. -/
theorem remade_node_lost :
    (lone.startOperation "remake").ExistenceRun remake ∧
    (lone.session "remake" remake).1 = true ∧
    lone.contains (node 1) = true ∧
    (lone.session "remake" remake).2.undoLast.2.contains (node 1) = false ∧
    (lone.session "remake" remake).2.contains (node 1) = true ∧
    (lone.session "remake" remake).2.undoLast.2.redoNext.2.contains (node 1) = false :=
  ⟨existenceRun_remake, by decide +kernel⟩

end Nodes

end EntityBook.Book
