import EntityBook.Proofs.Payload.Bag
import EntityBook.Proofs.Run.Invariant

/-! # What a backend hears

  A backend hears when the outermost edit of an entity begins and when it is committed.
  The removal of an entity ends an edit as well, and of that the backend does not hear.
  A trail is a run step by step with all three written down for one entity, and they come
  in pairs: each begin is followed by a commit or by the removal, except the last one
  while an edit is open.

  This rests on the count of open edits. `Step.turn` says how a step changes the count and
  what is noticed with it; a move, hence any operation that closes what it opens, leaves
  every count as it was.
-/

namespace EntityBook

variable {P : PayloadFamily}

/-! ### Hooks -/

/-- What happens to an entity at the ends of its edits. -/
inductive Hook where
  /-- The backend hears that an edit begins, and of an instance with this many open edits. -/
  | begun (level : Nat)
  /-- The backend is asked to commit, and sees this many open edits. -/
  | committed (level : Nat)
  /-- The entity is removed. -/
  | removed
  deriving DecidableEq, Repr

/-- A call to the backend, as what happens to an entity. -/
def BackendCall.hook? (e : Entity) : BackendCall P → Option Hook
  | .begin i => if i.entity = e then some (.begun i.level) else none
  | .commit i _ => if i.entity = e then some (.committed i.level) else none

/-- Hooks in pairs, followed by a single begin if an edit is open. The backend sees the
    first open edit when it begins and none when it is asked to commit. -/
inductive Paired : (editing : Bool) → List Hook → Prop where
  | none : Paired false []
  | committed {hooks : List Hook} (before : Paired false hooks) :
      Paired false (hooks ++ [.begun 1, .committed 0])
  | removed {hooks : List Hook} (before : Paired false hooks) :
      Paired false (hooks ++ [.begun 1, .removed])
  | editing {hooks : List Hook} (before : Paired false hooks) :
      Paired true (hooks ++ [.begun 1])

/-- Where hooks come in pairs, the removals are told by the rest. -/
theorem Paired.unique {editing : Bool} {hooks others : List Hook} (h : Paired editing hooks)
    (h' : Paired editing others)
    (heard : hooks.filter (· ≠ .removed) = others.filter (· ≠ .removed)) : hooks = others := by
  induction h generalizing others with
  | none =>
    cases h' with
    | none => rfl
    | committed | removed => simp at heard
  | committed before ih =>
    cases h' with
    | none => simp at heard
    | committed before' => rw [ih before' (by simpa using heard)]
    | removed before' =>
      have hlast := congrArg List.getLast? heard
      simp at hlast
  | removed before ih =>
    cases h' with
    | none => simp at heard
    | committed before' =>
      have hlast := congrArg List.getLast? heard
      simp at hlast
    | removed before' => rw [ih before' (by simpa using heard)]
  | editing before ih =>
    cases h' with
    | editing before' => rw [ih before' (by simpa using heard)]

/-- How the number of open edits may change, and what happens with it. -/
inductive Turn : (before after : Nat) → List Hook → Prop where
  | inner {m n : Nat} (same : 0 < m ↔ 0 < n) : Turn m n []
  | begun : Turn 0 1 [.begun 1]
  | committed : Turn 1 0 [.committed 0]
  | removed : Turn 1 0 [.removed]

theorem Paired.turn {m n : Nat} {hooks news : List Hook} (h : Paired (decide (0 < m)) hooks)
    (ht : Turn m n news) : Paired (decide (0 < n)) (hooks ++ news) := by
  cases ht with
  | inner same =>
    rw [List.append_nil, ← decide_eq_decide.mpr same]
    exact h
  | begun => exact .editing h
  | committed =>
    cases h with
    | editing before => simpa using before.committed
  | removed =>
    cases h with
    | editing before => simpa using before.removed

namespace Book

/-! ### Trails -/

/-- The number of open edits of an entity; none if it is not live. -/
def openEdits (b : Book P) (e : Entity) : Nat :=
  match b.get? e with
  | some i => i.level
  | none => 0

/-- What happens to an entity while a book becomes another one and the backend hears some
    calls. -/
def noticed (e : Entity) (b b' : Book P) (heard : List (BackendCall P)) : List Hook :=
  heard.filterMap (BackendCall.hook? e) ++
    if b.contains e && !b'.contains e then [.removed] else []

/-- Steps under one backend, with all that happens to an entity. -/
inductive Trail (e : Entity) : Book P → List Hook → Book P → Prop where
  | start (b : Book P) : Trail e b [] b
  | step {b b' b'' : Book P} {hooks : List Hook} {heard : List (BackendCall P)}
      (before : Trail e b hooks b') (step : Step b' b'') (calls : b''.calls = b'.calls ++ heard) :
      Trail e b (hooks ++ noticed e b' b'' heard) b''

theorem exists_trail (e : Entity) {b b' : Book P} (h : Relation.ReflTransGen Attended b b') :
    ∃ hooks, Trail e b hooks b' := by
  induction h with
  | refl => exact ⟨[], .start b⟩
  | tail _ hstep ih =>
    obtain ⟨hooks, htrail⟩ := ih
    obtain ⟨hstep, heard, hcalls⟩ := hstep
    exact ⟨_, htrail.step hstep hcalls.symm⟩

/-- Apart from removals, a trail is what the backend has heard. -/
theorem Trail.heard {e : Entity} {b b' : Book P} {hooks : List Hook} (h : Trail e b hooks b') :
    b'.calls.filterMap (BackendCall.hook? e) =
      b.calls.filterMap (BackendCall.hook? e) ++ hooks.filter (· ≠ .removed) := by
  have heard_only (cs : List (BackendCall P)) :
      (cs.filterMap (BackendCall.hook? e)).filter (· ≠ .removed) =
        cs.filterMap (BackendCall.hook? e) := by
    refine List.filter_eq_self.mpr fun hook hm => ?_
    obtain ⟨c, _, hc⟩ := List.mem_filterMap.mp hm
    unfold BackendCall.hook? at hc
    cases c <;> (dsimp only at hc; split at hc <;> cases hc; simp)
  induction h with
  | start => simp
  | @step b' b'' hooks heard before step calls ih =>
    rw [calls, List.filterMap_append, ih, noticed, List.filter_append, List.filter_append,
      heard_only, List.append_assoc]
    congr 2
    split <;> simp

/-! ### Counting open edits -/

section Count

variable {b b' : Book P} {e : Entity} {i : Instance P}

theorem openEdits_of_some (h : b.get? e = some i) : b.openEdits e = i.level := by
  unfold openEdits
  rw [h]

theorem openEdits_of_none (h : b.get? e = none) : b.openEdits e = 0 := by
  unfold openEdits
  rw [h]

theorem openEdits_congr (h : b'.get? e = b.get? e) : b'.openEdits e = b.openEdits e := by
  unfold openEdits
  rw [h]

@[simp] theorem openEdits_put_self (b : Book P) (e : Entity) (i : Instance P) :
    (b.put e i).openEdits e = i.level := openEdits_of_some (get?_put_self b e i)

/-- Nobody edits an entity from its creation on. -/
theorem openEdits_create (b : Book P) (tag : TypeTag) (guid : Guid) (e : Entity) :
    (b.create tag guid).2.openEdits e = b.openEdits e := by
  cases hc : b.create tag guid with
  | mk r b' =>
    cases r with
    | error err => rw [create_eq_error hc]
    | ok made =>
      obtain ⟨rfl, _, hn, _, payload, _, _, rfl⟩ := create_eq_ok.mp hc
      by_cases he : e = ⟨tag, guid⟩
      · subst he
        have hnone : b.get? ⟨tag, guid⟩ = none := by simpa [contains] using hn
        rw [openEdits_of_none hnone]
        exact openEdits_of_some (get?_adopt_self b (b.newborn _ payload))
      · exact openEdits_congr (get?_adopt_of_ne b he)

/-- A revision changes values, and no count. -/
theorem Revises.openEdits_eq (h : b.Revises b') (e : Entity) :
    b'.openEdits e = b.openEdits e := by
  cases hi : b.get? e with
  | none => rw [openEdits_of_none hi, openEdits_of_none (h.gone hi)]
  | some i =>
    obtain ⟨j, hj, hij⟩ := h.live hi
    rw [openEdits_of_some hi, openEdits_of_some hj, hij.level]

theorem openEdits_delete (b : Book P) (e e' : Entity) :
    (b.delete e).2.openEdits e' = b.openEdits e' := by
  by_cases he : e' = e
  · subst he
    cases hi : b.get? e' with
    | none => rw [delete_snd, edit_of_none hi]
    | some i =>
      rw [openEdits_of_some hi]
      -- An entity that is removed for good had no open edit, and has none now.
      rcases Nat.eq_zero_or_pos i.level with hl | hl
      · rw [openEdits_of_none (get?_delete_self hi hl), hl]
      · obtain ⟨j, hj, heq⟩ := get?_delete_editing hi hl
        have hlevel : j.level = i.markDeleting.level := Instance.level_of_markClean heq
        rw [openEdits_of_some hj, hlevel, Instance.markDeleting]
  · exact openEdits_congr (get?_delete_of_ne b he)

/-- A move closes what it opens. -/
theorem Move.openEdits_eq (h : Move b b') (hb : b.WellFormed) (e : Entity) :
    b'.openEdits e = b.openEdits e := by
  cases h with
  | create _ tag guid => exact openEdits_create b tag guid e
  | edit _ e' touches => exact (Revises.edit hb fun i => (touches i).toRewrites).openEdits_eq e
  | delete _ e' => exact openEdits_delete b e' e
  | suspend | resume | subscribe | unsubscribe | markClean | register | log | pushPending |
      takePending => rfl

theorem Moves.openEdits_eq (h : Moves b b') (hb : b.WellFormed) (e : Entity) :
    b'.openEdits e = b.openEdits e := by
  induction h with
  | refl => rfl
  | tail before hmove ih =>
    rw [hmove.openEdits_eq (Steps.wellFormed (Moves.steps before) hb), ih]

end Count

/-! ### What opening and closing an edit tells the backend -/

theorem calls_beginEdit_of_some {b : Book P} {e : Entity} {i : Instance P}
    (h : b.get? e = some i) :
    (b.beginEdit e).2.calls = b.calls ++ if i.level = 0 then [.begin i.enter] else [] := by
  unfold beginEdit
  simp only [h, Instance.enter, Nat.add_eq_right]
  split
  · rfl
  · exact (List.append_nil _).symm

theorem calls_settledAs (b : Book P) (e : Entity) (i : Instance P) (accepted : Bool) :
    (b.settledAs e i accepted).calls = b.calls ++ [.commit i accepted] := by
  unfold settledAs
  cases accepted <;> cases i.dirty <;> rfl

/-! ### A step and the count -/

section Turn

variable {b b' : Book P} {e : Entity} {heard : List (BackendCall P)}

/-- Where nobody hears of the entity and it stays, the count is all that matters. -/
theorem turn_unnoticed (hheard : heard.filterMap (BackendCall.hook? e) = [])
    (hlive : b.contains e = true → b'.contains e = true)
    (hopen : 0 < b.openEdits e ↔ 0 < b'.openEdits e) :
    Turn (b.openEdits e) (b'.openEdits e) (noticed e b b' heard) := by
  have hnone : noticed e b b' heard = [] := by
    unfold noticed
    rw [hheard]
    cases hc : b.contains e with
    | false => rfl
    | true => simp [hlive hc]
  rw [hnone]
  exact .inner hopen

theorem turn_of_get?_eq (hheard : heard.filterMap (BackendCall.hook? e) = [])
    (h : b'.get? e = b.get? e) :
    Turn (b.openEdits e) (b'.openEdits e) (noticed e b b' heard) := by
  refine turn_unnoticed hheard (fun hc => ?_) (by rw [openEdits_congr h])
  unfold contains at hc ⊢
  rw [h]
  exact hc

/-- Nothing is heard when an instance is put in the place of one as often edited. -/
theorem turn_put {i j : Instance P} {e' : Entity} (live : b.get? e' = some i)
    (level : 0 < i.level ↔ 0 < j.level) :
    Turn (b.openEdits e) ((b.put e' j).openEdits e) (noticed e b (b.put e' j) []) := by
  by_cases he : e = e'
  · subst he
    refine turn_unnoticed rfl (fun _ => contains_of_some (get?_put_self b e j)) ?_
    rw [openEdits_of_some live, openEdits_put_self]
    exact level
  · exact turn_of_get?_eq rfl (get?_put_of_ne b he j)

theorem turn_beginEdit (hb : b.WellFormed) (e' : Entity)
    (hcalls : (b.beginEdit e').2.calls = b.calls ++ heard) :
    Turn (b.openEdits e) ((b.beginEdit e').2.openEdits e)
      (noticed e b (b.beginEdit e').2 heard) := by
  cases hi : b.get? e' with
  | none =>
    rw [beginEdit_of_none hi] at hcalls ⊢
    obtain rfl := List.append_right_eq_self.mp hcalls.symm
    exact turn_of_get?_eq rfl rfl
  | some i =>
    have hentity : i.enter.entity = e' := (hb.fits e' i hi).entity
    have hheard : heard = if i.level = 0 then [.begin i.enter] else [] :=
      List.append_cancel_left (hcalls.symm.trans (calls_beginEdit_of_some hi))
    by_cases he : e = e'
    · subst he
      have hself := get?_beginEdit_self hi
      have hnone : noticed e b (b.beginEdit e).2 heard =
          if i.level = 0 then [.begun 1] else [] := by
        unfold noticed
        rw [contains_of_some hself, hheard]
        split
        · next hl =>
          have hlevel : i.enter.level = 1 := congrArg (· + 1) hl
          simp [BackendCall.hook?, hentity, hlevel]
        · simp
      rw [hnone, openEdits_of_some hi, openEdits_of_some hself]
      split
      · next hl =>
        rw [Instance.enter, hl]
        exact .begun
      · exact .inner (by simp [Instance.enter]; omega)
    · refine turn_of_get?_eq ?_ (get?_beginEdit_of_ne b he)
      have hne : i.enter.entity ≠ e := fun h => he (h.symm.trans hentity)
      rw [hheard]
      split <;> simp [BackendCall.hook?, hne]

theorem turn_commitEdit (hb : b.WellFormed) (e' : Entity)
    (hcalls : (b.commitEdit e').2.calls = b.calls ++ heard) :
    Turn (b.openEdits e) ((b.commitEdit e').2.openEdits e)
      (noticed e b (b.commitEdit e').2 heard) := by
  have hclosed := closed_commitEdit b e'
  generalize (b.commitEdit e').2 = b' at hclosed hcalls ⊢
  cases hclosed with
  | refused =>
    obtain rfl := List.append_right_eq_self.mp hcalls.symm
    exact turn_of_get?_eq rfl rfl
  | @inner i live level =>
    obtain rfl := List.append_right_eq_self.mp hcalls.symm
    exact turn_put live (by simp [Instance.leave]; omega)
  | @removed i live level deleting =>
    obtain rfl := List.append_right_eq_self.mp hcalls.symm
    by_cases he : e = e'
    · subst he
      have hgone : (((b.put e i.leave).remove e).markDirty.emit (.destroyed e)).get? e = none :=
        get?_remove_self _ e
      have hremoved : noticed e b (((b.put e i.leave).remove e).markDirty.emit (.destroyed e)) [] =
          [.removed] := by
        rw [noticed, contains_of_some live, contains, hgone]
        rfl
      rw [hremoved, openEdits_of_some live, openEdits_of_none hgone, level]
      exact .removed
    · exact turn_of_get?_eq rfl ((get?_remove_of_ne _ he).trans (get?_put_of_ne b he _))
  | @settled i live level kept accepted =>
    have hentity : i.leave.entity = e' := (hb.fits e' i live).entity
    obtain rfl : heard = [.commit i.leave accepted] :=
      List.append_cancel_left (hcalls.symm.trans (calls_settledAs _ e' i.leave accepted))
    by_cases he : e = e'
    · subst he
      obtain ⟨j, hj, heq⟩ := get?_settledAs_self (get?_put_self b e i.leave) accepted
      have hlevel : j.level = i.leave.level := Instance.level_of_markClean heq
      have hleave : i.leave.level = 0 := by simp [Instance.leave, level]
      have hcommitted : noticed e b ((b.put e i.leave).settledAs e i.leave accepted)
          [.commit i.leave accepted] = [.committed 0] := by
        simp [noticed, BackendCall.hook?, hentity, contains_of_some hj, hleave]
      rw [hcommitted, openEdits_of_some live, openEdits_of_some hj, hlevel, hleave, level]
      exact .committed
    · refine turn_of_get?_eq ?_ ((get?_settledAs_of_ne _ he _ _).trans (get?_put_of_ne b he _))
      have hne : i.leave.entity ≠ e := fun h => he (h.symm.trans hentity)
      simp [BackendCall.hook?, hne]

/-- A step changes the count of open edits only with a hook. -/
theorem Step.turn (hb : b.WellFormed) (hs : Step b b') (hcalls : b'.calls = b.calls ++ heard)
    (e : Entity) : Turn (b.openEdits e) (b'.openEdits e) (noticed e b b' heard) := by
  have unheard (h : b'.calls = b.calls) : heard = [] :=
    List.append_right_eq_self.mp (hcalls.symm.trans h)
  cases hs with
  | create tag guid =>
    obtain rfl := unheard (calls_create b tag guid)
    refine turn_unnoticed rfl (fun hc => ?_) (by rw [openEdits_create])
    obtain ⟨i, hi⟩ := Option.isSome_iff_exists.mp hc
    exact contains_of_some (get?_create_of_some hi tag guid)
  | beginEdit e' => exact turn_beginEdit hb e' hcalls
  | @touch e' i j live editing touches =>
    obtain rfl := unheard rfl
    exact turn_put live (by rw [touches.level])
  | @markDeleting e' i live editing =>
    obtain rfl := unheard rfl
    exact turn_put live Iff.rfl
  | commitEdit e' => exact turn_commitEdit hb e' hcalls
  | setBackend backend =>
    have hnone : heard = [] := (List.append_eq_nil_iff.mp hcalls.symm).2
    subst hnone
    exact turn_of_get?_eq rfl rfl
  | suspend | resume | subscribe | unsubscribe | markClean | register | log | pushPending |
      takePending =>
    obtain rfl := unheard rfl
    exact turn_of_get?_eq rfl rfl

end Turn

/-! ### Runs -/

theorem Trail.paired {e : Entity} {b b' : Book P} {before hooks : List Hook}
    (h : Trail e b hooks b') (hb : b.WellFormed)
    (hbefore : Paired (decide (0 < b.openEdits e)) before) :
    b'.WellFormed ∧ Paired (decide (0 < b'.openEdits e)) (before ++ hooks) := by
  induction h with
  | start => exact ⟨hb, by rwa [List.append_nil]⟩
  | step _ step calls ih =>
    rw [← List.append_assoc]
    exact ⟨ih.1.step step, ih.2.turn (step.turn ih.1 calls e)⟩

/-- Under one backend, calls are sequences of steps under it. -/
theorem attended_call (b : Book P) {c : Call P} (hc : c.keepsBackend = true) :
    Relation.ReflTransGen Attended b (b.call c) := by
  cases hb : c.isBalanced with
  | true => exact (Moves.call b hb).attended
  | false =>
    cases c with
    | beginEdit e => exact .single ⟨.beginEdit b e, calls_beginEdit b e⟩
    | commitEdit e => exact .single ⟨.commitEdit b e, calls_commitEdit b e⟩
    | setBackend => cases hc
    | _ => cases hb

theorem attended_run (b : Book P) {calls : List (Call P)}
    (hcalls : ∀ c ∈ calls, c.keepsBackend = true) :
    Relation.ReflTransGen Attended b (b.run calls) := by
  induction calls generalizing b with
  | nil => exact .refl
  | cons c rest ih =>
    exact (attended_call b (hcalls c List.mem_cons_self)).trans
      (ih (b.call c) fun d hd => hcalls d (List.mem_cons_of_mem c hd))

/-- In a run under one backend, what happens at the ends of the edits of an entity comes
    in pairs, whatever the backend decides: a begin and a commit, or a begin and the
    removal, and a last begin exactly while an edit is open. No call but `beginEdit` and
    `commitEdit` changes the number of open edits, whether it succeeds or fails. -/
theorem hooks_are_paired {registry : Registry P} (unique : registry.WellFormed) (id : Guid)
    (config : Config) (backend : Backend P) {calls : List (Call P)}
    (hcalls : ∀ c ∈ calls, c.keepsBackend = true) (e : Entity) :
    let start := (blank id registry config).setBackend backend
    let b := start.run calls
    (∃ hooks, (∀ others, Trail e start others b ↔ others = hooks) ∧
      Paired (decide (0 < b.openEdits e)) hooks ∧
      b.calls.filterMap (BackendCall.hook? e) = hooks.filter (· ≠ .removed)) ∧
    ∀ c, c.isBalanced = true → (b.call c).openEdits e = b.openEdits e := by
  intro start b
  have hstart : start.WellFormed := (WellFormed.blank unique id config).of_eq rfl rfl rfl rfl
  obtain ⟨hooks, htrail⟩ := exists_trail e (attended_run start hcalls)
  have hpaired {others : List Hook} (h : Trail e start others b) :
      Paired (decide (0 < b.openEdits e)) others := by
    have hstarted : Paired (decide (0 < start.openEdits e)) [] := .none
    simpa using (h.paired hstart hstarted).2
  have hheard {others : List Hook} (h : Trail e start others b) :
      b.calls.filterMap (BackendCall.hook? e) = others.filter (· ≠ .removed) := by
    simpa [start, setBackend] using h.heard
  refine ⟨⟨hooks, fun others => ⟨fun h => ?_, fun h => h ▸ htrail⟩, hpaired htrail,
    hheard htrail⟩, fun c hc => ?_⟩
  · exact (hpaired h).unique (hpaired htrail) ((hheard h).symm.trans (hheard htrail))
  · exact (Moves.call b hc).openEdits_eq ((Steps.run start calls).wellFormed hstart) e

end Book

/-! ### A node that is removed, made again and edited -/

namespace Bag

/-- A node is deleted inside an edit of it and made again; a write to the new one is
    refused, and an edit of it stays open. -/
def remakeCalls : List (Call bags) :=
  [.create "node" (node 1).guid, .beginEdit (node 1), .writeText (node 1) "label" "a",
    .delete (node 1), .commitEdit (node 1), .create "node" (node 1).guid,
    .writeText (node 1) "label" "b", .beginEdit (node 1)]

/-- The book after that, under a backend that refuses every commit. -/
def remade : Book bags :=
  ((Book.blank ⟨1⟩ nodes {}).setBackend (.refusing .always "full")).run remakeCalls

end Bag

/-- The backend heard three begins and refused one commit, so there was one removal. -/
theorem Book.remade_node_hooks :
    Bag.remade.calls.filterMap (BackendCall.hook? (Bag.node 1)) =
      [.begun 1, .begun 1, .committed 0, .begun 1] ∧
    0 < Bag.remade.openEdits (Bag.node 1) ∧
    (∀ c ∈ Bag.remakeCalls, c.keepsBackend = true) ∧
    (∃ hooks, Trail (Bag.node 1) ((Book.blank ⟨1⟩ Bag.nodes {}).setBackend
      (.refusing .always "full")) hooks Bag.remade ∧ Paired true hooks) ∧
    (Bag.remade.call (.delete (Bag.node 1))).openEdits (Bag.node 1) =
      Bag.remade.openEdits (Bag.node 1) := by
  have hcalls : ∀ c ∈ Bag.remakeCalls, c.keepsBackend = true := by
    simp [Bag.remakeCalls, Call.keepsBackend]
  have hopen : 0 < Bag.remade.openEdits (Bag.node 1) := by decide +kernel
  obtain ⟨⟨hooks, htrail, hpaired, _⟩, hsame⟩ :=
    hooks_are_paired Bag.wellFormed_nodes ⟨1⟩ {} (.refusing .always "full") hcalls (Bag.node 1)
  refine ⟨by decide +kernel, hopen, hcalls, ⟨hooks, (htrail hooks).mpr rfl, ?_⟩,
    hsame (.delete (Bag.node 1)) rfl⟩
  have hediting : decide (0 < Bag.remade.openEdits (Bag.node 1)) = true := decide_eq_true hopen
  exact hediting ▸ hpaired

end EntityBook
