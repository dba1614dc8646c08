import EntityBook.Book.Params
import EntityBook.Proofs.Instance.Access
import EntityBook.Proofs.SortedEntries

/-! # What an edit does

  An edit changes one instance and, when it closes, tells the backend and the
  subscribers. `Keeps` is what no edit touches; `get?_edit_self` and
  `get?_edit_of_ne` say what becomes of the instances, whatever the backend
  answers. Two instances are compared by `markClean`, that is, up to the flag by
  which a refused commit shows.
-/

namespace EntityBook

variable {P : PayloadFamily}

namespace Instance

/-- Closes one edit, if one is open. -/
def leave (i : Instance P) : Instance P := { i with level := i.level - 1 }

theorem level_leave (i : Instance P) : i.leave.level = i.level - 1 := rfl

theorem leave?_of_idle {i : Instance P} (h : i.level = 0) : i.leave? = none := by
  unfold leave?
  rw [h]

theorem leave?_eq_some {i : Instance P} (h : 0 < i.level) : i.leave? = some i.leave := by
  obtain ⟨n, hn⟩ : ∃ n, i.level = n + 1 := ⟨i.level - 1, by omega⟩
  simp [leave?, leave, hn]

/-- A change of values inside an edit is one of the instance outside it. -/
theorem Rewrites.leave {i j : Instance P} (h : i.enter.Rewrites j) : i.Rewrites j.leave where
  entity := h.entity
  owner := h.owner
  level := by
    have hlevel : j.level = i.level + 1 := h.level
    show j.level - 1 = i.level
    omega
  deleting := h.deleting
  payload := h.payload

theorem level_of_markClean {i j : Instance P} (h : i.markClean = j.markClean) :
    i.level = j.level := by
  have h : i.markClean.level = j.markClean.level := by rw [h]
  exact h

theorem deleting_of_markClean {i j : Instance P} (h : i.markClean = j.markClean) :
    i.deleting = j.deleting := by
  have h : i.markClean.deleting = j.markClean.deleting := by rw [h]
  exact h

theorem slots_of_markClean {i j : Instance P} (h : i.markClean = j.markClean) :
    i.slots = j.slots := by
  have h : i.markClean.slots = j.markClean.slots := by rw [h]
  exact h

theorem Rewrites.of_markClean {i j k : Instance P} (h : i.Rewrites j)
    (hk : k.markClean = j.markClean) : i.Rewrites k where
  entity := (congrArg Instance.entity hk : k.markClean.entity = j.markClean.entity).trans h.entity
  owner := (congrArg Instance.owner hk : k.markClean.owner = j.markClean.owner).trans h.owner
  level := (level_of_markClean hk).trans h.level
  deleting := (deleting_of_markClean hk).trans h.deleting
  payload := by
    have hp : k.markClean.payload = j.markClean.payload := by rw [hk]
    have hp : k.payload = j.payload := hp
    rw [hp]
    exact h.payload

theorem value?_of_markClean {i j : Instance P} (h : i.markClean = j.markClean)
    (a : Accessor P) : i.value? a = j.value? a := by
  have hv (k : Instance P) : k.value? a = k.markClean.value? a := by cases a <;> rfl
  rw [hv i, hv j, h]

end Instance

namespace Book

theorem contains_of_some {b : Book P} {e : Entity} {i : Instance P} (h : b.get? e = some i) :
    b.contains e = true := by
  simp [contains, h]

theorem contains_of_none {b : Book P} {e : Entity} (h : b.get? e = none) :
    b.contains e = false := by
  simp [contains, h]

/-! ### Edits by another name -/

theorem tryEdit_snd (b : Book P) (e : Entity)
    (change : Instance P → Except StoreError (Instance P)) :
    (b.tryEdit e change).2 =
      (b.edit e (attempt fun i => (change i).map fun i => ((), i))).2 := rfl

theorem delete_snd (b : Book P) (e : Entity) :
    (b.delete e).2 = (b.edit e fun i => ((), i.markDeleting)).2 := rfl

/-! ### Closing an edit -/

section Commits

variable {b : Book P} {e : Entity} {i : Instance P}

theorem commitEdit_of_inner (h : b.get? e = some i) (hl : 1 < i.level) :
    b.commitEdit e = (.ok (), b.put e i.leave) := by
  unfold commitEdit
  rw [h]
  dsimp only
  rw [Instance.leave?_eq_some (by omega)]
  dsimp only
  rw [if_pos (by rw [Instance.level_leave]; omega)]

theorem commitEdit_of_deleting (h : b.get? e = some i) (hl : i.level = 1)
    (hd : i.deleting = true) :
    b.commitEdit e = (.ok (), (((b.put e i.leave).remove e).markDirty).emit (.destroyed e)) := by
  unfold commitEdit
  rw [h]
  dsimp only
  rw [Instance.leave?_eq_some (by omega)]
  dsimp only
  rw [if_neg (by rw [Instance.level_leave]; omega), if_pos (show i.leave.deleting = true from hd)]

theorem commitEdit_of_kept (h : b.get? e = some i) (hl : i.level = 1) (hd : i.deleting = false) :
    b.commitEdit e = (b.put e i.leave).settle e i.leave := by
  have hkept : ¬ i.leave.deleting = true := by
    show ¬ i.deleting = true
    simp [hd]
  unfold commitEdit
  rw [h]
  dsimp only
  rw [Instance.leave?_eq_some (by omega)]
  dsimp only
  rw [if_neg (by rw [Instance.level_leave]; omega), if_neg hkept]

/-- The ways in which closing an edit can go. -/
inductive Commits (b : Book P) (e : Entity) : Except StoreError Unit × Book P → Prop where
  | missing (gone : b.get? e = none) : Commits b e (.error (.entityNotFound e), b)
  | idle {i : Instance P} (live : b.get? e = some i) (level : i.level = 0) :
    Commits b e (.error (.notEditing e), b)
  /-- Another edit is still open. -/
  | inner {i : Instance P} (live : b.get? e = some i) (level : 1 < i.level) :
    Commits b e (.ok (), b.put e i.leave)
  | removed {i : Instance P} (live : b.get? e = some i) (level : i.level = 1)
    (deleting : i.deleting = true) :
    Commits b e (.ok (), (((b.put e i.leave).remove e).markDirty).emit (.destroyed e))
  | settled {i : Instance P} (live : b.get? e = some i) (level : i.level = 1)
    (kept : i.deleting = false) : Commits b e ((b.put e i.leave).settle e i.leave)

theorem commits (b : Book P) (e : Entity) : b.Commits e (b.commitEdit e) := by
  cases hi : b.get? e with
  | none =>
    unfold commitEdit
    rw [hi]
    exact .missing hi
  | some i =>
    rcases Nat.lt_trichotomy i.level 1 with hl | hl | hl
    · have hl : i.level = 0 := by omega
      unfold commitEdit
      rw [hi]
      dsimp only
      rw [Instance.leave?_of_idle hl]
      exact .idle hi hl
    · cases hd : i.deleting with
      | true =>
        rw [commitEdit_of_deleting hi hl hd]
        exact .removed hi hl hd
      | false =>
        rw [commitEdit_of_kept hi hl hd]
        exact .settled hi hl hd
    · rw [commitEdit_of_inner hi hl]
      exact .inner hi hl

end Commits

/-! ### What an edit leaves alone -/

/-- Two books differ at most in their instances, in the calls to the backend, in
    their events and in whether something changed. -/
structure Keeps (b b' : Book P) : Prop where
  id : b'.id = b.id
  registry : b'.registry = b.registry
  config : b'.config = b.config
  opened : b'.opened = b.opened
  backend : b'.backend = b.backend
  undo : b'.undo = b.undo
  pending : b'.pending = b.pending

namespace Keeps

theorem refl (b : Book P) : b.Keeps b := ⟨rfl, rfl, rfl, rfl, rfl, rfl, rfl⟩

theorem trans {a b c : Book P} (h : a.Keeps b) (h' : b.Keeps c) : a.Keeps c :=
  ⟨h'.id.trans h.id, h'.registry.trans h.registry, h'.config.trans h.config,
    h'.opened.trans h.opened, h'.backend.trans h.backend, h'.undo.trans h.undo,
    h'.pending.trans h.pending⟩

theorem put (b : Book P) (e : Entity) (i : Instance P) : b.Keeps (b.put e i) :=
  ⟨rfl, rfl, rfl, rfl, rfl, rfl, rfl⟩

theorem beginEdit (b : Book P) (e : Entity) : b.Keeps (b.beginEdit e).2 := by
  unfold Book.beginEdit
  split
  · exact refl b
  · dsimp only
    split
    · exact ⟨rfl, rfl, rfl, rfl, rfl, rfl, rfl⟩
    · exact put b e _

theorem settle (b : Book P) (e : Entity) (i : Instance P) : b.Keeps (b.settle e i).2 := by
  unfold Book.settle
  dsimp only
  cases b.backend.refusal b.calls i <;> cases i.dirty <;> exact ⟨rfl, rfl, rfl, rfl, rfl, rfl, rfl⟩

theorem commitEdit (b : Book P) (e : Entity) : b.Keeps (b.commitEdit e).2 := by
  have hcommits := b.commits e
  generalize b.commitEdit e = out at hcommits ⊢
  cases hcommits with
  | missing | idle => exact refl b
  | inner => exact put b e _
  | removed => exact ⟨rfl, rfl, rfl, rfl, rfl, rfl, rfl⟩
  | settled => exact (put b e _).trans (settle _ e _)

theorem edit {α : Type} (b : Book P) (e : Entity) (change : Instance P → α × Instance P) :
    b.Keeps (b.edit e change).2 := by
  unfold Book.edit
  split
  · exact refl b
  · exact ((beginEdit b e).trans (put _ e _)).trans (commitEdit _ e)

theorem tryEdit (b : Book P) (e : Entity) (change : Instance P → Except StoreError (Instance P)) :
    b.Keeps (b.tryEdit e change).2 := by
  rw [tryEdit_snd]
  exact edit b e _

theorem delete (b : Book P) (e : Entity) : b.Keeps (b.delete e).2 := by
  rw [delete_snd]
  exact edit b e _

end Keeps

/-! ### Looking up after an edit -/

theorem get?_beginEdit_of_ne (b : Book P) {e e' : Entity} (h : e' ≠ e) :
    (b.beginEdit e).2.get? e' = b.get? e' := by
  unfold beginEdit
  split
  · rfl
  · dsimp only
    split
    · exact get?_put_of_ne b h _
    · exact get?_put_of_ne b h _

theorem get?_settle_of_ne (b : Book P) {e e' : Entity} (h : e' ≠ e) (i : Instance P) :
    (b.settle e i).2.get? e' = b.get? e' := by
  unfold settle
  dsimp only
  cases b.backend.refusal b.calls i <;> cases i.dirty <;> first
    | rfl
    | exact get?_put_of_ne b h _

theorem get?_settle_self {b : Book P} {e : Entity} {i : Instance P} (h : b.get? e = some i) :
    ∃ j, (b.settle e i).2.get? e = some j ∧ j.markClean = i.markClean := by
  unfold settle
  dsimp only
  cases b.backend.refusal b.calls i with
  | none => cases i.dirty <;> exact ⟨i.markClean, get?_put_self b e _, rfl⟩
  | some reason => cases i.dirty <;> exact ⟨i, h, rfl⟩

theorem get?_commitEdit_of_ne (b : Book P) {e e' : Entity} (h : e' ≠ e) :
    (b.commitEdit e).2.get? e' = b.get? e' := by
  have hcommits := b.commits e
  generalize b.commitEdit e = out at hcommits ⊢
  cases hcommits with
  | missing | idle => rfl
  | inner => exact get?_put_of_ne b h _
  | removed => exact (get?_remove_of_ne _ h).trans (get?_put_of_ne b h _)
  | settled => exact (get?_settle_of_ne _ h _).trans (get?_put_of_ne b h _)

/-- Closing the last edit of an instance that is to be deleted removes it. -/
theorem get?_commitEdit_removed {b : Book P} {e : Entity} {i : Instance P}
    (h : b.get? e = some i) (hl : i.level = 1) (hd : i.deleting = true) :
    (b.commitEdit e).2.get? e = none := by
  rw [commitEdit_of_deleting h hl hd]
  exact get?_remove_self _ e

/-- Closing any other edit keeps the instance as it is. -/
theorem get?_commitEdit_kept {b : Book P} {e : Entity} {i : Instance P}
    (h : b.get? e = some i) (hl : 0 < i.level) (hd : i.level = 1 → i.deleting = false) :
    ∃ j, (b.commitEdit e).2.get? e = some j ∧ j.markClean = i.leave.markClean := by
  -- An inner edit only counts down; the outermost one settles the instance.
  by_cases hinner : 1 < i.level
  · rw [commitEdit_of_inner h hinner]
    exact ⟨i.leave, get?_put_self b e _, rfl⟩
  · have houter : i.level = 1 := by omega
    rw [commitEdit_of_kept h houter (hd houter)]
    exact get?_settle_self (get?_put_self b e _)

section Edit

variable {α : Type} {b : Book P} {e : Entity} {f : Instance P → α × Instance P}

theorem edit_of_none (h : b.get? e = none) : b.edit e f = (.missing e, b) := by
  simp [edit, h]

theorem result?_edit {i : Instance P} (h : b.get? e = some i) :
    (b.edit e f).1.result? = some (f i.enter).1 := by
  simp [edit, h, EditOutcome.result?]

theorem get?_edit_of_ne {e' : Entity} (h : e' ≠ e) :
    (b.edit e f).2.get? e' = b.get? e' := by
  unfold edit
  split
  · rfl
  · exact (get?_commitEdit_of_ne _ h).trans
      ((get?_put_of_ne _ h _).trans (get?_beginEdit_of_ne b h))

/-- An edit that asks for the deletion of an instance that nobody else edits
    removes it. -/
theorem get?_edit_removed {i : Instance P} (h : b.get? e = some i)
    (hl : (f i.enter).2.level = 1) (hd : (f i.enter).2.deleting = true) :
    (b.edit e f).2.get? e = none := by
  unfold edit
  rw [h]
  exact get?_commitEdit_removed (get?_put_self _ e _) hl hd

/-- An edit that changes values leaves the instance with those values. -/
theorem get?_edit_self {i : Instance P} (h : b.get? e = some i)
    (hc : i.enter.Rewrites (f i.enter).2) (hd : i.deleting = true → 0 < i.level) :
    ∃ j, (b.edit e f).2.get? e = some j ∧
      j.markClean = (f i.enter).2.leave.markClean := by
  unfold edit
  rw [h]
  have hlevel : (f i.enter).2.level = i.level + 1 := hc.level
  have hdeleting : (f i.enter).2.deleting = i.deleting := hc.deleting
  refine get?_commitEdit_kept (get?_put_self _ e _) (by omega) fun hl => ?_
  rw [hdeleting]
  cases hdel : i.deleting with
  | false => rfl
  | true =>
    have := hd hdel
    omega

end Edit

/-! ### Changes that can fail -/

section Attempt

variable {α : Type} {f : Instance P → Except StoreError (α × Instance P)} {i j : Instance P}

theorem attempt_of_ok {a : α} (h : f i = .ok (a, j)) : attempt f i = (.ok a, j) := by
  simp [attempt, h]

theorem attempt_of_error {err : StoreError} (h : f i = .error err) :
    attempt f i = (.error err, i) := by
  simp [attempt, h]

theorem rewrites_attempt (h : ∀ a j, f i = .ok (a, j) → i.Rewrites j) :
    i.Rewrites (attempt f i).2 := by
  cases hc : f i with
  | error err =>
    rw [attempt_of_error hc]
    exact .refl i
  | ok r =>
    obtain ⟨a, j⟩ := r
    rw [attempt_of_ok hc]
    exact h a j hc

end Attempt

section TryEdit

variable {b : Book P} {e : Entity} {f : Instance P → Except StoreError (Instance P)}
  {i j : Instance P}

/-- A change that only gives an instance, as an edit makes it. -/
theorem rewrites_tryChange (h : ∀ j, f i = .ok j → i.Rewrites j) :
    i.Rewrites (attempt (fun i => (f i).map fun i => ((), i)) i).2 := by
  refine rewrites_attempt fun a j hj => ?_
  cases hc : f i with
  | error err => simp [hc, Except.map] at hj
  | ok k =>
    simp only [hc, Except.map, Except.ok.injEq, Prod.mk.injEq] at hj
    exact hj.2 ▸ h k hc

theorem get?_tryEdit_of_ne {e' : Entity} (h : e' ≠ e) :
    (b.tryEdit e f).2.get? e' = b.get? e' := by
  rw [tryEdit_snd]
  exact get?_edit_of_ne h

/-- A change that succeeds is what the instance looks like afterwards. -/
theorem get?_tryEdit_self (h : b.get? e = some i) (hc : f i.enter = .ok j)
    (hr : i.enter.Rewrites j) (hd : i.deleting = true → 0 < i.level) :
    ∃ k, (b.tryEdit e f).2.get? e = some k ∧ k.markClean = j.leave.markClean := by
  rw [tryEdit_snd]
  have ha : attempt (fun i => (f i).map fun i => ((), i)) i.enter = (.ok (), j) :=
    attempt_of_ok (by simp [hc, Except.map])
  obtain ⟨k, hk, heq⟩ := get?_edit_self (b := b) (e := e)
    (f := attempt fun i => (f i).map fun i => ((), i)) h (by rw [ha]; exact hr) hd
  rw [ha] at heq
  exact ⟨k, hk, heq⟩

/-- A change that fails leaves the instance as it was. -/
theorem get?_tryEdit_failed {err : StoreError} (h : b.get? e = some i)
    (hc : f i.enter = .error err) (hd : i.deleting = true → 0 < i.level) :
    ∃ k, (b.tryEdit e f).2.get? e = some k ∧ k.markClean = i.markClean := by
  rw [tryEdit_snd]
  have ha : attempt (fun i => (f i).map fun i => ((), i)) i.enter = (.error err, i.enter) :=
    attempt_of_error (by simp [hc, Except.map])
  obtain ⟨k, hk, heq⟩ := get?_edit_self (b := b) (e := e)
    (f := attempt fun i => (f i).map fun i => ((), i)) h
    (by rw [ha]; exact .refl _) hd
  rw [ha] at heq
  exact ⟨k, hk, heq⟩

/-- The verdict on closing the only edit, when the backend accepts. -/
theorem commitEdit_fst_of_accepted {k : Instance P} (h : b.get? e = some k) (hl : k.level = 1)
    (hd : k.deleting = false) (ha : ∀ calls i, b.backend.refusal calls i = none) :
    (b.commitEdit e).1 = .ok () := by
  have hp : (b.put e k.leave).backend = b.backend := rfl
  rw [commitEdit_of_kept h hl hd]
  unfold settle
  simp only [hp, ha]

/-- A change that succeeds is reported as such if the backend accepts it. -/
theorem tryEdit_fst_of_ok (h : b.get? e = some i) (hc : f i.enter = .ok j)
    (hr : i.enter.Rewrites j) (hl : i.level = 0) (hd : i.deleting = false)
    (ha : ∀ calls i, b.backend.refusal calls i = none) : (b.tryEdit e f).1 = .ok () := by
  have hattempt : attempt (fun i => (f i).map fun i => ((), i)) i.enter = (.ok (), j) :=
    attempt_of_ok (by simp [hc, Except.map])
  have hlevel : j.level = 1 := by
    have hl' : j.level = i.level + 1 := hr.level
    omega
  have hdeleting : j.deleting = false := hr.deleting.trans hd
  have hbegin : (b.beginEdit e).2.backend = b.backend := (Keeps.beginEdit b e).backend
  -- The change has opened no edit of its own, so the commit is the outermost one.
  have hverdict : (((b.beginEdit e).2.put e j).commitEdit e).1 = .ok () := by
    refine commitEdit_fst_of_accepted (get?_put_self _ e j) hlevel hdeleting ?_
    intro calls k
    show (b.beginEdit e).2.backend.refusal calls k = none
    rw [hbegin]
    exact ha calls k
  unfold tryEdit edit
  simp only [h, hattempt, EditOutcome.join, hverdict]

/-- A change that fails is reported as such. -/
theorem tryEdit_fst_of_error {err : StoreError} (h : b.get? e = some i)
    (hc : f i.enter = .error err) : ∃ err', (b.tryEdit e f).1 = .error err' := by
  have hattempt : attempt (fun i => (f i).map fun i => ((), i)) i.enter = (.error err, i.enter) :=
    attempt_of_error (by simp [hc, Except.map])
  unfold tryEdit edit
  simp only [h, hattempt]
  cases ((b.beginEdit e).2.put e i.enter).commitEdit e with
  | mk verdict b' =>
    cases verdict with
    | ok _ => exact ⟨err, rfl⟩
    | error err' => exact ⟨err', rfl⟩

end TryEdit

end Book

end EntityBook
