import EntityBook.Proofs.Copy.Replica
import EntityBook.Proofs.Instance.Same

/-! # What a resolution does

  A pass treats every record by itself: it is linked if both its ends are there,
  it waits on if only its source is, and it is dropped otherwise. So what becomes
  of one instance is a fold over the records that name it, `get?_resolvePending`,
  and what waits on is a filter, `pending_resolvePending`.
-/

namespace EntityBook

variable {P : PayloadFamily}

/-- An instance after a record was linked, if that can be done. -/
def Instance.linkedBy (i : Instance P) (r : ReferenceRecord P) : Instance P :=
  match i.link r.param r.target with
  | .ok j => j
  | .error _ => i

theorem Instance.Same.linkedBy {i j : Instance P} (h : i.Same j) (r : ReferenceRecord P) :
    (i.linkedBy r).Same (j.linkedBy r) := by
  unfold Instance.linkedBy
  cases hi : i.link r.param r.target with
  | ok k =>
    obtain ⟨l, hl, hsame⟩ := h.link hi
    rw [hl]
    exact hsame
  | error err =>
    cases hj : j.link r.param r.target with
    | ok l =>
      obtain ⟨k, hk, _⟩ := h.symm.link hj
      rw [hi] at hk
      cases hk
    | error err' => exact h

theorem Instance.Same.foldl_linkedBy {i j : Instance P} (h : i.Same j)
    (rs : List (ReferenceRecord P)) :
    (rs.foldl Instance.linkedBy i).Same (rs.foldl Instance.linkedBy j) := by
  induction rs generalizing i j with
  | nil => exact h
  | cons r rest ih => exact ih (h.linkedBy r)

namespace Book

/-! ### One pass -/

/-- A record whose target is there is linked. -/
theorem step_of_there {s : Pass P} {r : ReferenceRecord P}
    (hsource : s.book.contains r.source = true) (ht : s.book.contains r.target = true) :
    (s.step r).book = (s.book.link r).2 ∧ (s.step r).waiting = s.waiting := by
  unfold Pass.step
  simp only [hsource, ht, Bool.not_true, Bool.false_eq_true, if_false]
  cases s.book.link r with
  | mk result b' => cases result <;> exact ⟨rfl, rfl⟩

/-- Any other record goes on waiting. -/
theorem step_of_missing {s : Pass P} {r : ReferenceRecord P}
    (hsource : s.book.contains r.source = true) (ht : s.book.contains r.target = false) :
    s.step r = { s with waiting := s.waiting ++ [r] } := by
  unfold Pass.step
  simp only [hsource, ht, Bool.not_true, Bool.not_false, Bool.false_eq_true, if_false, if_true]

/-- A record whose source is gone is dropped. -/
theorem step_of_gone {s : Pass P} {r : ReferenceRecord P}
    (hsource : s.book.contains r.source = false) :
    s.step r = { s with counts := { s.counts with dropped := s.counts.dropped + 1 } } := by
  unfold Pass.step
  simp [hsource]

/-- What waits on after a pass; the records that wait in the book itself are left alone. -/
theorem waiting_pass {b : Book P} (hb : b.WellFormed) (rs : List (ReferenceRecord P)) {s : Pass P}
    (hs : b.Revises s.book) :
    (rs.foldl Pass.step s).book.pending = s.book.pending ∧
    (rs.foldl Pass.step s).waiting =
      s.waiting ++ rs.filter fun r => b.contains r.source && !b.contains r.target := by
  induction rs generalizing s with
  | nil => exact ⟨rfl, by simp⟩
  | cons r rest ih =>
    obtain ⟨hpending, hwaiting⟩ := ih (Revises.pass hb hs r)
    rw [List.foldl_cons, hpending, hwaiting, List.filter_cons, ← hs.contains_eq, ← hs.contains_eq]
    cases hsource : s.book.contains r.source with
    | false =>
      rw [step_of_gone hsource]
      simp
    | true =>
      cases htarget : s.book.contains r.target with
      | false =>
        rw [step_of_missing hsource htarget]
        simp
      | true =>
        obtain ⟨hbook, hkept⟩ := step_of_there hsource htarget
        rw [hbook, hkept]
        exact ⟨(Keeps.tryEdit ..).pending, by simp⟩

/-- An instance sees a record that names it, once the target is there. -/
theorem get?_step {s : Pass P} (hs : s.book.WellFormed) {x : Entity} {i : Instance P}
    (h : s.book.get? x = some i) (r : ReferenceRecord P) :
    ∃ j, (s.step r).book.get? x = some j ∧
      j.Same (if r.source == x && s.book.contains r.target then i.linkedBy r else i) := by
  cases hsource : s.book.contains r.source with
  | false =>
    have hne : ¬ r.source = x := by
      rintro rfl
      rw [contains_of_some h] at hsource
      cases hsource
    rw [step_of_gone hsource]
    exact ⟨i, h, by simp [hne, Instance.Same.refl]⟩
  | true =>
    cases htarget : s.book.contains r.target with
    | false =>
      rw [step_of_missing hsource htarget]
      exact ⟨i, h, by simp [Instance.Same.refl]⟩
    | true =>
      rw [(step_of_there hsource htarget).1]
      by_cases hx : r.source = x
      · subst hx
        simp only [BEq.rfl, Bool.and_self, if_true]
        have hdeleting := (hs.fits _ _ h).deleting
        -- The edit writes to the instance that it has entered, which holds the same.
        have hsame := (Instance.Same.enter i).linkedBy r
        unfold Instance.linkedBy at hsame ⊢
        cases hlink : i.enter.link r.param r.target with
        | ok j =>
          obtain ⟨k, hk, hclean⟩ := get?_tryEdit_self (f := fun i => i.link r.param r.target) h
            hlink (Instance.rewrites_link hlink) hdeleting
          rw [hlink] at hsame
          exact ⟨k, hk, ((Instance.Same.of_markClean hclean).trans
            (Instance.Same.leave j).symm).trans hsame.symm⟩
        | error err =>
          obtain ⟨k, hk, hclean⟩ := get?_tryEdit_failed (f := fun i => i.link r.param r.target) h
            hlink hdeleting
          rw [hlink] at hsame
          exact ⟨k, hk, ((Instance.Same.of_markClean hclean).trans
            (Instance.Same.enter i)).trans hsame.symm⟩
      · refine ⟨i, (get?_tryEdit_of_ne (Ne.symm hx)).trans h, ?_⟩
        simp [hx, Instance.Same.refl]

/-- Of the records of a pass an instance sees those that name it and whose target is
    there. -/
theorem get?_pass {b : Book P} (hb : b.WellFormed) (rs : List (ReferenceRecord P)) {s : Pass P}
    (hs : b.Revises s.book) {x : Entity} {i : Instance P} (h : s.book.get? x = some i) :
    ∃ j, (rs.foldl Pass.step s).book.get? x = some j ∧
      j.Same ((rs.filter fun r => r.source == x && b.contains r.target).foldl
        Instance.linkedBy i) := by
  induction rs generalizing s i with
  | nil => exact ⟨i, h, .refl i⟩
  | cons r rest ih =>
    obtain ⟨k, hk, hsame⟩ := get?_step (hs.wellFormed hb) h r
    obtain ⟨j, hj, hlast⟩ := ih (Revises.pass hb hs r) hk
    refine ⟨j, hj, hlast.trans ?_⟩
    rw [hs.contains_eq] at hsame
    rw [List.filter_cons]
    split
    · next hsees =>
      rw [if_pos hsees] at hsame
      exact hsame.foldl_linkedBy _
    · next hblind =>
      rw [if_neg hblind] at hsame
      exact hsame.foldl_linkedBy _

/-! ### What a resolution leaves -/

section Resolution

variable {b : Book P}

/-- What becomes of an instance. -/
theorem get?_resolvePending (hb : b.WellFormed) {x : Entity} {i : Instance P}
    (h : b.get? x = some i) :
    ∃ j, b.resolvePending.2.get? x = some j ∧
      j.Same ((b.pending.filter fun r => r.source == x && b.contains r.target).foldl
        Instance.linkedBy i) :=
  get?_pass hb b.pending (s := { book := b.takePending.2 }) (.takePending b) h

/-- What waits on are the records whose source is there and whose target is not. -/
theorem waiting_resolvePending (hb : b.WellFormed) :
    (b.pending.foldl Pass.step { book := b.takePending.2 }).waiting =
      b.pending.filter fun r => b.contains r.source && !b.contains r.target := by
  simpa using (waiting_pass hb b.pending (s := { book := b.takePending.2 }) (.takePending b)).2

theorem pending_resolvePending (hb : b.WellFormed) :
    b.resolvePending.2.pending =
      (b.pending.filter fun r => b.contains r.source && !b.contains r.target).foldl
        addRecord [] := by
  have hnone := (waiting_pass hb b.pending (s := { book := b.takePending.2 }) (.takePending b)).1
  show (b.pending.foldl Pass.step { book := b.takePending.2 }).waiting.foldl addRecord
    (b.pending.foldl Pass.step { book := b.takePending.2 }).book.pending = _
  rw [waiting_resolvePending hb, hnone]
  rfl

theorem mem_link_resolvePending (hb : b.WellFormed) {l : Entity × String × Entity} :
    l ∈ b.resolvePending.2.pending.map ReferenceRecord.link ↔
      l ∈ b.pending.map ReferenceRecord.link ∧ b.contains l.1 = true ∧
        b.contains l.2.2 = false := by
  rw [pending_resolvePending hb, mem_link_foldl_addRecord]
  constructor
  · rintro (hl | hl)
    · cases hl
    · obtain ⟨r, hr, rfl⟩ := List.mem_map.mp hl
      obtain ⟨hr, hends⟩ := List.mem_filter.mp hr
      have hends : b.contains r.source = true ∧ b.contains r.target = false := by
        simpa using hends
      exact ⟨List.mem_map_of_mem hr, hends⟩
  · rintro ⟨hl, hsource, htarget⟩
    obtain ⟨r, hr, rfl⟩ := List.mem_map.mp hl
    have hsource : b.contains r.source = true := hsource
    have htarget : b.contains r.target = false := htarget
    exact Or.inr (List.mem_map_of_mem (List.mem_filter.mpr ⟨hr, by simp [hsource, htarget]⟩))

end Resolution

/-! ### Resolved books -/

/-- No two of the references stand for the same link. -/
def Distinct (rs : List (ReferenceRecord P)) : Prop := (rs.map ReferenceRecord.link).Nodup

theorem Distinct.addRecord {rs : List (ReferenceRecord P)} (h : Distinct rs)
    (r : ReferenceRecord P) : Distinct (addRecord rs r) := by
  unfold Book.addRecord
  split
  · exact h
  · next hn =>
    unfold Distinct
    rw [List.map_append, List.map_singleton]
    refine List.nodup_append.mpr ⟨h, List.nodup_singleton _, fun a ha b hb hab => hn ?_⟩
    obtain ⟨s, hs, rfl⟩ := List.mem_map.mp ha
    rw [List.mem_singleton] at hb
    exact List.any_eq_true.mpr ⟨s, hs, sameLink_iff.mpr (hab.trans hb)⟩

theorem Distinct.foldl_addRecord {ws : List (ReferenceRecord P)} (h : Distinct ws)
    (rs : List (ReferenceRecord P)) : Distinct (rs.foldl Book.addRecord ws) := by
  induction rs generalizing ws with
  | nil => exact h
  | cons r rest ih => exact ih (h.addRecord r)

/-- References of which no two stand for the same link are all kept, in order. -/
theorem foldl_addRecord_eq (ws rs : List (ReferenceRecord P)) (h : Distinct (ws ++ rs)) :
    rs.foldl addRecord ws = ws ++ rs := by
  induction rs generalizing ws with
  | nil => simp
  | cons r rest ih =>
    have hnew : (ws.any fun s => sameLink s r) = false := by
      rw [List.any_eq_false]
      intro s hs hsame
      have hmap := h
      unfold Distinct at hmap
      rw [List.map_append] at hmap
      exact (List.nodup_append.mp hmap).2.2 _ (List.mem_map_of_mem hs) _
        (List.mem_map_of_mem List.mem_cons_self) (sameLink_iff.mp hsame)
    have hadd : addRecord ws r = ws ++ [r] := by
      unfold addRecord
      rw [hnew]
      rfl
    rw [List.foldl_cons, hadd, ih _ (by rwa [List.append_assoc]), List.append_assoc]
    rfl

/-- Every waiting reference waits for good reason: its source is there and its
    target is not. -/
structure Resolved (b : Book P) : Prop where
  distinct : Distinct b.pending
  source : ∀ r ∈ b.pending, b.contains r.source = true
  target : ∀ r ∈ b.pending, b.contains r.target = false

theorem Resolved.of_eq {b b' : Book P} (h : b.Resolved) (hi : b'.instances = b.instances)
    (hp : b'.pending = b.pending) : b'.Resolved := by
  have hc (e : Entity) : b'.contains e = b.contains e := by
    unfold contains get?
    rw [hi]
  refine ⟨hp ▸ h.distinct, ?_, ?_⟩
  · intro r hr
    rw [hc]
    exact h.source r (hp ▸ hr)
  · intro r hr
    rw [hc]
    exact h.target r (hp ▸ hr)

/-- Resolving again links nothing, drops nothing and changes nothing. -/
theorem Resolved.resolvePending {b : Book P} (h : b.Resolved) :
    b.resolvePending = (⟨0, b.pending.length, 0⟩, b) := by
  have hpass (rs ws : List (ReferenceRecord P)) (hrs : ∀ r ∈ rs, r ∈ b.pending) :
      rs.foldl Pass.step ⟨b.takePending.2, ws, {}⟩ = ⟨b.takePending.2, ws ++ rs, {}⟩ := by
    induction rs generalizing ws with
    | nil => simp
    | cons r rest ih =>
      have hr := hrs r List.mem_cons_self
      have hstep : Pass.step ⟨b.takePending.2, ws, {}⟩ r = ⟨b.takePending.2, ws ++ [r], {}⟩ :=
        step_of_missing (h.source r hr) (h.target r hr)
      rw [List.foldl_cons, hstep, ih _ fun s hs => hrs s (List.mem_cons_of_mem r hs),
        List.append_assoc]
      rfl
  have hpassed : b.pending.foldl Pass.step { book := b.takePending.2 } =
      ⟨b.takePending.2, b.pending, {}⟩ := by
    have hall := hpass b.pending [] fun r hr => hr
    rwa [List.nil_append] at hall
  have hback : b.takePending.2.pushPending b.pending = b := by
    unfold pushPending
    rw [foldl_addRecord_eq b.takePending.2.pending b.pending h.distinct]
    rfl
  unfold Book.resolvePending
  show ({ (b.pending.foldl Pass.step { book := b.takePending.2 }).counts with
    remaining := (b.pending.foldl Pass.step { book := b.takePending.2 }).waiting.length },
    (b.pending.foldl Pass.step { book := b.takePending.2 }).book.pushPending
      (b.pending.foldl Pass.step { book := b.takePending.2 }).waiting) = _
  rw [hpassed]
  exact Prod.ext rfl hback

/-- A resolution leaves a resolved book. -/
theorem resolved_resolvePending {b : Book P} (hb : b.WellFormed) (hd : Distinct b.pending) :
    b.resolvePending.2.Resolved ∧
      b.resolvePending.1.remaining = b.resolvePending.2.pending.length := by
  have hdistinct : Distinct
      (b.pending.filter fun r => b.contains r.source && !b.contains r.target) :=
    List.Nodup.sublist (List.filter_sublist.map _) hd
  have hpending : b.resolvePending.2.pending =
      b.pending.filter fun r => b.contains r.source && !b.contains r.target := by
    rw [pending_resolvePending hb, foldl_addRecord_eq [] _ hdistinct, List.nil_append]
  have hends {r : ReferenceRecord P} (hr : r ∈ b.resolvePending.2.pending) :
      b.contains r.source = true ∧ b.contains r.target = false := by
    rw [hpending] at hr
    simpa using (List.mem_filter.mp hr).2
  have hrev := Revises.resolvePending hb
  refine ⟨⟨hpending ▸ hdistinct, ?_, ?_⟩, ?_⟩
  · intro r hr
    rw [hrev.contains_eq]
    exact (hends hr).1
  · intro r hr
    rw [hrev.contains_eq]
    exact (hends hr).2
  · rw [hpending, ← waiting_resolvePending hb]
    rfl

end Book

end EntityBook
