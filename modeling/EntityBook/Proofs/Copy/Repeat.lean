import EntityBook.Proofs.Copy.Order
import EntityBook.Proofs.Run.Invariant

/-! # A repeated copy changes nothing

  The second of two equal calls finds all that it could copy in the destination,
  and finds no reference to link: the first call has left only references whose
  targets are missing. So it leaves the very same book, and its report says so.

  `Echoes` is the property of a part of a call that carries this: done again on
  what the whole call has left, it changes no book and reports what it reported,
  with everything skipped that is there. Parts that echo may be put together.
-/

namespace EntityBook

variable {P : PayloadFamily}

/-! ### Reports of repeated calls -/

/-- Whether an entity was copied although the backend refused a commit. -/
def CopyError.isRejected : CopyError → Bool
  | rejected _ _ => true
  | _ => false

/-- What a copy of an entity comes to when it is repeated. -/
def again (e : Entity) : Except CopyError Entity → Except CopyError Entity
  | .ok _ | .error (.alreadyPresent _) | .error (.rejected _ _) => .error (.alreadyPresent e)
  | .error err => .error err

/-- A second report after a first one: nothing is copied or linked, what is there by
    now is skipped, and what failed and is not there fails for the same reason. -/
structure Report.Repeats (first second : Report) : Prop where
  copied : second.copied = []
  skipped : second.skipped.Perm (first.copied ++ first.skipped ++
    (first.failed.filter fun f => f.2.isRejected).map (·.1))
  failed : second.failed = first.failed.filter fun f => !f.2.isRejected
  linked : second.linked = 0
  unresolved : second.unresolved = first.unresolved

namespace Report.Repeats

variable {first second : Report}

theorem start (m n : Nat) : Repeats { duplicates := m } { duplicates := n } :=
  ⟨rfl, .nil, rfl, rfl, rfl⟩

/-- An entity that only the first call could copy, in whatever way. -/
theorem skip_of_perm {first' : Report} (h : Repeats first second) (e : Entity)
    (hs : (e :: (first.copied ++ first.skipped ++
      (first.failed.filter fun f => f.2.isRejected).map (·.1))).Perm
        (first'.copied ++ first'.skipped ++
          (first'.failed.filter fun f => f.2.isRejected).map (·.1)))
    (hf : (first'.failed.filter fun f => !f.2.isRejected) =
      first.failed.filter fun f => !f.2.isRejected)
    (hu : first'.unresolved = first.unresolved) : Repeats first' (second.skip e) where
  copied := h.copied
  skipped := ((List.perm_append_singleton e second.skipped).trans (h.skipped.cons e)).trans hs
  failed := h.failed.trans hf.symm
  linked := h.linked
  unresolved := h.unresolved.trans hu.symm

theorem skip (h : Repeats first second) (e : Entity) : Repeats (first.skip e) (second.skip e) := by
  refine h.skip_of_perm e ?_ rfl rfl
  unfold Report.skip
  dsimp only
  rw [← List.append_assoc, List.append_assoc _ [e]]
  exact (List.perm_middle (a := e)).symm

theorem record (h : Repeats first second) (e : Entity) (r : Except CopyError Entity) :
    Repeats (first.record e r) (second.record e (again e r)) := by
  have hfail (err : CopyError) (hn : err.isRejected = false) :
      Repeats { first with failed := first.failed ++ [(e, err)] }
        { second with failed := second.failed ++ [(e, err)] } := by
    refine ⟨h.copied, ?_, ?_, h.linked, h.unresolved⟩
    · simpa [List.filter_append, hn] using h.skipped
    · simp [List.filter_append, hn, h.failed]
  cases r with
  | ok x =>
    refine h.skip_of_perm e ?_ rfl rfl
    unfold Report.record
    dsimp only
    rw [List.append_assoc, List.append_assoc, List.append_assoc]
    exact (List.perm_middle (a := e)).symm
  | error err =>
    cases err with
    | alreadyPresent x => exact h.skip e
    | rejected x cause =>
      refine h.skip_of_perm e ?_ (by simp [Report.record, CopyError.isRejected]) rfl
      unfold Report.record
      dsimp only
      rw [List.filter_append, List.map_append, ← List.append_assoc]
      exact (List.perm_append_singleton e _).symm
    | notCompliant tag reason => exact hfail _ rfl
    | construct x cause => exact hfail _ rfl
    | missing x => exact hfail _ rfl
    | store cause => exact hfail _ rfl

end Report.Repeats

namespace Book

/-! ### References that wait in a run -/

theorem Step.distinct {b b' : Book P} (hs : Step b b') (h : Distinct b.pending) :
    Distinct b'.pending := by
  cases hs with
  | create tag guid =>
    rcases create_cases b tag guid with heq | ⟨i, _, heq⟩
    · rw [heq]
      exact h
    · rw [heq]
      exact h
  | beginEdit e =>
    rw [(Keeps.beginEdit b e).pending]
    exact h
  | commitEdit e =>
    rw [(Keeps.commitEdit b e).pending]
    exact h
  | pushPending rs => exact h.foldl_addRecord rs
  | takePending => exact List.nodup_nil
  | touch | markDeleting | suspend | resume | subscribe | unsubscribe | setBackend | markClean |
      register | log => exact h

theorem Steps.distinct {b b' : Book P} (h : Steps b b') (hb : Distinct b.pending) :
    Distinct b'.pending := h.preserves (fun _ _ hb hs => hs.distinct hb) hb

theorem Reachable.distinct {b : Book P} (h : b.Reachable) : Distinct b.pending :=
  h.induct (fun _ _ _ _ => List.nodup_nil) fun _ _ hb hs => hs.distinct hb

/-! ### What copies add -/

/-- A destination before and after copies: it may have gained entities that can be
    made in it and that are held where the copies come from. -/
structure Grows (held : Entity → Prop) (b b' : Book P) : Prop where
  registry : b'.registry = b.registry
  kept : ∀ e, b.contains e = true → b'.contains e = true
  gained : ∀ e, b'.contains e = true →
    b.contains e = true ∨ (held e ∧ e.guid.isNull = false ∧ b.Accepts e.typeTag)

namespace Grows

variable {held : Entity → Prop} {b b' b'' : Book P}

theorem of_contains (hr : b'.registry = b.registry) (hc : ∀ e, b'.contains e = b.contains e) :
    Grows held b b' :=
  ⟨hr, fun e he => (hc e).trans he, fun e he => Or.inl ((hc e).symm.trans he)⟩

theorem refl (b : Book P) : Grows held b b := .of_contains rfl fun _ => rfl

theorem of_revises (h : b.Revises b') : Grows held b b' := .of_contains h.registry h.contains_eq

theorem trans (h : Grows held b b') (h' : Grows held b' b'') : Grows held b b'' where
  registry := h'.registry.trans h.registry
  kept e he := h'.kept e (h.kept e he)
  gained e he := by
    rcases h'.gained e he with he | ⟨hheld, hg, hacc⟩
    · exact h.gained e he
    · right
      unfold Accepts at hacc ⊢
      rw [h.registry] at hacc
      exact ⟨hheld, hg, hacc⟩

/-- An entity that was not there, and could not be copied, is not there. -/
theorem contains_eq_false (h : Grows held b b') {e : Entity} (he : b.contains e = false)
    (hn : ¬ (held e ∧ e.guid.isNull = false ∧ b.Accepts e.typeTag)) : b'.contains e = false := by
  by_contra hc
  rcases h.gained e (by simpa using hc) with hc | hc
  · exact absurd (he.symm.trans hc) (by simp)
  · exact hn hc

end Grows

section CopyOne

variable {held : Entity → Prop} {b d : Book P} {i : Instance P}

theorem grows_copyOne (hb : b.WellFormed) (hi : held i.entity) :
    Grows held b (b.copyOne i).2 := by
  rcases copyOne_cases b i with ⟨hsame, _⟩ | ⟨_, hg, _⟩
  · rw [hsame]
    exact .refl b
  · obtain ⟨_, hr, hc⟩ := @copyOne_spec P b i hb hg
    refine ⟨hr, fun e he => (hc e).mpr (Or.inl he), fun e he => ?_⟩
    rcases (hc e).mp he with he | ⟨rfl, hacc⟩
    · exact Or.inl he
    · exact Or.inr ⟨hi, hg, hacc⟩

/-- A copy that is repeated in what copies have left changes nothing. -/
theorem copyOne_again (hb : b.WellFormed) (hg : Grows held (b.copyOne i).2 d) :
    d.copyOne i = (again i.entity (b.copyOne i).1, d) := by
  by_cases hc : b.contains i.entity = true
  · rw [copyOne_of_contains hc] at hg ⊢
    exact copyOne_of_contains (hg.kept _ hc)
  · have hc : b.contains i.entity = false := by simpa using hc
    by_cases ha : b.Accepts i.entity.typeTag
    · cases hnull : i.entity.guid.isNull with
      | true =>
        rw [copyOne_of_null hc hnull ha] at hg ⊢
        have hd := hg.contains_eq_false hc fun hn => by simp [hnull] at hn
        refine copyOne_of_null hd hnull ?_
        unfold Accepts
        rw [hg.registry]
        exact ha
      | false =>
        -- It was made, whatever the backend said.
        have hmade := ((@copyOne_spec P b i hb hnull).2.2 i.entity).mpr (Or.inr ⟨rfl, ha⟩)
        rw [copyOne_of_contains (hg.kept _ hmade)]
        obtain ⟨c, hfind, hcomp⟩ := ha
        obtain ⟨payload, hp⟩ := exists_initialPayload hcomp
        rw [copyOne_of_accepts hc hnull hfind hcomp hp]
        cases (b.transfer i c payload).refusal <;> rfl
    · obtain ⟨reason, _, hr⟩ := compliantClass_of_not_accepts ha
      have hfail : b.copyOne i = (.error (.notCompliant i.entity.typeTag reason), b) := by
        unfold copyOne
        rw [if_neg (by simp [hc]), hr]
      rw [hfail] at hg ⊢
      have hd := hg.contains_eq_false hc fun hn => ha hn.2.2
      have hrd : d.compliantClass i.entity.typeTag =
          .error (.notCompliant i.entity.typeTag reason) := by
        unfold compliantClass
        rw [hg.registry]
        exact hr
      unfold copyOne
      rw [if_neg (by simp [hd]), hrd]
      rfl

end CopyOne

/-! ### Parts of calls -/

/-- A part of a call that changes nothing when it is done again on what the call has
    left. -/
structure Echoes (held : Entity → Prop) (part : Batch P → Batch P) : Prop where
  steps : ∀ s, Steps s.book (part s).book
  grows : ∀ s, s.book.WellFormed → Grows held s.book (part s).book
  again : ∀ s t, s.book.WellFormed → Grows held (part s).book t.book →
    s.report.Repeats t.report →
      (part t).book = t.book ∧ (part s).report.Repeats (part t).report

/-- Nothing is gained between the copies of a call and the start of the next one. -/
theorem grows_finish {held : Entity → Prop} (s : Batch P) (hs : s.book.WellFormed) :
    Grows held s.book s.finish.2.suspend :=
  ((Grows.of_revises (.resolvePending hs)).trans (.of_revises (.resume _))).trans
    (.of_revises (.suspend _))

namespace Echoes

variable {held : Entity → Prop}

theorem id : Echoes held (fun s : Batch P => s) where
  steps _ := .refl
  grows _ _ := .refl _
  again _ _ _ _ hr := ⟨rfl, hr⟩

/-- Parts may be done one after the other. -/
theorem comp {f g : Batch P → Batch P} (hf : Echoes held f) (hg : Echoes held g) :
    Echoes held (fun s => g (f s)) where
  steps s := (hf.steps s).trans (hg.steps (f s))
  grows s hs := (hf.grows s hs).trans (hg.grows _ ((hf.steps s).wellFormed hs))
  again s t hs ht hr := by
    have hmid := (hf.steps s).wellFormed hs
    obtain ⟨hbook, hreport⟩ := hf.again s t hs ((hg.grows _ hmid).trans ht) hr
    obtain ⟨hbook', hreport'⟩ := hg.again (f s) (f t) hmid (hbook ▸ ht) hreport
    exact ⟨hbook'.trans hbook, hreport'⟩

theorem foldl {ι : Type} {f : Batch P → ι → Batch P} (xs : List ι)
    (h : ∀ x ∈ xs, Echoes held fun s => f s x) : Echoes held fun s => xs.foldl f s := by
  induction xs with
  | nil => exact id
  | cons x rest ih =>
    exact (h x List.mem_cons_self).comp (ih fun y hy => h y (List.mem_cons_of_mem x hy))

theorem copy {i : Instance P} (hi : held i.entity) : Echoes held fun s => s.copy i where
  steps s := (Acts.copy s i).steps
  grows s hs := grows_copyOne hs hi
  again s t hs ht hr := by
    have hsecond := copyOne_again hs ht
    unfold Batch.copy
    rw [hsecond]
    exact ⟨rfl, hr.record i.entity _⟩

/-- Following a reference: what the source does not hold is not gained either. -/
theorem follow {source : Book P} (hsource : source.WellFormed) (e : Entity) :
    Echoes (fun x => source.contains x = true) fun s => s.follow source e := by
  cases hi : source.get? e with
  | none =>
    have hnot : ¬ source.contains e = true := by simp [contains, hi]
    have hfollow (s : Batch P) : s.follow source e =
        if s.book.contains e then { s with report := s.report.skip e } else s := by
      unfold Batch.follow
      rw [hi]
    have hbook (s : Batch P) : (s.follow source e).book = s.book := by
      rw [hfollow]
      split <;> rfl
    refine ⟨fun s => (Acts.follow source s e).steps, fun s _ => ?_, fun s t _ ht hr => ?_⟩
    · rw [hbook]
      exact .refl _
    · rw [hbook] at ht
      rw [hbook, hfollow, hfollow]
      refine ⟨rfl, ?_⟩
      by_cases hc : s.book.contains e = true
      · rw [if_pos hc, if_pos (ht.kept e hc)]
        exact hr.skip e
      · have hd := ht.contains_eq_false (by simpa using hc) fun hn => hnot hn.1
        rw [if_neg hc, if_neg (by simp [hd])]
        exact hr
  | some i =>
    -- Following a reference to an entity that the source holds is copying it.
    have he : i.entity = e := (hsource.fits e i hi).entity
    have hfollow : (fun s : Batch P => s.follow source e) = fun s => s.copy i := by
      funext s
      unfold Batch.follow
      rw [hi]
      split
      · next hc =>
        rw [← he] at hc ⊢
        unfold Batch.copy
        rw [copyOne_of_contains hc]
        rfl
      · rfl
    rw [hfollow]
    exact copy (by rw [he]; simp [contains, hi])

theorem walk {source : Book P} (hsource : source.WellFormed) (hops : Nat)
    (seen frontier : List Entity) :
    Echoes (fun x => source.contains x = true) fun s => s.walk source hops seen frontier := by
  induction hops generalizing seen frontier with
  | zero => exact id
  | succ hops ih => exact (foldl _ fun e _ => follow hsource e).comp (ih _ _)

/-- An entity that the source does not hold is reported every time. -/
theorem miss (e : Entity) :
    Echoes held fun s : Batch P =>
      { s with report := s.report.record e (.error (.missing e)) } where
  steps _ := .refl
  grows _ _ := .refl _
  again _ _ _ _ hr := ⟨rfl, hr.record e (.error (.missing e))⟩

/-- A call that finds the source's entity, or reports that it is missing. -/
theorem root {source : Book P} (hsource : source.WellFormed) (e : Entity) :
    Echoes (fun x => source.contains x = true) fun s => match source.get? e with
      | some i => s.copy i
      | none => { s with report := s.report.record e (.error (.missing e)) } := by
  cases hi : source.get? e with
  | none => exact miss e
  | some i =>
    refine copy ?_
    rw [(hsource.fits e i hi).entity]
    exact contains_of_some hi

/-- A call whose parts echo, done twice. -/
theorem repeated {part : Batch P → Batch P} (h : Echoes held part) {dest : Book P}
    (hd : dest.Reachable) {first second : Report} (hr : first.Repeats second) :
    let once := (part { book := dest.suspend, report := first }).finish
    let twice := (part { book := once.2.suspend, report := second }).finish
    twice.2 = once.2 ∧ once.1.Repeats twice.1 := by
  intro once twice
  let s := part { book := dest.suspend, report := first }
  have hstart : Steps dest dest.suspend := .single (.suspend dest)
  have hcopied : Steps dest s.book :=
    hstart.trans (h.steps { book := dest.suspend, report := first })
  have hwell := hcopied.wellFormed hd.wellFormed
  have hdistinct : Distinct s.book.pending := hcopied.distinct hd.distinct
  have hfinished : Steps dest once.2 :=
    (hcopied.trans (Acts.resolvePending s.book).steps).tail (.resume _)
  have horder : once.2.bus.Orderly := hfinished.orderly hd.orderly
  -- The first call leaves a resolved book, and so does holding back its events.
  obtain ⟨hresolved, hremaining⟩ := resolved_resolvePending hwell hdistinct
  have hagain : once.2.suspend.Resolved := hresolved.of_eq rfl rfl
  have hgrows : Grows held s.book once.2.suspend := grows_finish s hwell
  obtain ⟨hbook, hreport⟩ := h.again { book := dest.suspend, report := first }
    { book := once.2.suspend, report := second } (hstart.wellFormed hd.wellFormed) hgrows hr
  have htwice : twice = ({ (part { book := once.2.suspend, report := second }).report with
      linked := 0, unresolved := once.2.suspend.pending.length }, once.2.suspend.resume) := by
    show Batch.finish _ = _
    unfold Batch.finish
    rw [hbook, hagain.resolvePending]
  have hresume : once.2.suspend.resume = once.2 := by
    show { once.2 with bus := once.2.bus.suspend.resume } = once.2
    rw [horder.resume_suspend]
  rw [htwice]
  refine ⟨hresume, hreport.copied, hreport.skipped, hreport.failed, rfl, ?_⟩
  exact hremaining.symm

end Echoes

/-! ### Whole calls -/

/-- The book that a call leaves is the book that the same call leaves when it is
    done again at once, and the second report repeats the first. -/
def RepeatsTo (call : Book P → Report × Book P) (dest : Book P) : Prop :=
  (call (call dest).2).2 = (call dest).2 ∧ (call dest).1.Repeats (call (call dest).2).1

variable {dest : Book P}

/-- Copies of instances from anywhere. -/
theorem Echoes.copies (sources : List (Instance P)) :
    Echoes (fun _ => True) fun s => sources.foldl Batch.copy s :=
  .foldl sources fun _ _ => .copy trivial

theorem repeatsTo_copyList (hd : dest.Reachable) (sources : List (Instance P)) :
    RepeatsTo (fun b => b.copyList sources) dest :=
  (Echoes.copies sources).repeated hd (.start 0 0)

theorem repeatsTo_copyCollection (hd : dest.Reachable) (sources : List (Instance P)) :
    RepeatsTo (fun b => b.copyCollection sources) dest :=
  (Echoes.copies sources).repeated hd (.start _ _)

theorem repeatsTo_copyRecursive (hd : dest.Reachable) {source : Book P}
    (hsource : source.WellFormed) (e : Entity) :
    RepeatsTo (fun b => b.copyRecursive source e) dest :=
  ((Echoes.root hsource e).comp (.walk hsource maxHops [e] [e])).repeated hd (.start 0 0)

theorem repeatsTo_copyCollectionRecursive (hd : dest.Reachable) {source : Book P}
    (hsource : source.WellFormed) (tag : TypeTag) :
    RepeatsTo (fun b => b.copyCollectionRecursive source tag) dest := by
  unfold RepeatsTo copyCollectionRecursive
  cases hc : source.collection? tag with
  | none => exact ⟨rfl, .start 0 0⟩
  | some sources =>
    have hcopies : Echoes (fun x => source.contains x = true) fun s => sources.foldl Batch.copy s :=
      .foldl sources fun i hi => .copy (contains_of_some ((mem_collection? hsource hc).mp hi).1)
    exact (hcopies.comp (.walk hsource maxHops (sources.map Instance.entity)
      (sources.map Instance.entity))).repeated hd (.start _ _)

/-- A single copy: the second one finds the entity, or fails like the first. -/
theorem copyEntity_again (hd : dest.Reachable) (i : Instance P) :
    (dest.copyEntity i).2.copyEntity i =
      (again i.entity (dest.copyEntity i).1, (dest.copyEntity i).2) := by
  have hwell : dest.suspend.WellFormed := (Revises.suspend dest).wellFormed hd.wellFormed
  have hbook := ((Echoes.copies [i]).repeated hd (.start 0 0)).1
  have hgrows : Grows (fun _ => True) (dest.suspend.copyOne i).2 (dest.copyEntity i).2.suspend :=
    grows_finish (Batch.copy { book := dest.suspend } i)
      ((Acts.copyOne dest.suspend i).steps.wellFormed hwell)
  refine Prod.ext ?_ hbook
  show ((dest.copyEntity i).2.suspend.copyOne i).1 = _
  rw [copyOne_again hwell hgrows]
  rfl

/-- Whatever the backend answers, a call that copies leaves a book in which the same
    call, done again at once, changes nothing at all. -/
theorem repeated_copies_change_nothing (hd : dest.Reachable) :
    (∀ i, (dest.copyEntity i).2.copyEntity i =
      (again i.entity (dest.copyEntity i).1, (dest.copyEntity i).2)) ∧
    (∀ sources, RepeatsTo (fun b => b.copyList sources) dest) ∧
    (∀ sources, RepeatsTo (fun b => b.copyCollection sources) dest) ∧
    (∀ source : Book P, source.WellFormed →
      (∀ e, RepeatsTo (fun b => b.copyRecursive source e) dest) ∧
      ∀ tag, RepeatsTo (fun b => b.copyCollectionRecursive source tag) dest) :=
  ⟨copyEntity_again hd, repeatsTo_copyList hd, repeatsTo_copyCollection hd,
    fun _ hsource =>
      ⟨repeatsTo_copyRecursive hd hsource, repeatsTo_copyCollectionRecursive hd hsource⟩⟩

/-- Two hops along a ring of four nodes leave a reference waiting; to go them again
    changes nothing. -/
theorem ring_copied_twice :
    ((Bag.emptyBook 2).copyRecursive Bag.ring (Bag.node 1)).1.copied =
      [Bag.node 1, Bag.node 2, Bag.node 3] ∧
    ((Bag.emptyBook 2).copyRecursive Bag.ring (Bag.node 1)).1.unresolved = 1 ∧
    RepeatsTo (fun b => b.copyRecursive Bag.ring (Bag.node 1)) (Bag.emptyBook 2) := by
  have hreach : (Bag.emptyBook 2).Reachable := .blank _ {} Bag.wellFormed_nodes
  obtain ⟨_, _, _, hrecursive⟩ := repeated_copies_change_nothing hreach
  exact ⟨by decide +kernel, by decide +kernel, (hrecursive Bag.ring Bag.wellFormed_ring).1 _⟩

end Book

end EntityBook
