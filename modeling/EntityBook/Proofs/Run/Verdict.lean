import EntityBook.Proofs.Copy.Resolution
import EntityBook.Proofs.Payload.Bag
import EntityBook.Proofs.Run.Call

/-! # What a backend cannot change

  A backend may refuse any commit, and what it refuses stays marked. The mark is all
  that it decides of the contents: two books that differ in their backends only are
  run side by side here, and after every call they hold the same instances, up to the
  marks, and the same references wait in the same order. `SameContents` is the relation
  between the two runs; every operation is shown to preserve it, whatever the verdicts.

  Recording is left out, because `modify` stops at a refusal and then records nothing.
-/

namespace EntityBook

variable {P : PayloadFamily}

namespace Instance

/-! ### Marks -/

/-- The instance with another mark. -/
def marked (i : Instance P) (dirty : Bool) : Instance P := { i with dirty }

theorem exists_marked {i j : Instance P} (h : j.markClean = i.markClean) :
    ∃ d, j = i.marked d := by
  refine ⟨j.dirty, ?_⟩
  have hj : j = j.markClean.marked j.dirty := rfl
  rw [hj, h]
  rfl

theorem leave?_marked (i : Instance P) (d : Bool) :
    (i.marked d).leave? = i.leave?.map fun j => j.marked d := by
  obtain ⟨_, _, _, level, _, _, _⟩ := i
  cases level <;> rfl

/-- A change that answers and writes the same whether its instance is marked or not. -/
def IgnoresMark {α : Type} (change : Instance P → α × Instance P) : Prop :=
  ∀ i d, (change (i.marked d)).1 = (change i).1 ∧
    (change (i.marked d)).2.markClean = (change i).2.markClean

/-- A change that can fail ignores the mark if it comes to the same either way, unless it
    leaves the instance alone. -/
theorem ignoresMark_attempt {α : Type} {change : Instance P → Except StoreError (α × Instance P)}
    (h : ∀ i d, change (i.marked d) = change i ∨
      ∃ a, change (i.marked d) = .ok (a, i.marked d) ∧ change i = .ok (a, i)) :
    IgnoresMark (Book.attempt change) := by
  intro i d
  rcases h i d with heq | ⟨a, hd, hi⟩
  · cases hi : change i with
    | error err =>
      rw [Book.attempt_of_error (heq.trans hi), Book.attempt_of_error hi]
      exact ⟨rfl, rfl⟩
    | ok r =>
      rw [Book.attempt_of_ok (heq.trans hi), Book.attempt_of_ok hi]
      exact ⟨rfl, rfl⟩
  · rw [Book.attempt_of_ok hd, Book.attempt_of_ok hi]
    exact ⟨rfl, rfl⟩

theorem ignoresMark_markDeleting : IgnoresMark fun i : Instance P => ((), i.markDeleting) :=
  fun _ _ => ⟨rfl, rfl⟩

/-- Whatever is written, the mark is replaced with it. -/
theorem ignoresMark_write (p : Param P) (v : ParamValue) :
    IgnoresMark (Book.attempt fun i : Instance P => (i.write p v).map fun i => ((), i)) :=
  ignoresMark_attempt fun _ _ => Or.inl rfl

theorem ignoresMark_writeText (p : Param P) (s : String) :
    IgnoresMark (Book.attempt fun i : Instance P => (i.writeText p s).map fun i => ((), i)) :=
  ignoresMark_attempt fun _ _ => Or.inl rfl

theorem ignoresMark_link (p : Param P) (t : Entity) :
    IgnoresMark (Book.attempt fun i : Instance P => (i.link p t).map fun i => ((), i)) := by
  refine ignoresMark_attempt fun i d => ?_
  have hpayload : (i.marked d).payload = i.payload := rfl
  unfold link
  split
  · exact Or.inl rfl
  · exact Or.inl rfl
  -- A member that is there already is not written again, so the mark stays.
  · rw [hpayload]
    split
    · exact Or.inl rfl
    · split
      · exact Or.inr ⟨(), rfl, rfl⟩
      · exact Or.inl rfl
  · exact Or.inl rfl

theorem ignoresMark_copyParam (source : Instance P) (p : Param P) :
    IgnoresMark (Book.attempt fun dest => source.copyParam dest p) := by
  refine ignoresMark_attempt fun i d => ?_
  unfold copyParam
  split
  · exact Or.inr ⟨_, rfl, rfl⟩
  · exact Or.inl rfl
  · split
    · exact Or.inr ⟨_, rfl, rfl⟩
    · split
      · exact Or.inl rfl
      · exact Or.inl rfl
  · cases source.references p with
    | error err => exact Or.inl rfl
    | ok ts => exact Or.inr ⟨_, rfl, rfl⟩

end Instance

namespace Book

/-! ### Equal contents -/

/-- Two books hold the same: the same instances, up to the mark by which a refused commit
    shows, in the same surroundings, and the same references wait in the same order. -/
structure SameContents (b b' : Book P) : Prop where
  id : b'.id = b.id
  registry : b'.registry = b.registry
  config : b'.config = b.config
  opened : b'.opened = b.opened
  undo : b'.undo = b.undo
  pending : b'.pending = b.pending
  instances : ∀ e, (b'.get? e).map Instance.markClean = (b.get? e).map Instance.markClean

namespace SameContents

variable {a b b' c : Book P}

theorem refl (b : Book P) : b.SameContents b := ⟨rfl, rfl, rfl, rfl, rfl, rfl, fun _ => rfl⟩

theorem symm (h : b.SameContents b') : b'.SameContents b :=
  ⟨h.id.symm, h.registry.symm, h.config.symm, h.opened.symm, h.undo.symm, h.pending.symm,
    fun e => (h.instances e).symm⟩

theorem trans (h : a.SameContents b) (h' : b.SameContents c) : a.SameContents c :=
  ⟨h'.id.trans h.id, h'.registry.trans h.registry, h'.config.trans h.config,
    h'.opened.trans h.opened, h'.undo.trans h.undo, h'.pending.trans h.pending,
    fun e => (h'.instances e).trans (h.instances e)⟩

/-- An entity is live in both books or in neither. -/
theorem get?_cases (h : b.SameContents b') (e : Entity) :
    (b.get? e = none ∧ b'.get? e = none) ∨
      ∃ i d, b.get? e = some i ∧ b'.get? e = some (i.marked d) := by
  have hboth := h.instances e
  cases hi : b.get? e with
  | none =>
    rw [hi] at hboth
    exact Or.inl ⟨rfl, Option.map_eq_none_iff.mp hboth⟩
  | some i =>
    rw [hi] at hboth
    obtain ⟨j, hj, hclean⟩ := Option.map_eq_some_iff.mp hboth
    obtain ⟨d, rfl⟩ := Instance.exists_marked hclean
    exact Or.inr ⟨i, d, rfl, hj⟩

theorem contains_eq (h : b.SameContents b') (e : Entity) : b'.contains e = b.contains e := by
  unfold contains
  rcases h.get?_cases e with ⟨hn, hn'⟩ | ⟨i, d, hi, hi'⟩
  · rw [hn, hn']
  · rw [hi, hi']
    rfl

theorem read_eq (h : b.SameContents b') (e : Entity) (name : String) :
    b'.read e name = b.read e name := by
  unfold Book.read Book.param? Book.instance?
  rw [h.registry]
  rcases h.get?_cases e with ⟨hn, hn'⟩ | ⟨i, d, hi, hi'⟩
  · rw [hn, hn']
  · rw [hi, hi']
    cases b.registry.param? e.typeTag name with
    | error err => rfl
    | ok p =>
      have hvalue := (⟨rfl, rfl, rfl⟩ : (i.marked d).Same i).value? p.accessor
      show (i.marked d).read p = i.read p
      unfold Instance.read
      rw [hvalue]
      rfl

/-! ### Edits -/

theorem put (h : b.SameContents b') (e : Entity) (i : Instance P) (d : Bool) :
    (b.put e i).SameContents (b'.put e (i.marked d)) := by
  refine ⟨h.id, h.registry, h.config, h.opened, h.undo, h.pending, fun e' => ?_⟩
  by_cases he : e' = e
  · subst he
    rw [get?_put_self, get?_put_self]
    rfl
  · rw [get?_put_of_ne _ he, get?_put_of_ne _ he]
    exact h.instances e'

theorem remove (h : b.SameContents b') (e : Entity) : (b.remove e).SameContents (b'.remove e) := by
  refine ⟨h.id, h.registry, h.config, h.opened, h.undo, h.pending, fun e' => ?_⟩
  by_cases he : e' = e
  · subst he
    rw [get?_remove_self, get?_remove_self]
  · rw [get?_remove_of_ne _ he, get?_remove_of_ne _ he]
    exact h.instances e'

/-- Events and the account of what changed are no contents. -/
theorem emit (h : b.SameContents b') (ev : ChangeEvent) :
    (b.markDirty.emit ev).SameContents (b'.markDirty.emit ev) :=
  ⟨h.id, h.registry, h.config, h.opened, h.undo, h.pending, h.instances⟩

theorem beginEdit (h : b.SameContents b') (e : Entity) :
    (b.beginEdit e).2.SameContents (b'.beginEdit e).2 := by
  unfold Book.beginEdit
  rcases h.get?_cases e with ⟨hn, hn'⟩ | ⟨i, d, hi, hi'⟩
  · rw [hn, hn']
    exact h
  · rw [hi, hi']
    have hput := h.put e i.enter d
    have hlevel : (i.marked d).enter.level = i.enter.level := rfl
    dsimp only
    rw [hlevel]
    split
    · exact ⟨hput.id, hput.registry, hput.config, hput.opened, hput.undo, hput.pending,
        hput.instances⟩
    · exact hput

/-- Whatever the verdict, settling leaves the contents as they are. -/
theorem settle {e : Entity} {i : Instance P} (hi : b.get? e = some i) :
    b.SameContents (b.settle e i).2 := by
  have hk := Keeps.settle b e i
  refine ⟨hk.id, hk.registry, hk.config, hk.opened, hk.undo, hk.pending, fun e' => ?_⟩
  by_cases he : e' = e
  · subst he
    obtain ⟨j, hj, hclean⟩ := get?_settle_self hi
    rw [hj, hi]
    exact congrArg some hclean
  · rw [get?_settle_of_ne b he]

theorem commitEdit (h : b.SameContents b') (e : Entity) :
    (b.commitEdit e).2.SameContents (b'.commitEdit e).2 := by
  unfold Book.commitEdit
  rcases h.get?_cases e with ⟨hn, hn'⟩ | ⟨i, d, hi, hi'⟩
  · rw [hn, hn']
    exact h
  · rw [hi, hi']
    dsimp only
    rw [Instance.leave?_marked]
    cases hl : i.leave? with
    | none => exact h
    | some j =>
      have hput := h.put e j d
      have hlevel : (j.marked d).level = j.level := rfl
      have hdeleting : (j.marked d).deleting = j.deleting := rfl
      simp only [Option.map_some, hlevel, hdeleting]
      split
      · exact hput
      · split
        · exact (hput.remove e).emit _
        -- The two backends may disagree here.
        · exact ((settle (get?_put_self b e j)).symm.trans hput).trans
            (settle (get?_put_self b' e (j.marked d)))

variable {α : Type} {change : Instance P → α × Instance P}

theorem edit (h : b.SameContents b') (e : Entity) (hc : Instance.IgnoresMark change) :
    (b'.edit e change).1.result? = (b.edit e change).1.result? ∧
      (b.edit e change).2.SameContents (b'.edit e change).2 := by
  rcases h.get?_cases e with ⟨hn, hn'⟩ | ⟨i, d, hi, hi'⟩
  · rw [edit_of_none hn, edit_of_none hn']
    exact ⟨rfl, h⟩
  · have henter : (i.marked d).enter = i.enter.marked d := rfl
    obtain ⟨hanswer, hclean⟩ := hc i.enter d
    refine ⟨?_, ?_⟩
    · rw [result?_edit hi, result?_edit hi', henter, hanswer]
    · obtain ⟨d', hd'⟩ := Instance.exists_marked hclean
      unfold Book.edit
      simp only [hi, hi', henter, hd']
      exact ((h.beginEdit e).put e _ d').commitEdit e

theorem tryEdit (h : b.SameContents b') (e : Entity)
    {change : Instance P → Except StoreError (Instance P)}
    (hc : Instance.IgnoresMark (attempt fun i => (change i).map fun i => ((), i))) :
    (b.tryEdit e change).2.SameContents (b'.tryEdit e change).2 := by
  rw [tryEdit_snd, tryEdit_snd]
  exact (h.edit e hc).2

theorem delete (h : b.SameContents b') (e : Entity) :
    (b.delete e).2.SameContents (b'.delete e).2 := by
  rw [delete_snd, delete_snd]
  exact (h.edit e Instance.ignoresMark_markDeleting).2

theorem write (h : b.SameContents b') (e : Entity) (name : String) (v : ParamValue) :
    (b.write e name v).2.SameContents (b'.write e name v).2 := by
  unfold Book.write Book.param?
  rw [h.registry]
  split
  · exact h
  · exact h.tryEdit e (Instance.ignoresMark_write _ v)

theorem writeText (h : b.SameContents b') (e : Entity) (name s : String) :
    (b.writeText e name s).2.SameContents (b'.writeText e name s).2 := by
  unfold Book.writeText Book.param?
  rw [h.registry]
  split
  · exact h
  · exact h.tryEdit e (Instance.ignoresMark_writeText _ s)

theorem link (h : b.SameContents b') (r : ReferenceRecord P) :
    (b.link r).2.SameContents (b'.link r).2 :=
  h.tryEdit r.source (Instance.ignoresMark_link r.param r.target)

/-! ### Creation and waiting references -/

theorem adopt (h : b.SameContents b') (e : Entity) (payload : Payload P) :
    (b.adopt (b.newborn e payload)).SameContents (b'.adopt (b'.newborn e payload)) := by
  have hnew : b'.newborn e payload = b.newborn e payload := by
    unfold newborn
    rw [h.id]
  have hopened : SameContents { b with opened := insertTag e.typeTag b.opened }
      { b' with opened := insertTag e.typeTag b'.opened } :=
    ⟨h.id, h.registry, h.config, congrArg (insertTag e.typeTag) h.opened, h.undo, h.pending,
      h.instances⟩
  rw [hnew]
  exact (hopened.put e (b.newborn e payload) false).emit _

/-- What can be made in one book can be made in the other. -/
theorem create_ok (h : b.SameContents b') {tag : TypeTag} {g : Guid} {e : Entity} {made : Book P}
    (hc : b.create tag g = (.ok e, made)) :
    ∃ made', b'.create tag g = (.ok e, made') ∧ made.SameContents made' := by
  obtain ⟨rfl, hg, hn, c, payload, hf, hp, rfl⟩ := create_eq_ok.mp hc
  have hmade : b'.create tag g = (.ok ⟨tag, g⟩, b'.adopt (b'.newborn ⟨tag, g⟩ payload)) :=
    create_eq_ok.mpr ⟨rfl, hg, (h.contains_eq _).trans hn, c, payload,
      (congrArg (fun r => r.find? tag) h.registry).trans hf, hp, rfl⟩
  exact ⟨_, hmade, h.adopt _ payload⟩

theorem create (h : b.SameContents b') (tag : TypeTag) (g : Guid) :
    (b.create tag g).2.SameContents (b'.create tag g).2 := by
  cases hc : b.create tag g with
  | mk r made =>
    cases r with
    | ok e =>
      obtain ⟨made', hc', hsame⟩ := h.create_ok hc
      rw [hc']
      exact hsame
    | error err =>
      cases hc' : b'.create tag g with
      | mk r' made' =>
        cases r' with
        | ok e =>
          obtain ⟨_, hok, _⟩ := h.symm.create_ok hc'
          rw [hc] at hok
          cases hok
        | error err' =>
          rw [create_eq_error hc, create_eq_error hc']
          exact h

theorem pushPending (h : b.SameContents b') (rs : List (ReferenceRecord P)) :
    (b.pushPending rs).SameContents (b'.pushPending rs) :=
  ⟨h.id, h.registry, h.config, h.opened, h.undo,
    congrArg (fun ws => rs.foldl addRecord ws) h.pending, h.instances⟩

theorem takePending (h : b.SameContents b') :
    b.takePending.2.SameContents b'.takePending.2 :=
  ⟨h.id, h.registry, h.config, h.opened, h.undo, rfl, h.instances⟩

theorem suspend (h : b.SameContents b') : b.suspend.SameContents b'.suspend :=
  ⟨h.id, h.registry, h.config, h.opened, h.undo, h.pending, h.instances⟩

theorem resume (h : b.SameContents b') : b.resume.SameContents b'.resume :=
  ⟨h.id, h.registry, h.config, h.opened, h.undo, h.pending, h.instances⟩

end SameContents

/-! ### Resolutions -/

/-- Two passes side by side: the counts may differ. -/
structure Pass.SameContents (s s' : Pass P) : Prop where
  book : s.book.SameContents s'.book
  waiting : s'.waiting = s.waiting

theorem Pass.SameContents.step {s s' : Pass P} (h : s.SameContents s') (r : ReferenceRecord P) :
    (s.step r).SameContents (s'.step r) := by
  have hsource := h.book.contains_eq r.source
  have htarget := h.book.contains_eq r.target
  cases hs : s.book.contains r.source with
  | false =>
    rw [step_of_gone hs, step_of_gone (hsource.trans hs)]
    exact ⟨h.book, h.waiting⟩
  | true =>
    cases ht : s.book.contains r.target with
    | false =>
      rw [step_of_missing hs ht, step_of_missing (hsource.trans hs) (htarget.trans ht)]
      exact ⟨h.book, congrArg (· ++ [r]) h.waiting⟩
    -- A refused link counts as dropped, but the parameter points at the target.
    | true =>
      obtain ⟨hbook, hwaiting⟩ := step_of_there hs ht
      obtain ⟨hbook', hwaiting'⟩ := step_of_there (hsource.trans hs) (htarget.trans ht)
      refine ⟨?_, by rw [hwaiting, hwaiting', h.waiting]⟩
      rw [hbook, hbook']
      exact h.book.link r

theorem SameContents.resolvePending {b b' : Book P} (h : b.SameContents b') :
    b.resolvePending.2.SameContents b'.resolvePending.2 := by
  have run (rs : List (ReferenceRecord P)) {s s' : Pass P} (hs : s.SameContents s') :
      (rs.foldl Pass.step s).SameContents (rs.foldl Pass.step s') := by
    induction rs generalizing s s' with
    | nil => exact hs
    | cons r rest ih => exact ih (hs.step r)
  have hstart : Pass.SameContents { book := b.takePending.2 } { book := b'.takePending.2 } :=
    ⟨h.takePending, rfl⟩
  have hend := run b.pending hstart
  show (Book.pushPending _ _).SameContents
    ((b'.pending.foldl Pass.step { book := b'.takePending.2 }).book.pushPending
      (b'.pending.foldl Pass.step { book := b'.takePending.2 }).waiting)
  rw [h.pending, hend.waiting]
  exact hend.book.pushPending _

/-! ### Copies -/

/-- Two copies under way side by side: the refusals may differ. -/
structure Progress.SameContents (s s' : Progress P) : Prop where
  book : s.book.SameContents s'.book
  deferred : s'.deferred = s.deferred

theorem Progress.SameContents.step {s s' : Progress P} (h : s.SameContents s')
    (source : Instance P) (p : Param P) : (s.step source p).SameContents (s'.step source p) := by
  obtain ⟨hresult, hbook⟩ := h.book.edit source.entity (Instance.ignoresMark_copyParam source p)
  refine ⟨hbook, ?_⟩
  unfold Progress.step
  dsimp only
  rw [hresult, h.deferred]

section Copies

variable {b b' : Book P}

theorem SameContents.transfer (h : b.SameContents b') (source : Instance P) (c : ObjectClass P)
    (payload : Payload P) :
    (b.transfer source c payload).SameContents (b'.transfer source c payload) := by
  have run (ps : List (Param P)) {s s' : Progress P} (hs : s.SameContents s') :
      (ps.foldl (Progress.step source) s).SameContents (ps.foldl (Progress.step source) s') := by
    induction ps generalizing s s' with
    | nil => exact hs
    | cons p rest ih => exact ih (hs.step source p)
  exact run c.copyable ⟨h.adopt source.entity payload, rfl⟩

theorem SameContents.copyOne (h : b.SameContents b') (source : Instance P) :
    (b.copyOne source).2.SameContents (b'.copyOne source).2 := by
  have hfind (tag : TypeTag) : b'.registry.find? tag = b.registry.find? tag := by rw [h.registry]
  have haccepts : b'.Accepts source.entity.typeTag ↔ b.Accepts source.entity.typeTag := by
    unfold Accepts
    rw [hfind]
  rcases copyOne_cases b source with ⟨hkept, hwhy, _⟩ | ⟨hn, hg, c, payload, hc, hcomp, hp, hmade⟩
  · rcases copyOne_cases b' source with ⟨hkept', _⟩ | ⟨hn', hg', c, _, hc', hcomp', _⟩
    · rw [hkept, hkept']
      exact h
    -- The reason for which one book refuses the entity holds of the other.
    · rw [← h.contains_eq, hn', hg'] at hwhy
      rcases hwhy with hwhy | hwhy | hwhy
      · cases hwhy
      · cases hwhy
      · exact absurd (haccepts.mp ⟨c, hc', hcomp'⟩) hwhy
  · have hmade' := copyOne_of_accepts ((h.contains_eq _).trans hn) hg ((hfind _).trans hc) hcomp hp
    have ht := h.transfer source c payload
    rw [hmade, hmade', ht.deferred]
    exact ht.book.pushPending _

/-- The destinations of two batches side by side: the reports may differ. -/
theorem SameContents.copy {s s' : Batch P} (h : s.book.SameContents s'.book)
    (source : Instance P) : (s.copy source).book.SameContents (s'.copy source).book :=
  h.copyOne source

theorem SameContents.finish {s s' : Batch P} (h : s.book.SameContents s'.book) :
    s.finish.2.SameContents s'.finish.2 := h.resolvePending.resume

/-- A loop over batches whose rounds keep the contents the same. -/
theorem SameContents.foldl {ι : Type} {round : Batch P → ι → Batch P}
    (hround : ∀ s s' x, s.book.SameContents s'.book →
      (round s x).book.SameContents (round s' x).book)
    (xs : List ι) {s s' : Batch P} (h : s.book.SameContents s'.book) :
    (xs.foldl round s).book.SameContents (xs.foldl round s').book := by
  induction xs generalizing s s' with
  | nil => exact h
  | cons x rest ih => exact ih (hround s s' x h)

theorem SameContents.copies (h : b.SameContents b') (sources : List (Instance P))
    (report report' : Report) :
    (sources.foldl Batch.copy { book := b.suspend, report }).book.SameContents
      (sources.foldl Batch.copy { book := b'.suspend, report := report' }).book :=
  foldl (fun _ _ i hs => hs.copy i) sources h.suspend

theorem SameContents.follow {s s' : Batch P} (h : s.book.SameContents s'.book)
    (source : Book P) (e : Entity) :
    (s.follow source e).book.SameContents (s'.follow source e).book := by
  unfold Batch.follow
  rw [h.contains_eq]
  split
  · exact h
  · split
    · exact h.copy _
    · exact h

theorem SameContents.walk {s s' : Batch P} (h : s.book.SameContents s'.book) (source : Book P)
    (hops : Nat) (seen frontier : List Entity) :
    (s.walk source hops seen frontier).book.SameContents
      (s'.walk source hops seen frontier).book := by
  induction hops generalizing seen frontier s s' with
  | zero => exact h
  | succ hops ih => exact ih (foldl (fun _ _ e hs => hs.follow source e) _ h) _ _

theorem SameContents.copyRecursive (h : b.SameContents b') (source : Book P) (e : Entity) :
    (b.copyRecursive source e).2.SameContents (b'.copyRecursive source e).2 := by
  unfold Book.copyRecursive
  dsimp only
  refine ((?_ : SameContents (Batch.book _) (Batch.book _)).walk source _ _ _).finish
  split
  · next i _ =>
    have hcopied := h.suspend.copyOne i
    exact hcopied
  · exact h.suspend

theorem SameContents.copyCollectionRecursive (h : b.SameContents b') (source : Book P)
    (tag : TypeTag) :
    (b.copyCollectionRecursive source tag).2.SameContents
      (b'.copyCollectionRecursive source tag).2 := by
  unfold Book.copyCollectionRecursive
  split
  · exact h
  · exact ((h.copies _ _ _).walk source _ _ _).finish

end Copies

end Book

/-! ### Runs -/

/-- Calls that create, delete, edit, link and copy. They neither record nor replay, and the
    backend stays the same. -/
def Call.isPlain : Call P → Bool
  | .create .. | .delete _ | .beginEdit _ | .commitEdit _ | .write .. | .writeText .. => true
  | .link _ | .pushPending _ | .takePending | .resolvePending => true
  | .copyEntity _ | .copyList _ | .copyCollection _ => true
  | .copyRecursive .. | .copyCollectionRecursive .. => true
  | .subscribe | .unsubscribe _ | .suspend | .resume | .markClean | .register .. => true
  | .edit .. | .modify .. | .setBackend _ => false
  | .startOperation _ | .endOperation | .recordCreate _ | .recordDelete _ => false
  | .recordBefore .. | .recordAfter .. | .undo | .redo | .clearUndo => false

namespace Book

variable {b b' : Book P}

theorem SameContents.call (h : b.SameContents b') {c : Call P} (hc : c.isPlain = true) :
    (b.call c).SameContents (b'.call c) := by
  cases c with
  | create tag guid => exact h.create tag guid
  | delete e => exact h.delete e
  | beginEdit e => exact h.beginEdit e
  | commitEdit e => exact h.commitEdit e
  | write e name v => exact h.write e name v
  | writeText e name s => exact h.writeText e name s
  | link r => exact h.link r
  | pushPending rs => exact h.pushPending rs
  | takePending => exact h.takePending
  | resolvePending => exact h.resolvePending
  | copyEntity source => exact (h.suspend.copyOne source).resolvePending.resume
  | copyList sources => exact (h.copies sources {} {}).finish
  | copyCollection sources => exact (h.copies sources _ _).finish
  | copyRecursive source e => exact h.copyRecursive source e
  | copyCollectionRecursive source tag => exact h.copyCollectionRecursive source tag
  | subscribe | unsubscribe | suspend | resume | markClean =>
    exact ⟨h.id, h.registry, h.config, h.opened, h.undo, h.pending, h.instances⟩
  | register c unique =>
    unfold Book.call
    dsimp only
    rw [h.registry]
    split
    · exact ⟨h.id, rfl, h.config, h.opened, h.undo, h.pending, h.instances⟩
    · exact h
  | edit | modify | setBackend | startOperation | endOperation | recordCreate | recordDelete |
      recordBefore | recordAfter | undo | redo | clearUndo => cases hc

theorem SameContents.run (h : b.SameContents b') {calls : List (Call P)}
    (hcalls : ∀ c ∈ calls, c.isPlain = true) : (b.run calls).SameContents (b'.run calls) := by
  induction calls generalizing b b' with
  | nil => exact h
  | cons c rest ih =>
    exact ih (h.call (hcalls c List.mem_cons_self)) fun d hd =>
      hcalls d (List.mem_cons_of_mem c hd)

/-- Two backends, whatever they remember and refuse, leave a book with the same contents
    after each call of a run: with the same live instances but for the marks of refused
    commits, and with the same references waiting, in order. -/
theorem verdicts_leave_contents (b : Book P) (first second : Backend P) {calls : List (Call P)}
    (hcalls : ∀ c ∈ calls, c.isPlain = true) (n : Nat) :
    ((b.setBackend first).run (calls.take n)).SameContents
        ((b.setBackend second).run (calls.take n)) ∧
      ∀ e name, ((b.setBackend second).run (calls.take n)).read e name =
        ((b.setBackend first).run (calls.take n)).read e name := by
  have hstart : (b.setBackend first).SameContents (b.setBackend second) :=
    ⟨rfl, rfl, rfl, rfl, rfl, rfl, fun _ => rfl⟩
  have hplain : ∀ c ∈ calls.take n, c.isPlain = true :=
    fun c hc => hcalls c (List.mem_of_mem_take hc)
  have hend := hstart.run hplain
  exact ⟨hend, hend.read_eq⟩

end Book

/-- A ring is copied in part, and one of the copies is made anew. -/
def Bag.ringCalls : List (Call bags) :=
  [.copyRecursive ring (node 1), .delete (node 2), .create "node" (node 2).guid, .resolvePending]

/-- A backend that refuses every commit lets all copies of the ring fail, and yet leaves
    what one leaves that accepts them. -/
theorem Book.refused_ring_same_contents :
    (((Bag.emptyBook 2).setBackend .accepting).copyRecursive Bag.ring (Bag.node 1)).1.copied =
      [Bag.node 1, Bag.node 2, Bag.node 3] ∧
    (((Bag.emptyBook 2).setBackend (.refusing .always "full")).copyRecursive Bag.ring
      (Bag.node 1)).1.copied = [] ∧
    (∀ c ∈ Bag.ringCalls, c.isPlain = true) ∧
    SameContents (((Bag.emptyBook 2).setBackend .accepting).run (Bag.ringCalls.take 4))
      (((Bag.emptyBook 2).setBackend (.refusing .always "full")).run (Bag.ringCalls.take 4)) := by
  have hplain : ∀ c ∈ Bag.ringCalls, c.isPlain = true := by
    simp [Bag.ringCalls, Call.isPlain]
  exact ⟨by decide +kernel, by decide +kernel, hplain,
    (verdicts_leave_contents (Bag.emptyBook 2) .accepting (.refusing .always "full")
      hplain 4).1⟩

end EntityBook
