import EntityBook.Proofs.Event.Mirror
import EntityBook.Proofs.Payload.Bag

/-! # A clean book is unchanged

  A program that saves a book marks it clean, and saves it again only if it was
  marked since. It may rely on that: if the book is not marked and no edit is open,
  then all is as it was saved.

  Changes inside an open edit mark the instance only, and the mark of the book
  follows when the edit closes; it may be cleared in between. So the mark alone
  does not tell what changed. But with every mark an event is raised, and the
  events since the last save tell.
-/

namespace EntityBook

variable {P : PayloadFamily}

namespace Book

/-! ### Marks -/

/-- A step after which a book that is clean was clean before, and heard of nothing. -/
structure Marking (b b' : Book P) : Prop where
  step : Step b b'
  marked : b'.dirty = false → b.dirty = false ∧ b'.bus.raised = b.bus.raised

/-- Any number of such steps. -/
abbrev Markings : Book P → Book P → Prop := Relation.ReflTransGen Marking

namespace Marking

/-- A step that concerns neither the mark nor the events. -/
theorem silent {b b' : Book P} (hs : Step b b') (hd : b'.dirty = b.dirty)
    (hr : b'.bus.raised = b.bus.raised) : Marking b b' :=
  ⟨hs, fun h => ⟨hd ▸ h, hr⟩⟩

/-- A step that leaves the mark. -/
theorem marks {b b' : Book P} (hs : Step b b') (hd : b'.dirty = true) : Marking b b' :=
  ⟨hs, fun h => absurd (hd.symm.trans h) (by simp)⟩

theorem create (b : Book P) (tag : TypeTag) (guid : Guid) : Marking b (b.create tag guid).2 := by
  have hstep := Step.create b tag guid
  rcases create_cases b tag guid with heq | ⟨i, _, heq⟩
  · rw [heq] at hstep ⊢
    exact .silent hstep rfl rfl
  · rw [heq] at hstep ⊢
    exact .marks hstep rfl

theorem beginEdit (b : Book P) (e : Entity) : Marking b (b.beginEdit e).2 := by
  refine .silent (.beginEdit b e) ?_ (congrArg EventBus.raised (bus_beginEdit b e))
  unfold Book.beginEdit
  split
  · rfl
  · dsimp only
    split <;> rfl

theorem commitEdit (b : Book P) (e : Entity) : Marking b (b.commitEdit e).2 := by
  have hstep := Step.commitEdit b e
  have hclosed := closed_commitEdit b e
  generalize (b.commitEdit e).2 = b' at hstep hclosed
  cases hclosed with
  | refused | inner => exact .silent hstep rfl rfl
  | removed => exact .marks hstep rfl
  | @settled i live level kept accepted =>
    -- Only a changed instance marks the book, whatever the backend says.
    unfold settledAs at hstep ⊢
    cases hd : i.leave.dirty with
    | true => cases accepted <;> exact .marks (by simpa only [hd] using hstep) rfl
    | false => cases accepted <;> exact .silent (by simpa only [hd] using hstep) rfl rfl

end Marking

theorem Act.markings {b b' : Book P} (h : Act b b') : Markings b b' := by
  cases h with
  | create _ tag guid => exact .single (.create b tag guid)
  | edit _ e touches =>
    exact edit_chain b e (.beginEdit b e)
      (fun i live editing => .silent (.touch live editing (touches i)) rfl rfl)
      fun b => .commitEdit b e
  | delete _ e =>
    rw [delete_snd]
    exact edit_chain b e (.beginEdit b e)
      (fun i live editing => .silent (.markDeleting live editing) rfl rfl)
      fun b => .commitEdit b e
  | log _ undo => exact .single (.silent (.log b undo) rfl rfl)
  | pushPending _ rs => exact .single (.silent (.pushPending b rs) rfl rfl)
  | takePending => exact .single (.silent (.takePending b) rfl rfl)

namespace Markings

theorem acts {b b' : Book P} (h : Acts b b') : Markings b b' := by
  induction h with
  | refl => exact .refl
  | tail _ hact ih => exact ih.trans hact.markings

theorem held {b b' : Book P} (h : Held b b') : Markings b b' := by
  cases h with
  | idle => exact .refl
  | @acted last hacts =>
    have hstart : Markings b b.suspend := .single (.silent (.suspend b) rfl rfl)
    exact (hstart.trans (acts hacts)).tail
      (.silent (.resume last) rfl (EventBus.raised_resume last.bus))

/-- No call but the one for it clears the mark. -/
theorem call (b : Book P) {c : Call P} (hc : c ≠ .markClean) : Markings b (b.call c) := by
  cases hact : c.isAct with
  | true => exact acts (.call b hact)
  | false =>
    cases c with
    | markClean => exact absurd rfl hc
    | undo | redo | copyEntity | copyList | copyCollection | copyRecursive
    | copyCollectionRecursive => exact held (.call b rfl)
    | beginEdit e => exact .single (.beginEdit b e)
    | commitEdit e => exact .single (.commitEdit b e)
    | subscribe => exact .single (.silent (.subscribe b) rfl rfl)
    | unsubscribe id => exact .single (.silent (.unsubscribe b id) rfl rfl)
    | suspend => exact .single (.silent (.suspend b) rfl rfl)
    | resume => exact .single (.silent (.resume b) rfl (EventBus.raised_resume b.bus))
    | setBackend backend => exact .single (.silent (.setBackend b backend) rfl rfl)
    | register c unique =>
      rcases call_register_cases b unique with heq | ⟨r, hr, heq⟩
      · rw [heq]
      · rw [heq]
        exact .single (.silent (.register unique hr) rfl rfl)
    | _ => cases hact

theorem steps {b b' : Book P} (h : Markings b b') : Steps b b' :=
  Relation.ReflTransGen.mono (fun _ _ hm => hm.step) _ _ h

/-- A book that is clean at the end was clean all the way, and nothing was raised. -/
theorem quiet {b b' : Book P} (h : Markings b b') (hclean : b'.dirty = false) :
    b'.bus.raised = b.bus.raised := by
  induction h with
  | refl => rfl
  | tail _ hlast ih =>
    obtain ⟨hbefore, hraised⟩ := hlast.marked hclean
    exact hraised.trans (ih hbefore)

end Markings

/-! ### Since the last save -/

/-- The same entities are live, with the same values. -/
structure Unchanged (b b' : Book P) : Prop where
  live : ∀ e, b'.contains e = b.contains e
  values : ∀ e i j, b.get? e = some i → b'.get? e = some j →
    j.slots = i.slots ∧ j.payload = i.payload ∧ ∀ a, j.value? a = i.value? a

/-- A subscriber that heard of nothing knows of no other entities. -/
theorem Mirrored.contains_eq {b b' : Book P} (h : b.Mirrored) (h' : b'.Mirrored)
    (hraised : b'.bus.raised = b.bus.raised) (e : Entity) : b'.contains e = b.contains e := by
  obtain ⟨live, htrack, hlive⟩ := h
  obtain ⟨live', htrack', hlive'⟩ := h'
  have hsame : live' = live := by
    rw [hraised, htrack] at htrack'
    exact (Option.some.inj htrack').symm
  exact Bool.eq_iff_iff.mpr ((hlive' e).symm.trans (hsame ▸ hlive e))

theorem Markings.unchanged {b b' : Book P} (h : Markings b b') (horder : b.bus.Orderly)
    (hm : b.Mirrored) (hclean : b'.dirty = false)
    (hclosed : ∀ e i, b'.get? e = some i → i.level = 0) : Unchanged b b' := by
  obtain ⟨-, hm', news, hsince⟩ := h.steps.mirrored horder hm
  have hquiet := h.quiet hclean
  have hnews : news = [] := by
    have hraised := hsince.raised
    rwa [hquiet, List.self_eq_append_right] at hraised
  subst hnews
  refine ⟨hm.contains_eq hm' hquiet, fun e i j hi hj => ?_⟩
  rcases hsince.told e i hi with (hmodified | hdestroyed) | ⟨k, hk, hopen | hsame⟩
  · cases hmodified
  · cases hdestroyed
  · exact absurd hopen.2 (by simp [hclosed e k hk])
  · cases hk.symm.trans hj
    exact ⟨hsame.slots.symm, hsame.payload.symm, fun a => (hsame.value? a).symm⟩

/-- The book that was saved last: the one that calls last marked clean, or else the
    one that was saved before them. -/
def lastSaved (saved b : Book P) : List (Call P) → Book P
  | [] => saved
  | .markClean :: rest => lastSaved b.markClean b.markClean rest
  | c :: rest => lastSaved saved (b.call c) rest

/-- From the last save on, nothing clears the mark. -/
theorem markings_lastSaved {saved b : Book P} (h : Markings saved b) (horder : saved.bus.Orderly)
    (hm : saved.Mirrored) (calls : List (Call P)) :
    Markings (lastSaved saved b calls) (b.run calls) ∧ (lastSaved saved b calls).bus.Orderly ∧
      (lastSaved saved b calls).Mirrored := by
  induction calls generalizing saved b with
  | nil => exact ⟨h, horder, hm⟩
  | cons c rest ih =>
    by_cases hc : c = .markClean
    · subst hc
      obtain ⟨horder', hm', -⟩ := h.steps.mirrored horder hm
      exact ih .refl horder' hm'
    · have hsame : lastSaved saved b (c :: rest) = lastSaved saved (b.call c) rest := by
        cases c <;> first
          | rfl
          | exact absurd rfl hc
      rw [hsame]
      exact ih (h.trans (Markings.call b hc)) horder hm

/-- If no edit is open, a book that is clean has the contents that it had when it was last
    marked clean, or none if it never was. -/
theorem clean_book_is_unchanged (id : Guid) (registry : Registry P) (config : Config)
    (calls : List (Call P)) (hclean : ((blank id registry config).run calls).dirty = false)
    (hclosed : ∀ e i, ((blank id registry config).run calls).get? e = some i → i.level = 0) :
    Unchanged (lastSaved (blank id registry config) (blank id registry config) calls)
      ((blank id registry config).run calls) := by
  obtain ⟨hmarkings, horder, hmirrored⟩ := markings_lastSaved (b := blank id registry config) .refl
    (fun _ => rfl) (mirrored_blank id registry config) calls
  exact hmarkings.unchanged horder hmirrored hclean hclosed

end Book

/-- A node is labelled and saved. Later it is edited without being changed, a write and a
    deletion fail, and a label that was not recorded cannot be undone. -/
def Bag.idleCalls : List (Call bags) :=
  [.create "node" (node 1).guid, .writeText (node 1) "label" "a", .markClean, .beginEdit (node 1),
    .writeText (node 1) "size" "b", .commitEdit (node 1), .delete (node 2), .undo]

theorem Book.idle_calls_change_nothing :
    let b := (blank ⟨1⟩ Bag.nodes {}).run Bag.idleCalls
    let saved := lastSaved (blank ⟨1⟩ Bag.nodes {}) (blank ⟨1⟩ Bag.nodes {}) Bag.idleCalls
    b.dirty = false ∧ (∀ e i, b.get? e = some i → i.level = 0) ∧
    (saved.readText (Bag.node 1) "label").toOption = some "a" ∧ Unchanged saved b := by
  intro b saved
  have hclean : b.dirty = false := by decide +kernel
  have hlevels : ∀ x ∈ b.instances.entries, x.2.level = 0 := by decide +kernel
  have hclosed (e : Entity) (i : Instance bags) (hi : b.get? e = some i) : i.level = 0 :=
    hlevels (e, i) (OrderedMap.mem_of_findIn hi)
  exact ⟨hclean, hclosed, by decide +kernel,
    clean_book_is_unchanged ⟨1⟩ Bag.nodes {} Bag.idleCalls hclean hclosed⟩

end EntityBook
