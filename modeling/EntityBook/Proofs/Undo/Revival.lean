import EntityBook.Proofs.Copy.Exchange
import EntityBook.Proofs.Undo.Aside
import EntityBook.Proofs.Undo.Loss

/-! # Deletions that are undone

  Deletion is a mark on the instance, which takes effect when the last open edit closes.
  Undo of a deletion makes the entity again if it is gone by then. If it is still there,
  undo restores its values and leaves the mark, so the entity goes when the edits that
  are still open are closed.

  `Secure` says that an entity is live without the mark. No call takes that from it,
  except one that asks for its deletion, or an undo or redo that does.
-/

namespace EntityBook

variable {P : PayloadFamily}

/-- Calls that may ask for the deletion of an entity. -/
def Call.mayRemove (e : Entity) : Call P → Bool
  | .delete x => x == e
  | .undo | .redo => true
  | _ => false

namespace Book

/-! ### What keeps an entity secure -/

namespace Secure

variable {b b' : Book P} {e x : Entity}

theorem contains (h : b.Secure e) : b.contains e = true := by
  obtain ⟨i, hi, _⟩ := h
  exact contains_of_some hi

theorem of_get?_eq (h : b.Secure e) (get : b'.get? e = b.get? e) : b'.Secure e := by
  obtain ⟨i, hi, hd⟩ := h
  exact ⟨i, get.trans hi, hd⟩

theorem of_revises (h : b.Secure e) (hr : b.Revises b') : b'.Secure e := by
  obtain ⟨i, hi, hd⟩ := h
  obtain ⟨j, hj, hij⟩ := hr.live hi
  exact ⟨j, hj, hij.deleting.trans hd⟩

theorem setRecording (h : b.Secure e) (r : Option (OpenOperation P)) :
    (b.setRecording r).Secure e :=
  h.of_get?_eq rfl

theorem recordBefore (h : b.Secure e) (x : Entity) (name : String) :
    (b.recordBefore x name).2.Secure e := by
  obtain ⟨r, hr⟩ := b.exists_recordBefore_eq x name
  rw [hr]
  exact h.setRecording r

theorem recordAfter (h : b.Secure e) (x : Entity) (name : String) :
    (b.recordAfter x name).2.Secure e := by
  obtain ⟨r, hr⟩ := b.exists_recordAfter_eq x name
  rw [hr]
  exact h.setRecording r

theorem modify (hb : b.WellFormed) (h : b.Secure e) (x : Entity) (name s : String) :
    (b.modify x name s).2.Secure e := by
  have hbefore := h.recordBefore x name
  have hwf := (Acts.recordBefore b x name).steps.wellFormed hb
  have hwrite := hbefore.of_revises (.writeText hwf x name s)
  have hmodifies := b.modifies x name s
  generalize b.modify x name s = out at hmodifies
  cases hmodifies with
  | unrecorded => exact hbefore
  | unwritten => exact hwrite
  | written => exact hwrite.recordAfter x name

/-! ### Copies -/

theorem copyOne (hb : b.WellFormed) (h : b.Secure e) (i : Instance P) :
    (b.copyOne i).2.Secure e := by
  rcases copyOne_cases b i with ⟨hsame, _⟩ | ⟨hnew, hg, c, payload, hc, _, hp, hmade⟩
  · rw [hsame]
    exact h
  -- The copy is a new entity.
  · have hne : e ≠ i.entity := by
      rintro rfl
      exact absurd (hnew.symm.trans h.contains) (by simp)
    have hadopt : (b.adopt (b.newborn i.entity payload)).Secure e :=
      h.of_get?_eq (get?_adopt_of_ne b hne)
    rw [hmade]
    exact hadopt.of_revises ((revises_transfer (hb.adopt hg hc hp)).trans (.pushPending _ _))

theorem gathers {copied : Instance P → Prop} (hb : b.WellFormed) (h : b.Secure e)
    (hparts : Gathers copied b b') : b'.Secure e := by
  induction hparts with
  | refl => exact h
  | @tail d d' before hpart ih =>
    have hd : d.WellFormed := (Gathers.exchanges before).steps.wellFormed hb
    cases hpart with
    | suspend => exact ih.of_get?_eq rfl
    | copyOne given => exact ih.copyOne hd _

theorem resolves (hb : b.WellFormed) (h : b.Secure e) {c : Call P} (hc : c.resolves = true) :
    (b.call c).Secure e := by
  obtain ⟨d, hparts, heq⟩ := exists_resolution b hc
  have hd : d.WellFormed := hparts.exchanges.steps.wellFormed hb
  have hlast : d.resolvePending.2.Secure e :=
    (h.gathers hb hparts).of_revises (.resolvePending hd)
  rcases heq with heq | heq
  · rw [heq]
    exact hlast
  · rw [heq]
    exact hlast.of_get?_eq rfl

/-! ### Calls and runs -/

theorem call (hb : b.WellFormed) (h : b.Secure e) {c : Call P} (hc : c.mayRemove e = false) :
    (b.call c).Secure e := by
  cases c with
  | create tag guid =>
    obtain ⟨i, hi, hd⟩ := h
    exact ⟨i, get?_create_of_some hi tag guid, hd⟩
  | delete x =>
    have hx : e ≠ x := by
      rintro rfl
      simp [Call.mayRemove] at hc
    exact h.of_get?_eq (get?_delete_of_ne b hx)
  | beginEdit x => exact (Aside.beginEdit b x e).secure h
  | commitEdit x => exact (Aside.commitEdit b x e).secure h
  | edit x change => exact h.of_revises (.edit hb fun i => (change.touches i).toRewrites)
  | write x name v => exact h.of_revises (.write hb x name v)
  | writeText x name s => exact h.of_revises (.writeText hb x name s)
  | modify x name s => exact h.modify hb x name s
  | link r => exact h.of_revises (.link hb r)
  | recordBefore x name => exact h.recordBefore x name
  | recordAfter x name => exact h.recordAfter x name
  | recordDelete x =>
    obtain ⟨r, hr⟩ := b.exists_recordDelete_eq x
    show (b.recordDelete x).2.Secure e
    rw [hr]
    exact h.setRecording r
  | recordCreate x =>
    obtain ⟨r, hr⟩ := b.exists_recordCreate_eq x
    show (b.recordCreate x).Secure e
    rw [hr]
    exact h.setRecording r
  | startOperation label =>
    refine h.of_get?_eq ?_
    show (b.startOperation label).get? e = b.get? e
    unfold startOperation
    split <;> rfl
  | endOperation =>
    obtain ⟨l, hl⟩ := b.exists_endOperation_eq
    show b.endOperation.2.Secure e
    rw [hl]
    exact h.of_get?_eq rfl
  | resolvePending => exact h.resolves hb rfl
  | copyEntity source => exact h.resolves (c := .copyEntity source) hb rfl
  | copyList sources => exact h.resolves (c := .copyList sources) hb rfl
  | copyCollection sources => exact h.resolves (c := .copyCollection sources) hb rfl
  | copyRecursive source x => exact h.resolves (c := .copyRecursive source x) hb rfl
  | copyCollectionRecursive source tag =>
    cases hr : (Call.copyCollectionRecursive source tag).resolves with
    | true => exact h.resolves hb hr
    | false =>
      have hnone : source.collection? tag = none := by simpa [Call.resolves] using hr
      refine h.of_get?_eq ?_
      show (b.copyCollectionRecursive source tag).2.get? e = b.get? e
      unfold copyCollectionRecursive
      rw [hnone]
  | register c unique =>
    rcases call_register_cases b unique with heq | ⟨r, _, heq⟩
    · rw [heq]
      exact h
    · rw [heq]
      exact h.of_get?_eq rfl
  | pushPending | takePending | clearUndo | subscribe | unsubscribe | suspend | resume | setBackend
    | markClean => exact h.of_get?_eq rfl
  | undo | redo => cases hc

theorem run (hb : b.WellFormed) (h : b.Secure e) {calls : List (Call P)}
    (hcalls : ∀ c ∈ calls, c.mayRemove e = false) : (b.run calls).Secure e := by
  induction calls generalizing b with
  | nil => exact h
  | cons c rest ih =>
    exact ih ((Steps.call b c).wellFormed hb) (h.call hb (hcalls c List.mem_cons_self))
      fun c' hc' => hcalls c' (List.mem_cons_of_mem c hc')

end Secure

/-- Closing all open edits of an entity that bears the mark removes it. -/
theorem get?_run_commitEdit {n : Nat} {b : Book P} {e : Entity} {i : Instance P}
    (hi : b.get? e = some i) (hd : i.deleting = true) (hl : i.level = n + 1) :
    (b.run (List.replicate (n + 1) (.commitEdit e))).get? e = none := by
  induction n generalizing b i with
  | zero => exact get?_commitEdit_removed hi hl hd
  | succ n ih =>
    obtain ⟨j, hj, hclean⟩ := get?_commitEdit_kept hi (by omega) (fun h1 => by omega)
    have hjd : j.deleting = true := (Instance.deleting_of_markClean hclean).trans hd
    have hjl : j.level = n + 1 := by
      have hleave : j.level = i.leave.level := Instance.level_of_markClean hclean
      show j.level = n + 1
      rw [hleave]
      show i.level - 1 = n + 1
      omega
    exact ih hj hjd hjl

/-! ### An operation that ends with a deletion -/

/-- The end of an operation that deletes an entity: the deletion is recorded and made, and
    other calls may follow; answers whether the operation was committed. -/
def deleteAndEnd (b : Book P) (e : Entity) (after : List (Call P)) : Bool × Book P :=
  (((b.recordDelete e).2.delete e).2.run after).endOperation

variable {b c : Book P} {e : Entity} {i : Instance P} {cl : ObjectClass P} {o : OpenOperation P}
  {before after outer : List (Call P)}

/-- An entity is gone, or it still holds what it held and bears the mark. -/
def Doomed (b : Book P) (e : Entity) (i : Instance P) : Prop :=
  ∀ j, b.get? e = some j → i.Same j ∧ j.deleting = true

theorem Doomed.aside {b' : Book P} (h : b.Doomed e i) (ha : Aside e b b') : b'.Doomed e i := by
  intro k hk
  obtain ⟨j, hj, hjk, hd⟩ := ha.held k hk
  obtain ⟨hij, hdj⟩ := h j hj
  exact ⟨hij.trans hjk, hd.trans hdj⟩

theorem doomed_delete (hi : b.get? e = some i) : (b.delete e).2.Doomed e i := by
  intro j hj
  by_cases hl : i.level = 0
  · exact absurd ((get?_delete_self hi hl).symm.trans hj) (by simp)
  · obtain ⟨k, hk, hclean⟩ := get?_delete_editing hi (by omega)
    cases hk.symm.trans hj
    have hmark : i.Same i.markDeleting := ⟨rfl, rfl, rfl⟩
    exact ⟨hmark.trans (Instance.Same.of_markClean hclean).symm,
      Instance.deleting_of_markClean hclean⟩

theorem entity_of_mem_deletion {u : UndoEntry P} (h : u ∈ Recorded.deletion e i cl) :
    u.entity = e := by
  rcases List.mem_cons.mp h with rfl | h
  · rfl
  · obtain ⟨p, _, d, hd, rfl⟩ := mem_snapshotOf h
    exact (mem_captured hd).1

/-- A side-table whose leaves are all recorded for the deletion has no new slots. -/
theorem newSlots_of_doomed (h : b.Doomed e i) {p : Param P} (hp : p ∈ cl.copyable)
    (hslots : p.isSlots = true) {entries : List (UndoEntry P)}
    (hentries : ∀ u ∈ Recorded.deletion e i cl, u ∈ entries) : b.newSlots entries e p = [] := by
  unfold newSlots
  cases hj : b.get? e with
  | none => rfl
  | some j =>
    have hvalue : valueOf i p = .slots i.slots := by
      unfold valueOf
      rw [Instance.accessor_of_isSlots hslots]
      rfl
    refine List.map_eq_nil_iff.mpr (List.filter_eq_nil_iff.mpr ?_)
    intro x hx
    have hleaf : x ∈ i.slots.leaves := (h j hj).1.slots ▸ hx
    -- The leaf was captured for the deletion.
    have hcap : (some x.1, Capture.value x.2.text) ∈ (valueOf i p).captures := by
      rw [hvalue]
      exact List.mem_map_of_mem hleaf
    obtain ⟨d, hd, hdx⟩ := List.mem_map.mp
      ((map_before_captured e p (fun _ => .absent) (valueOf i p)).symm ▸ hcap)
    obtain ⟨hde, hdp, _⟩ := mem_captured hd
    have hmem : UndoEntry.changed d ∈ Recorded.deletion e i cl :=
      List.mem_cons_of_mem _ (List.mem_flatMap.mpr ⟨p, hp, List.mem_map_of_mem hd⟩)
    have hpath : x.1 ∈ UndoLog.pathsIn entries e p.name :=
      UndoLog.mem_pathsIn.mpr ⟨d, hentries _ hmem, hde, hdp ▸ rfl, (Prod.mk.inj hdx).1⟩
    simpa using hpath

/-- So at the end of its operation nothing is added about an entity that was deleted. -/
theorem addNewSlots_of_doomed (h : c.Doomed e i) {earlier : List (UndoEntry P)}
    (hown : (o.entries.filter fun u => u.entity == e) = earlier ++ Recorded.deletion e i cl)
    (hwatched : ∀ w ∈ o.watched, w.1 = e → w.2 ∈ cl.copyable ∧ w.2.isSlots = true) :
    ((c.addNewSlots o.entries o.watched).filter fun u => u.entity == e) =
        earlier ++ Recorded.deletion e i cl ∧
      c.addNewSlots o.entries o.watched ≠ [] := by
  have hdeletion : ∀ u ∈ Recorded.deletion e i cl, u ∈ o.entries := by
    intro u hu
    have hmem : u ∈ o.entries.filter fun u => u.entity == e := by
      rw [hown]
      exact List.mem_append_right _ hu
    exact (List.mem_filter.mp hmem).1
  have hnew : ((c.addNewSlots o.entries o.watched).filter fun u => u.entity == e) =
      o.entries.filter fun u => u.entity == e := by
    refine filter_addNewSlots c ?_
    intro w hw more
    obtain ⟨x, p⟩ := w
    by_cases hx : x = e
    · subst hx
      obtain ⟨hp, hslots⟩ := hwatched _ hw rfl
      have hnone : c.newSlots (o.entries ++ more) x p = [] :=
        newSlots_of_doomed h hp hslots fun u hu => List.mem_append_left _ (hdeletion u hu)
      show Elsewhere x (c.newSlots (o.entries ++ more) x p)
      rw [hnone]
      intro u hu
      cases hu
    · exact elsewhere_newSlots hx c _ p
  refine ⟨hnew.trans hown, ?_⟩
  intro hnil
  rw [hnil, hown] at hnew
  exact absurd hnew.symm (by simp [Recorded.deletion])

/-- What such an operation leaves in the log: what it had recorded of the entity, and the
    deletion. What was not seen yet is filled in when it ends. -/
theorem deleteAndEnd_spec (hb : b.WellFormed) (enabled : b.config.undoEnabled = true)
    (ho : b.undo.recording = some o) (live : b.get? e = some i)
    (hcl : b.registry.find? e.typeTag = some cl)
    (hwatched : ∀ w ∈ o.watched, w.1 = e → w.2 ∈ cl.copyable ∧ w.2.isSlots = true)
    (hafter : ∀ x ∈ after, x.isAside e = true) :
    ∃ (c : Book P) (l : UndoLog P) (entries : List (UndoEntry P)), c.WellFormed ∧ b.SameSetup c ∧
      c.Doomed e i ∧ l.recording = none ∧
      (entries.filter fun u => u.entity == e) =
        ((o.entries.filter fun u => u.entity == e) ++ Recorded.deletion e i cl).map c.close ∧
      b.deleteAndEnd e after =
        (true, c.withLog (l.push ⟨o.label, entries⟩ b.config.undoLimit)) := by
  have hrecording : b.recording? = some o := by
    unfold recording?
    rw [if_pos enabled, ho]
  have hrecord := Recorded.recordDelete_of_live hb hrecording live hcl
  -- The deletion is recorded; all that follows is aside from the entity.
  obtain ⟨b₁, hb₁⟩ : ∃ b₁, b₁ = b.addEntries o (Recorded.deletion e i cl) := ⟨_, rfl⟩
  have hset₁ : b.SameSetup b₁ := hb₁ ▸ ⟨rfl, rfl, rfl, rfl⟩
  have hk := Keeps.delete b₁ e
  have hopen : (b₁.delete e).2.undo.recording =
      some { o with entries := o.entries ++ Recorded.deletion e i cl } := by
    rw [hk.undo, hb₁]
    rfl
  have haside := Aside.run (b₁.delete e).2 hafter
  obtain ⟨o', ho', habout⟩ := haside.recording hopen
  have hdoomed : ((b₁.delete e).2.run after).Doomed e i :=
    (doomed_delete (hb₁ ▸ live)).aside haside
  have hwf : ((b₁.delete e).2.run after).WellFormed := by
    refine (Steps.run _ _).wellFormed (WellFormed.delete ?_ e)
    rw [hb₁]
    exact hb.withLog _
  have hset : b.SameSetup ((b₁.delete e).2.run after) :=
    (hset₁.trans ⟨hk.id, hk.registry, hk.config, hk.backend⟩).trans haside.setup
  have hend : b.deleteAndEnd e after = ((b₁.delete e).2.run after).endOperation := by
    unfold deleteAndEnd
    rw [hrecord, hb₁]
  generalize (b₁.delete e).2.run after = c at ho' hdoomed hwf hset hend
  have hrecorded : c.undo.recording = some o' := by rw [ho']
  have hlabel : o'.label = o.label := congrArg (fun r => r.label) habout
  have hown : (o'.entries.filter fun u => u.entity == e) =
      (o.entries.filter fun u => u.entity == e) ++ Recorded.deletion e i cl := by
    have hall : ((Recorded.deletion e i cl).filter fun u => u.entity == e) =
        Recorded.deletion e i cl := by
      refine List.filter_eq_self.mpr ?_
      intro u hu
      rw [entity_of_mem_deletion hu]
      exact beq_self_eq_true e
    refine (congrArg OpenOperation.entries habout).trans ?_
    show ((o.entries ++ Recorded.deletion e i cl).filter _) = _
    rw [List.filter_append, hall]
  have hwatched' : ∀ w ∈ o'.watched, w.1 = e → w.2 ∈ cl.copyable ∧ w.2.isSlots = true := by
    intro w hw hwe
    have hmem : w ∈ (o'.about e).watched := List.mem_filter.mpr ⟨hw, by simpa using hwe⟩
    rw [habout] at hmem
    exact hwatched w (List.mem_filter.mp hmem).1 hwe
  obtain ⟨hentries, hne⟩ := addNewSlots_of_doomed hdoomed hown hwatched'
  obtain ⟨l, hl, hlog⟩ := exists_committedLog_eq_push c.undo c.config o'
    ((c.addNewSlots o'.entries o'.watched).map c.close)
  rw [hset.config, hlabel] at hlog
  refine ⟨c, l, (c.addNewSlots o'.entries o'.watched).map c.close, hwf, hset, hdoomed, hl, ?_, ?_⟩
  · rw [filter_entity_map (entity_close c), hentries]
  · rw [hend, endOperation_of_ne_nil hrecorded hne, hset.config, hlog]

/-- An operation that records the deletion of an entity and deletes it, with other calls
    before and after; answers whether it was committed. -/
def deleteWithin (b : Book P) (label : String) (e : Entity) (before after : List (Call P)) :
    Bool × Book P :=
  ((b.startOperation label).run before).deleteAndEnd e after

/-- The operation, and calls aside from the entity after it, up to the undo. -/
theorem undo_deleteWithin (hb : b.WellFormed) (enabled : b.config.undoEnabled = true)
    (limit : 0 < b.config.undoLimit) (label : String)
    (hbefore : ∀ x ∈ before, x.isAside e = true) (hafter : ∀ x ∈ after, x.isAside e = true)
    (houter : ∀ x ∈ outer, x.isAside e = true)
    (live : ((b.startOperation label).run before).get? e = some i)
    (hcl : b.registry.find? e.typeTag = some cl)
    (hc : c = (b.deleteWithin label e before after).2.run outer) :
    (b.deleteWithin label e before after).1 = true ∧ c.WellFormed ∧ b.SameSetup c ∧ c.Doomed e i ∧
      ∃ (u : UndoLog P) (entries : List (UndoEntry P)),
        (entries.filter fun u => u.entity == e) = Recorded.deletion e i cl ∧
        c.undoLast = (true, (c.withLog u).replay entries .undo) := by
  have hstart : b.startOperation label = b.setRecording (some { label }) := if_pos enabled
  -- What is recorded before the deletion is about other entities.
  have haside := Aside.run (b.startOperation label) hbefore
  obtain ⟨o, ho, habout⟩ := haside.recording (o := { label }) (by rw [hstart]; rfl)
  have hset : b.SameSetup ((b.startOperation label).run before) := by
    rw [hstart] at haside ⊢
    exact (SameSetup.withLog b _).trans haside.setup
  have hwf : ((b.startOperation label).run before).WellFormed := by
    refine (Steps.run _ _).wellFormed ?_
    rw [hstart]
    exact hb.withLog _
  have hown : (o.entries.filter fun u => u.entity == e) = [] :=
    congrArg OpenOperation.entries habout
  have hwatched : ∀ w ∈ o.watched, w.1 = e → w.2 ∈ cl.copyable ∧ w.2.isSlots = true := by
    intro w hw hwe
    have hmem : w ∈ (o.about e).watched := List.mem_filter.mpr ⟨hw, by simpa using hwe⟩
    rw [habout] at hmem
    cases hmem
  obtain ⟨d, l, entries, hd, hset', hdoomed, hl, hentries, hend⟩ :=
    deleteAndEnd_spec hwf (hset.config ▸ enabled) (by rw [ho]) live (hset.registry ▸ hcl) hwatched
      hafter
  rw [hown, List.nil_append, map_close_deletion] at hentries
  have hsession : b.deleteWithin label e before after = _ := hend
  -- Nothing is recorded after the end, so undo finds the operation.
  have haside' := Aside.run (b.deleteWithin label e before after).2 houter
  rw [← hc] at haside'
  have hlog : c.undo = l.push ⟨o.label, entries⟩ b.config.undoLimit := by
    rw [haside'.undo_eq (by rw [hsession]; exact hl), hsession, hset.config]
    rfl
  have hdone := undoLast_of_push hlog limit
  have hset'' : b.SameSetup (b.deleteWithin label e before after).2 := by
    rw [hsession]
    exact (hset.trans hset').trans (.withLog d _)
  refine ⟨by rw [hsession], ?_, hset''.trans haside'.setup, ?_, _, entries, hentries, hdone⟩
  · rw [hc, hsession]
    exact (Steps.run _ _).wellFormed (hd.withLog _)
  · refine Doomed.aside (b := (b.deleteWithin label e before after).2) ?_ haside'
    rw [hsession]
    exact hdoomed

/-! ### Values that are still there -/

/-- Replaying the captures of a value on the value itself gives one like it, if it
    survives. -/
theorem alike_replayValue_self {p : Param P} {u v : ParamValue} (hv : v.HasKind p.kind)
    (hs : v.Survives p.kind u) :
    (Direction.undo.replayValue (captured e p (fun _ => .absent) v) v).Alike v := by
  cases v with
  | slots f =>
    have hrest : (ParamValue.slots f).Restorable p.kind := hs
    have hback : Direction.undo.replayValue (captured e p (fun _ => .absent) (.slots f)) (.slots f) =
        .slots f := by
      unfold Direction.replayValue
      dsimp only
      rw [filter_captured]
      refine ParamValue.foldl_restored_captures Direction.undo.side hrest (.refl _) ?_ (Or.inr ?_)
      · intro d hd
        exact (mem_captured (List.mem_reverse.mp hd)).2.1
      · rw [List.map_reverse]
        exact congrArg List.reverse (map_before_captured e p _ _)
    rw [hback]
    exact .refl _
  | scalar _ _ | reference _ | choice _ | collection _ | book _ =>
    refine (alike_replayValue_iff hv ?_).mpr ?_
    · intro hslots
      unfold Param.kind at hv
      rw [Instance.accessor_of_isSlots hslots] at hv
      exact False.elim hv
    -- A text that is not read leaves the value, which is all that is needed here.
    · unfold ParamValue.Survives ParamValue.carried at hs ⊢
      dsimp only at hs ⊢
      split at hs
      · exact hs
      · exact .refl _

/-- What is captured for a deletion are the values alone. -/
theorem deletion_congr {j : Instance P} (h : i.Same j) (e : Entity) (cl : ObjectClass P) :
    Recorded.deletion e i cl = Recorded.deletion e j cl := by
  have hvalue : valueOf i = valueOf (P := P) j := by
    funext p
    unfold valueOf
    rw [h.value?]
  unfold Recorded.deletion
  rw [hvalue]

theorem Doomed.congr {j : Instance P} (h : b.Doomed e i) (hj : j.Same i) : b.Doomed e j := by
  intro k hk
  obtain ⟨hik, hd⟩ := h k hk
  exact ⟨hj.trans hik, hd⟩

/-! ### After the undo -/

section Undone

variable {entries : List (UndoEntry P)}

/-- A deletion among other entries is undone by making the entity, and nothing else
    removes it. -/
theorem actions_of_deletion
    (hown : (entries.filter fun u => u.entity == e) = Recorded.deletion e i cl) :
    e ∈ entitiesOf entries Direction.undo.made ∧ e ∉ entitiesOf entries Direction.undo.removed := by
  have hfilter (u : UndoEntry P) (hu : u.entity = e) :
      u ∈ entries ↔ u ∈ Recorded.deletion e i cl := by
    rw [← hown, List.mem_filter]
    simp [hu]
  constructor
  · exact mem_entitiesOf_create.mpr ((hfilter (.deleted e) rfl).mpr List.mem_cons_self)
  · intro hm
    have hcreated := (hfilter (.created e) rfl).mp (mem_entitiesOf_delete.mp hm)
    refine Recorded.not_mem_deletion ?_ ?_ hcreated
    · intro d hd
      cases hd
    · intro hd
      cases hd

/-- The values of the entity after the undo, whether it was still there or not. -/
theorem values_after_undo (hc : c.WellFormed) (lawful : cl.IsLawful)
    (hown : (entries.filter fun u => u.entity == e) = Recorded.deletion e i cl)
    (hfit : c.FitEntries (Recorded.deletion e i cl)) {payload : Payload P}
    (hm : c.Makes e cl payload) (hdoomed : c.Doomed e i)
    (hi : ∀ p ∈ cl.copyable, i.value? p.accessor = some (valueOf i p)) :
    ∃ j k, (c.prepared entries .undo).get? e = some j ∧
      (c.replay entries .undo).get? e = some k ∧ j.Rewrites k ∧
      ∀ p ∈ cl.copyable, ∃ u w, (c.newborn e payload).value? p.accessor = some u ∧
        k.value? p.accessor = some w ∧
        ((valueOf i p).Survives p.kind u → w.Alike (valueOf i p)) := by
  obtain ⟨hmade, hspared⟩ := actions_of_deletion hown
  have hclwf := hc.registry.of_find? hm.found
  have hcell (p : Param P) (hp : p ∈ cl.copyable) : cell entries e p.name =
      captured e p (fun _ => .absent) (valueOf i p) := by
    rw [← cell_filter_entity, hown, Recorded.cell_deletion_self hclwf hp]
  cases hj : c.get? e with
  | some j =>
    have hsame := (hdoomed j hj).1
    have hprepared : (c.prepared entries .undo).get? e = some j := get?_prepared_of_some hj
    have htype : j.payload.type = cl.payloadType := by
      obtain ⟨cl', hcl', _, hpayload⟩ := (hc.fits e j hj).known
      cases hm.found.symm.trans hcl'
      exact hpayload
    obtain ⟨k, hk, hrewrites, hvalue⟩ := value?_replay_of_spared hc hspared hprepared
      (hown ▸ hfit) hm.found lawful htype
    refine ⟨j, k, hprepared, hk, hrewrites, ?_⟩
    intro p hp
    obtain ⟨u, hu⟩ := hm.exists_value hp
    have hv : j.value? p.accessor = some (valueOf i p) := (hsame.value? _).symm.trans (hi p hp)
    refine ⟨u, _, hu, hvalue p hp _ hv, ?_⟩
    rw [hcell p hp]
    exact alike_replayValue_self (Instance.hasKind_value (hi p hp))
  | none =>
    have hprepared := get?_prepared_of_none hj hmade hm
    obtain ⟨k, hk, hrewrites, hvalue⟩ := value?_replay_of_spared hc hspared hprepared
      (hown ▸ hfit) hm.found lawful (ObjectClass.type_of_initialPayload hm.payload)
    refine ⟨_, k, hprepared, hk, hrewrites, ?_⟩
    intro p hp
    obtain ⟨u, hu⟩ := hm.exists_value hp
    refine ⟨u, _, hu, hvalue p hp u hu, ?_⟩
    rw [hcell p hp]
    refine (alike_replayValue_iff (Instance.hasKind_value (hi p hp)) ?_).mpr
    intro hslots
    rw [Instance.accessor_of_isSlots hslots] at hu
    exact (Option.some.inj hu).symm

end Undone

/-- An entity lasts, whatever is done but asking for its deletion, just if it does not bear
    the mark of a deletion that was asked for before. -/
theorem lasts_iff_unmarked {k : Instance P} (hc : c.WellFormed) (hk : c.get? e = some k) :
    (∀ calls, (∀ x ∈ calls, Call.mayRemove e x = false) → (c.run calls).contains e = true) ↔
      k.deleting = false := by
  constructor
  · intro hlasts
    by_contra hmark
    have hd : k.deleting = true := by simpa using hmark
    -- Closing the edits that keep the entity removes it.
    have hlevel : 0 < k.level := (hc.fits e k hk).deleting hd
    obtain ⟨n, hn⟩ := Nat.exists_eq_succ_of_ne_zero (Nat.ne_of_gt hlevel)
    have hgone := get?_run_commitEdit hk hd hn
    have hstays := hlasts (List.replicate (n + 1) (.commitEdit e)) (by
      intro x hx
      rw [List.eq_of_mem_replicate hx]
      rfl)
    rw [contains_of_none hgone] at hstays
    cases hstays
  · intro hd calls hcalls
    have hsecure : c.Secure e := ⟨k, hk, hd⟩
    exact (hsecure.run hc hcalls).contains

/-- An entity that may be under edit is deleted in an operation, among other calls, and
    the operation is undone. Then the entity is live, and each of its values that survives
    is what it was before the operation. It stays live until its deletion is asked for
    again just if it was gone when the operation was undone. -/
theorem undone_deletion_lasts_iff (hb : b.WellFormed) (enabled : b.config.undoEnabled = true)
    (limit : 0 < b.config.undoLimit) (label : String)
    (hbefore : ∀ x ∈ before, x.isAside e = true) (hafter : ∀ x ∈ after, x.isAside e = true)
    (houter : ∀ x ∈ outer, x.isAside e = true)
    (live : ((b.startOperation label).run before).get? e = some i)
    (hcl : b.registry.find? e.typeTag = some cl) (lawful : cl.IsLawful)
    (hc : c = (b.deleteWithin label e before after).2.run outer) :
    (b.deleteWithin label e before after).1 = true ∧ c.undoLast.1 = true ∧
    c.undoLast.2.contains e = true ∧
    (∃ payload, cl.initialPayload? = some payload ∧
      ∀ p ∈ cl.copyable, ∃ u v w, (b.newborn e payload).value? p.accessor = some u ∧
        b.read e p.name = .ok v ∧ c.undoLast.2.read e p.name = .ok w ∧
        (v.Survives p.kind u → w.Alike v)) ∧
    ((∀ calls, (∀ x ∈ calls, Call.mayRemove e x = false) →
        (c.undoLast.2.run calls).contains e = true) ↔
      c.contains e = false) := by
  obtain ⟨hcommit, hwf, hset, hdoomed, l, entries, hown, hundo⟩ :=
    undo_deleteWithin hb enabled limit label hbefore hafter houter live hcl hc
  -- The entity held before the operation what it held when it was deleted.
  have hstart : b.startOperation label = b.setRecording (some { label }) := if_pos enabled
  obtain ⟨i₀, hi₀, hsame, _⟩ := (Aside.run (b.startOperation label) hbefore).held i live
  have hlive : b.get? e = some i₀ := by
    rw [hstart] at hi₀
    exact hi₀
  rw [← deletion_congr hsame] at hown
  have hdoomed := hdoomed.congr hsame
  have hset' : b.SameSetup (c.withLog l) := hset.trans (.withLog c l)
  have hfit := (Recorded.fitEntries_deletion hb hlive hcl).of_setup hset'
  obtain ⟨cl', payload, hmakes, _⟩ := hb.exists_makes hlive
  cases hcl.symm.trans hmakes.found
  have hi₀ : ∀ p ∈ cl.copyable, i₀.value? p.accessor = some (valueOf i₀ p) := fun p hp =>
    hb.exists_value hlive hcl hp
  obtain ⟨j, k, hprepared, hk, hrewrites, hvalues⟩ := values_after_undo (hwf.withLog l) lawful hown
    hfit (hmakes.of_setup hset') hdoomed hi₀
  have hback : c.undoLast.2.get? e = some k := by
    rw [hundo]
    exact hk
  have hwf' : c.undoLast.2.WellFormed := (Held.undoLast c).moves.steps.wellFormed hwf
  refine ⟨hcommit, congrArg Prod.fst hundo, contains_of_some hback, ?_, ?_⟩
  · refine ⟨payload, hmakes.payload, ?_⟩
    intro p hp
    obtain ⟨u, w, hu, hw, halike⟩ := hvalues p hp
    have hname := ObjectClass.param?_of_mem (hb.registry.of_find? hcl)
      (ObjectClass.mem_params_of_mem_copyable hp)
    have hparam : b.undoableParam e p.name = .ok p :=
      undoableParam_eq_ok.mpr ⟨cl, hcl, hp, hname⟩
    have hregistry : c.undoLast.2.registry = b.registry := by
      rw [hundo]
      exact (hset'.trans (.replay (hwf.withLog l) entries .undo)).registry
    refine ⟨u, valueOf i₀ p, w, ?_, read_eq hparam hlive (hi₀ p hp),
      read_eq ((undoableParam_congr hregistry e p.name).trans hparam) hback hw, halike⟩
    rw [← hset'.newborn]
    exact hu
  · rw [lasts_iff_unmarked hwf' hback, hrewrites.deleting]
    cases hj : c.get? e with
    | none =>
      -- A new instance does not bear the mark.
      cases (get?_prepared_of_none (b := c.withLog l) hj (actions_of_deletion hown).1
        (hmakes.of_setup hset')).symm.trans hprepared
      exact iff_of_true rfl (contains_of_none hj)
    | some j' =>
      -- The mark is still there.
      have hthere : ((c.withLog l).prepared entries .undo).get? e = some j' :=
        get?_prepared_of_some hj
      cases hthere.symm.trans hprepared
      have hd : j.deleting = true := (hdoomed j hj).2
      rw [hd, contains_of_some hj]

/-! ### An item under edit -/

/-- An item is deleted under an open edit. Closed before the undo, the edit does no harm;
    left open until after it, the edit takes the item along when it closes. -/
theorem edited_item_revived :
    let b := plainStock.call (.beginEdit item)
    let closed := (b.deleteWithin "drop" item [] [.commitEdit item]).2.run []
    let edited := (b.deleteWithin "drop" item [] []).2.run []
    (b.get? item).map Instance.level = some 1 ∧
    (closed.undoLast.2.contains item = true ∧
      ∀ calls, (∀ x ∈ calls, Call.mayRemove item x = false) →
        (closed.undoLast.2.run calls).contains item = true) ∧
    (edited.undoLast.2.contains item = true ∧
      ¬ ∀ calls, (∀ x ∈ calls, Call.mayRemove item x = false) →
        (edited.undoLast.2.run calls).contains item = true) := by
  intro b closed edited
  have hwf : b.WellFormed := (wellFormed_stocked noon oddNaN smallTable).beginEdit item
  have hlevel : (b.get? item).map Instance.level = some 1 := by decide +kernel
  obtain ⟨i, hi, _⟩ := Option.map_eq_some_iff.mp hlevel
  have hnone : ∀ x ∈ ([] : List (Call bags)), x.isAside item = true := by
    intro x hx
    cases hx
  have hcommit : ∀ x ∈ ([.commitEdit item] : List (Call bags)), x.isAside item = true := by
    intro x hx
    rw [List.mem_singleton.mp hx]
    rfl
  have hclosed := undone_deletion_lasts_iff hwf rfl (by decide) "drop" hnone hcommit hnone hi rfl
    isLawful_itemClass (c := closed) rfl
  have hedited := undone_deletion_lasts_iff hwf rfl (by decide) "drop" hnone hnone hnone hi rfl
    isLawful_itemClass (c := edited) rfl
  refine ⟨hlevel, ⟨hclosed.2.2.1, hclosed.2.2.2.2.mpr (by decide +kernel)⟩, hedited.2.2.1, ?_⟩
  intro hlasts
  have hgone : edited.contains item = false := hedited.2.2.2.2.mp hlasts
  have hthere : edited.contains item = true := by decide +kernel
  rw [hthere] at hgone
  cases hgone

/-- An item whose deletion was undone is gone once its open edit is closed. -/
theorem edited_item_lost :
    let b := plainStock.call (.beginEdit item)
    let c := b.deleteWithin "drop" item [] []
    plainStock.contains item = true ∧ c.1 = true ∧ c.2.undoLast.1 = true ∧
    c.2.undoLast.2.contains item = true ∧
    (c.2.undoLast.2.call (.commitEdit item)).contains item = false := by
  decide +kernel

end Book

end EntityBook
