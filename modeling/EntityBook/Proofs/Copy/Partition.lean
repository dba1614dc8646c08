import EntityBook.Proofs.Copy.Exchange
import EntityBook.Proofs.Copy.Repeat
import EntityBook.Proofs.Copy.Targets

/-! # What becomes of the references that wait

  A resolution divides the references that wait into three parts and loses none of
  them: those that it links, those that wait on, and those that it drops. What is
  counted as linked is in place afterwards, unless a later reference of the same
  parameter has taken its place. Nothing is left to link, so a second resolution
  changes nothing.

  Every call that copies ends with a resolution and reports what waits on, but for
  one: the copy of a collection that its source does not have ends before.
-/

namespace EntityBook

variable {P : PayloadFamily}

/-! ### Parameters that point at an entity -/

/-- Whether a value points at an entity, whatever type its parameter is made for. -/
def ParamValue.Mentions (v : ParamValue) (t : Entity) : Prop :=
  match v with
  | .reference target => target = some t.guid
  | .choice target => target = some t
  | .collection members => t.guid ∈ members
  | _ => False

namespace Instance

/-- Whether the value of a parameter points at an entity. -/
def Mentions (i : Instance P) (p : Param P) (t : Entity) : Prop :=
  ∃ v, i.value? p.accessor = some v ∧ v.Mentions t

variable {i j : Instance P} {p : Param P} {t u : Entity}

theorem Mentions.of_value? (h : i.Mentions p t) (hv : j.value? p.accessor = i.value? p.accessor) :
    j.Mentions p t := by
  obtain ⟨v, hi, ht⟩ := h
  exact ⟨v, hv.trans hi, ht⟩

/-- A link leaves its parameter pointing at its target. -/
theorem mentions_link (hp : p.accessor.IsLawful) (h : i.link p t = .ok j) : j.Mentions p t := by
  have hwritten {v : ParamValue} (hw : i.write p v = .ok j) (ht : v.Mentions t) :
      j.Mentions p t := ⟨v, value?_write_self hp hw, ht⟩
  unfold link at h
  split at h
  · exact hwritten h rfl
  · exact hwritten h rfl
  · next tag f ha =>
    split at h
    · cases h
    · next members hm =>
      split at h
      -- A member that is there already stays there.
      · next hin =>
        cases h
        exact ⟨.collection members, by simp [ha, value?, hm], by
          simpa [ParamValue.Mentions] using hin⟩
      · exact hwritten h (by simp [ParamValue.Mentions])
  · cases h

/-- A collection keeps its members when others are linked. -/
theorem Mentions.link (h : i.Mentions p t) (hp : p.accessor.IsLawful)
    (hkind : p.kind = .collection) (hlink : i.link p u = .ok j) : j.Mentions p t := by
  obtain ⟨v, hv, ht⟩ := h
  refine ⟨v.linked u, value?_link_self hp hv hlink, ?_⟩
  have hcollection := hasKind_value hv
  rw [show p.accessor.kind = .collection from hkind] at hcollection
  cases v with
  | collection members =>
    have ht : t.guid ∈ members := ht
    show t.guid ∈ appendNew members u.guid
    unfold appendNew
    split
    · exact ht
    · exact List.mem_append_left _ ht
  | _ => cases hcollection

/-- Later links leave it so if they are of independent parameters, or of a collection. -/
theorem Mentions.foldl_linkedBy (h : i.Mentions p t) (hp : p.accessor.IsLawful)
    {rs : List (ReferenceRecord P)}
    (hrs : ∀ r ∈ rs, (r.param = p ∧ p.kind = .collection) ∨ r.param.Independent p) :
    (rs.foldl linkedBy i).Mentions p t := by
  induction rs generalizing i with
  | nil => exact h
  | cons r rest ih =>
    refine ih ?_ fun s hs => hrs s (List.mem_cons_of_mem r hs)
    unfold linkedBy
    split
    · next j hj =>
      rcases hrs r List.mem_cons_self with ⟨rfl, hkind⟩ | hind
      · exact h.link hp hkind hj
      · exact h.of_value? (value?_link_of_independent hind hj)
    · exact h

end Instance

/-- The accessor of a reference is lawful, and later references of the same entity are of
    the same parameter or of independent ones. -/
structure ReferenceRecord.Undisturbed (r : ReferenceRecord P) (later : List (ReferenceRecord P)) :
    Prop where
  lawful : r.param.accessor.IsLawful
  apart : ∀ s ∈ later, s.source = r.source → s.param = r.param ∨ s.param.Independent r.param

/-- References of the parameters of a lawful class are undisturbed. -/
theorem ObjectClass.IsLawful.undisturbed {c : ObjectClass P} (hlaw : c.IsLawful)
    (hc : c.WellFormed) {r : ReferenceRecord P} {later : List (ReferenceRecord P)}
    (hr : r.param ∈ c.copyable) (hlater : ∀ s ∈ later, s.source = r.source → s.param ∈ c.copyable) :
    r.Undisturbed later where
  lawful := hlaw.accessor _ hr
  apart s hs hsource := by
    have hsp := hlater s hs hsource
    by_cases hname : s.param.name = r.param.name
    · exact Or.inl (eq_of_name_eq hc (mem_params_of_mem_copyable hsp)
        (mem_params_of_mem_copyable hr) hname)
    · exact Or.inr (hlaw.independent _ hsp _ hr hname)

namespace Book

/-! ### The counts of a pass -/

theorem counts_step (s : Pass P) (r : ReferenceRecord P) :
    (s.step r).counts.linked + (s.step r).waiting.length + (s.step r).counts.dropped =
      s.counts.linked + s.waiting.length + s.counts.dropped + 1 := by
  unfold Pass.step
  dsimp only
  split
  · dsimp only
    omega
  · split
    · simp only [List.length_append, List.length_singleton]
      omega
    · split
      · dsimp only
        omega
      · dsimp only
        omega

theorem counts_pass (rs : List (ReferenceRecord P)) (s : Pass P) :
    (rs.foldl Pass.step s).counts.linked + (rs.foldl Pass.step s).waiting.length +
        (rs.foldl Pass.step s).counts.dropped =
      s.counts.linked + s.waiting.length + s.counts.dropped + rs.length := by
  induction rs generalizing s with
  | nil => rfl
  | cons r rest ih =>
    rw [List.foldl_cons, ih, counts_step, List.length_cons]
    omega

/-- A reference is counted as linked if both its ends are live and the link succeeds. -/
theorem link_of_counted {s : Pass P} {r : ReferenceRecord P}
    (h : (s.step r).counts.linked = s.counts.linked + 1) :
    s.book.contains r.source = true ∧ s.book.contains r.target = true ∧
      (s.book.link r).1 = .ok () := by
  unfold Pass.step at h
  dsimp only at h
  split at h
  · exact absurd h (Nat.ne_of_lt (Nat.lt_succ_self _))
  · next hsource =>
    split at h
    · exact absurd h (Nat.ne_of_lt (Nat.lt_succ_self _))
    · next htarget =>
      split at h
      · next u b' heq =>
        exact ⟨by simpa using hsource, by simpa using htarget, congrArg Prod.fst heq⟩
      · exact absurd h (Nat.ne_of_lt (Nat.lt_succ_self _))

/-! ### References that are linked -/

/-- The pass of a resolution, before it deals with the first reference. -/
def startPass (b : Book P) : Pass P := { book := b.takePending.2 }

/-- Whether a resolution counts a reference as linked that waits behind others. -/
def CountsLinked (b : Book P) (before : List (ReferenceRecord P)) (r : ReferenceRecord P) : Prop :=
  let s := before.foldl Pass.step b.startPass
  (s.step r).counts.linked = s.counts.linked + 1

/-- Right after its step a linked reference is in place. -/
theorem mentions_step {s : Pass P} {r : ReferenceRecord P} (hs : s.book.WellFormed)
    (hp : r.param.accessor.IsLawful) (h : (s.step r).counts.linked = s.counts.linked + 1) :
    ∃ i, (s.step r).book.get? r.source = some i ∧ i.Mentions r.param r.target := by
  obtain ⟨hsource, htarget, hok⟩ := link_of_counted h
  rw [(step_of_there hsource htarget).1]
  obtain ⟨i, hi⟩ := Option.isSome_iff_exists.mp hsource
  cases hlink : i.enter.link r.param r.target with
  | error err =>
    obtain ⟨err', hfailed⟩ := tryEdit_fst_of_error (f := fun i => i.link r.param r.target) hi hlink
    exact absurd (hok.symm.trans hfailed) (by simp)
  | ok j =>
    obtain ⟨k, hk, hclean⟩ := get?_tryEdit_self (f := fun i => i.link r.param r.target) hi hlink
      (Instance.rewrites_link hlink) (hs.fits _ _ hi).deleting
    have hsame : j.Same k := (Instance.Same.leave j).trans (Instance.Same.of_markClean hclean).symm
    exact ⟨k, hk, (Instance.mentions_link hp hlink).of_value? (hsame.value? _).symm⟩

/-- What is counted as linked is in place when the resolution is done, unless a later
    reference of the same parameter has taken the place. -/
theorem mentions_resolvePending {b : Book P} (hb : b.WellFormed)
    {before later : List (ReferenceRecord P)} {r : ReferenceRecord P}
    (hpending : b.pending = before ++ r :: later) (hlinked : b.CountsLinked before r)
    (hr : r.Undisturbed later)
    (hlast : r.param.kind = .collection ∨
      ∀ s ∈ later, s.source = r.source → s.param = r.param → b.contains s.target = false) :
    ∃ i, b.resolvePending.2.get? r.source = some i ∧ i.Mentions r.param r.target := by
  have hrev : b.Revises (before.foldl Pass.step b.startPass).book :=
    .foldl_pass hb before (.takePending b)
  obtain ⟨i, hi, hmentions⟩ := mentions_step (hrev.wellFormed hb) hr.lawful hlinked
  obtain ⟨j, hj, hsame⟩ := get?_pass hb later (Revises.pass hb hrev r) hi
  have hseen : ∀ s ∈ later.filter fun s => s.source == r.source && b.contains s.target,
      (s.param = r.param ∧ r.param.kind = .collection) ∨ s.param.Independent r.param := by
    intro s hs
    obtain ⟨hs, hends⟩ := List.mem_filter.mp hs
    have hends : s.source = r.source ∧ b.contains s.target = true := by simpa using hends
    rcases hr.apart s hs hends.1 with hparam | hind
    · refine Or.inl ⟨hparam, hlast.resolve_right fun hnone => ?_⟩
      exact absurd ((hnone s hs hends.1 hparam).symm.trans hends.2) (by simp)
    · exact Or.inr hind
  refine ⟨j, ?_, (hmentions.foldl_linkedBy hr.lawful hseen).of_value? (hsame.value? _)⟩
  show (b.pending.foldl Pass.step b.startPass).book.get? r.source = some j
  rw [hpending, List.foldl_append]
  exact hj

/-! ### Resolutions -/

/-- No reference waits whose ends are both live. -/
def NoneReady (b : Book P) : Prop :=
  ∀ r ∈ b.pending, ¬ (b.contains r.source = true ∧ b.contains r.target = true)

theorem Resolved.noneReady {b : Book P} (h : b.Resolved) : b.NoneReady :=
  fun r hr hends => absurd ((h.target r hr).symm.trans hends.2) (by simp)

/-- What a resolution makes of the references that wait in a book. -/
structure Partition (b : Book P) : Prop where
  total : b.resolvePending.1.linked + b.resolvePending.1.remaining + b.resolvePending.1.dropped =
    b.pending.length
  waiting : b.resolvePending.2.pending =
    b.pending.filter fun r => b.contains r.source && !b.contains r.target
  linked : ∀ before r later, b.pending = before ++ r :: later → b.CountsLinked before r →
    r.Undisturbed later →
    (r.param.kind = .collection ∨
      ∀ s ∈ later, s.source = r.source → s.param = r.param → b.contains s.target = false) →
    ∃ i, b.resolvePending.2.get? r.source = some i ∧ i.Mentions r.param r.target
  live : ∀ e, b.resolvePending.2.contains e = b.contains e
  again : b.resolvePending.2.resolvePending =
    (⟨0, b.resolvePending.2.pending.length, 0⟩, b.resolvePending.2)

theorem partition_resolvePending {b : Book P} (hb : b.WellFormed) (hd : Distinct b.pending) :
    b.Partition where
  total := (counts_pass b.pending b.startPass).trans (Nat.zero_add _)
  waiting := by
    have hdistinct : Distinct
        (b.pending.filter fun r => b.contains r.source && !b.contains r.target) :=
      List.Nodup.sublist (List.filter_sublist.map _) hd
    rw [pending_resolvePending hb, foldl_addRecord_eq [] _ hdistinct, List.nil_append]
  linked _ _ _ := mentions_resolvePending hb
  live := (Revises.resolvePending hb).contains_eq
  again := (resolved_resolvePending hb hd).1.resolvePending

/-! ### Calls that copy -/

end Book

/-- Calls that copy entities. -/
def Call.isCopy : Call P → Bool
  | .copyEntity _ | .copyList _ | .copyCollection _ | .copyRecursive _ _
    | .copyCollectionRecursive _ _ => true
  | _ => false

/-- The report of a call that copies, for a single entity there is none. -/
def Call.report? (b : Book P) : Call P → Option Report
  | .copyList sources => some (b.copyList sources).1
  | .copyCollection sources => some (b.copyCollection sources).1
  | .copyRecursive source e => some (b.copyRecursive source e).1
  | .copyCollectionRecursive source tag => some (b.copyCollectionRecursive source tag).1
  | _ => none

namespace Book

/-- A call that copies and resolves does so at its end, and reports what waits on. -/
theorem exists_finish {c : Call P} (b : Book P) (hc : c.isCopy = true) (hr : c.resolves = true) :
    ∃ b', Acts b.suspend b' ∧ b.call c = b'.resolvePending.2.resume ∧
      ∀ report, c.report? b = some report → report.unresolved = b'.resolvePending.1.remaining := by
  have batch {s : Batch P} (h : Acts b.suspend s.book) (hcall : b.call c = s.finish.2)
      (hreport : c.report? b = some s.finish.1) :
      ∃ b', Acts b.suspend b' ∧ b.call c = b'.resolvePending.2.resume ∧
        ∀ report, c.report? b = some report →
          report.unresolved = b'.resolvePending.1.remaining := by
    refine ⟨s.book, h, hcall, fun report heq => ?_⟩
    cases hreport.symm.trans heq
    rfl
  cases c with
  | copyEntity source => exact ⟨_, Acts.copyOne b.suspend source, rfl, fun _ h => by cases h⟩
  | copyList sources => exact batch (Acts.copies b.suspend {} sources) rfl rfl
  | copyCollection sources =>
    exact batch (Acts.copies b.suspend { duplicates := b.countDuplicates sources } sources) rfl rfl
  | copyRecursive source e =>
    refine batch (.trans ?_ (Acts.walk source maxHops [e] [e] _)) rfl rfl
    split
    · next i _ => exact Acts.copy { book := b.suspend } i
    · exact .refl
  | copyCollectionRecursive source tag =>
    obtain ⟨l, hl⟩ := Option.isSome_iff_exists.mp hr
    have hacts := (Acts.copies b.suspend { duplicates := b.countDuplicates l } l).trans
      (Acts.walk source maxHops (l.map Instance.entity) (l.map Instance.entity) _)
    refine batch hacts ?_ ?_
    · simp [Book.call, copyCollectionRecursive, hl]
    · simp [Call.report?, copyCollectionRecursive, hl]
  | _ => cases hc

/-- A call that copies and does not resolve does nothing at all. -/
theorem idle_of_not_resolves {c : Call P} (b : Book P) (hc : c.isCopy = true)
    (hr : c.resolves = false) : b.call c = b ∧ c.report? b = some {} := by
  cases c with
  | copyCollectionRecursive source tag =>
    have hnone : source.collection? tag = none := by simpa [Call.resolves] using hr
    simp [Book.call, Call.report?, copyCollectionRecursive, hnone]
  | copyEntity | copyList | copyCollection | copyRecursive => cases hr
  | _ => cases hc

/-- A call that copies leaves nothing to link and reports all that waits. -/
structure Settles (b : Book P) (c : Call P) : Prop where
  settled : (b.call c).NoneReady
  reported : ∀ report, c.report? b = some report → report.unresolved = (b.call c).pending.length

theorem settles_of_resolves {b : Book P} (h : b.Reachable) {c : Call P} (hc : c.isCopy = true)
    (hr : c.resolves = true) : b.Settles c := by
  obtain ⟨b', hacts, hcall, hreport⟩ := exists_finish b hc hr
  have hstart : Steps b b.suspend := .single (.suspend b)
  have hsteps : Steps b b' := hstart.trans hacts.steps
  obtain ⟨hresolved, hremaining⟩ := resolved_resolvePending (hsteps.wellFormed h.wellFormed)
    (hsteps.distinct h.distinct)
  have hlast : (b.call c).Resolved := hcall ▸ hresolved.of_eq rfl rfl
  exact ⟨hlast.noneReady, fun report heq => by rw [hreport report heq, hremaining, hcall]; rfl⟩

/-- A call that copies settles what waits just if it resolves or nothing waits. -/
theorem settles_iff {b : Book P} (h : b.Reachable) {c : Call P} (hc : c.isCopy = true) :
    b.Settles c ↔ c.resolves = true ∨ b.pending = [] := by
  cases hr : c.resolves with
  | true => exact ⟨fun _ => Or.inl rfl, fun _ => settles_of_resolves h hc hr⟩
  | false =>
    obtain ⟨hcall, hreport⟩ := idle_of_not_resolves b hc hr
    constructor
    · intro hs
      have hlength := hs.reported {} hreport
      rw [hcall] at hlength
      exact Or.inr (List.length_eq_zero_iff.mp hlength.symm)
    · rintro (hf | hnone)
      · cases hf
      · refine ⟨?_, fun report heq => ?_⟩
        · rw [hcall]
          intro r hr
          rw [hnone] at hr
          cases hr
        · cases hreport.symm.trans heq
          rw [hcall, hnone]
          rfl

/-- In a book that can be reached no reference waits twice, and a resolution divides those
    that wait. A call that copies leaves nothing to link and reports what waits, unless it
    ends before it resolves while something waits. -/
theorem waiting_references_are_divided {b : Book P} (h : b.Reachable) :
    Distinct b.pending ∧ b.Partition ∧
      ∀ c : Call P, c.isCopy = true → (b.Settles c ↔ c.resolves = true ∨ b.pending = []) :=
  ⟨h.distinct, partition_resolvePending h.wellFormed h.distinct, fun _ hc => settles_iff h hc⟩

end Book

/-! ### A reference that is left waiting -/

/-- A copy of a node that refers to another one, which was made afterwards. -/
def Bag.expectant : Book bags :=
  (emptyBook 2).run [.copyList (ringNodes.take 1), .create "node" (node 2).guid]

theorem Bag.reachable_expectant : expectant.Reachable :=
  Book.Reachable.run (.blank _ {} wellFormed_nodes) _

/-- The parameter by which nodes refer to each other. -/
def Bag.nextParam : Param bags :=
  ({ kind := .reference "node", name := "next", compartment := "next" : Column }.param .alpha).val

/-- A resolution links the reference that waits; a copy of nothing does so, too. -/
theorem Book.reference_found :
    (∃ i, Bag.expectant.resolvePending.2.get? (Bag.node 1) = some i ∧
      i.Mentions Bag.nextParam (Bag.node 2)) ∧ Bag.expectant.Settles (.copyList []) := by
  have hpending : Bag.expectant.pending = [⟨Bag.node 1, Bag.nextParam, Bag.node 2⟩] := by rfl
  obtain ⟨_, hdivided, hsettles⟩ := waiting_references_are_divided Bag.reachable_expectant
  have hparam : Bag.nextParam ∈ Bag.nodeClass.copyable := List.mem_of_getElem? (i := 1) rfl
  have hundisturbed :
      ReferenceRecord.Undisturbed ⟨Bag.node 1, Bag.nextParam, Bag.node 2⟩ [] :=
    (Bag.isLawful_nodes Bag.nodeClass (List.mem_singleton_self _)).undisturbed
      (ObjectClass.wellFormed_build ..) hparam fun _ hs => by cases hs
  refine ⟨hdivided.linked [] _ [] hpending ?_ hundisturbed (Or.inr fun _ hs => by cases hs),
    (hsettles _ rfl).mpr (Or.inl rfl)⟩
  unfold Book.CountsLinked
  decide +kernel

/-- The copy of a collection that the source does not have leaves a reference waiting
    although both its ends are live, and does not report it. -/
theorem Book.reference_left_waiting :
    let c : Call bags := .copyCollectionRecursive (Bag.emptyBook 3) "node"
    Bag.expectant.Reachable ∧ c.isCopy = true ∧ ¬ (Bag.expectant.call c).NoneReady ∧
      (Bag.expectant.call c).pending.length = 1 ∧
      (c.report? Bag.expectant).map Report.unresolved = some 0 := by
  intro c
  have hready : ((Bag.expectant.call c).pending.any fun r =>
      (Bag.expectant.call c).contains r.source && (Bag.expectant.call c).contains r.target) =
        true := by decide +kernel
  obtain ⟨r, hr, hends⟩ := List.any_eq_true.mp hready
  exact ⟨Bag.reachable_expectant, rfl, fun hnone => hnone r hr (by simpa using hends),
    by decide +kernel, by decide +kernel⟩

end EntityBook
