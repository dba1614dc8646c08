import EntityBook.Proofs.Instance.InPlace
import EntityBook.Proofs.Payload.Bag

/-! # Access is all or nothing

  A write either puts the value there, and nothing else, or leaves the instance as it was,
  mark and edits included; so do writes of texts, copies and links. A link that is made
  again changes nothing, and a collection in which nothing is repeated stays one.
-/

namespace EntityBook

open Book (attempt)

variable {P : PayloadFamily}

namespace Instance

variable {i j : Instance P} {p q : Param P} {v : ParamValue}

/-! ### Links made again -/

/-- The value that a link writes, unless the entity is a member already. -/
theorem link_cases {t : Entity} (h : i.link p t = .ok j) :
    (p.kind ≠ .collection ∧
      ∃ v, (∀ k : Instance P, k.link p t = k.write p v) ∧ i.write p v = .ok j) ∨
    ∃ members, i.value? p.accessor = some (.collection members) ∧
      (t.guid ∈ members ∧ j = i ∨
        t.guid ∉ members ∧ i.write p (.collection (members ++ [t.guid])) = .ok j) := by
  unfold link at h
  cases ha : p.accessor with
  | scalar | slots | book =>
    rw [ha] at h
    cases h
  | reference _ f =>
    rw [ha] at h
    refine .inl ⟨by simp [Param.kind, ha, Accessor.kind], _, fun k => ?_, h⟩
    unfold link
    rw [ha]
  | choice f =>
    rw [ha] at h
    refine .inl ⟨by simp [Param.kind, ha, Accessor.kind], _, fun k => ?_, h⟩
    unfold link
    rw [ha]
  | collection _ f =>
    right
    simp only [ha] at h
    split at h
    · cases h
    · next members hm =>
      refine ⟨members, congrArg (Option.map ParamValue.collection) hm, ?_⟩
      split at h
      · next hin =>
        cases h
        exact .inl ⟨by simpa using hin, rfl⟩
      · next hin => exact .inr ⟨by simpa using hin, h⟩

/-- An entity that is a member is not added. -/
theorem link_of_mem {t : Entity} {members : List Guid}
    (hv : i.value? p.accessor = some (.collection members)) (ht : t.guid ∈ members) :
    i.link p t = .ok i := by
  unfold link
  have hkind := hasKind_value hv
  cases ha : p.accessor with
  | collection _ f =>
    rw [ha] at hv
    obtain ⟨ms, hms, heq⟩ := Option.map_eq_some_iff.mp hv
    cases heq
    dsimp only
    rw [hms]
    exact if_pos (by simpa using ht)
  | _ =>
    rw [ha] at hkind
    cases hkind

/-- One instance is another one after a step that repeats the one before: at most the
    payload is another, and what is read of the parameter and of all others that share no
    storage with it is the same. -/
structure Repeats (p : Param P) (j k : Instance P) : Prop where
  rest : k = { j with payload := k.payload }
  self : k.read p = j.read p
  others : ∀ q, p.Apart q → k.read q = j.read q

theorem Repeats.refl (p : Param P) (i : Instance P) : Repeats p i i := ⟨rfl, rfl, fun _ _ => rfl⟩

/-- A value that was written can be written again, and nothing is seen of it. -/
theorem exists_write_again (lawful : p.accessor.IsLawful) (h : i.write p v = .ok j) :
    ∃ k, j.write p v = .ok k ∧ Repeats p j k := by
  obtain ⟨hv, hro, hfor⟩ := exists_write_iff.mp ⟨j, h⟩
  obtain ⟨k, hk⟩ := exists_write hro ((rewrites_write h).payload ▸ hfor) hv
  refine ⟨k, hk, ?_, ?_, ?_⟩
  · have hdirty : j.dirty = true := dirty_of_write h
    rcases write_storage hk with ⟨frame, ha, rfl, rfl⟩ | ⟨f, set, d, w, _, _, _, rfl⟩
    · unfold write at h
      rw [ha] at h
      cases h
      rfl
    · obtain ⟨_, _, _, _, _, _, _⟩ := j
      cases hdirty
      rfl
  · rw [read_of_value (value?_write_self lawful hk), read_of_value (value?_write_self lawful h)]
  · intro q hq
    exact read_congr (rewrites_write hk).entity (value?_write_of_apart hq hk)

/-- A link that is made again does what is done already. A collection has the member, so the
    instance stays; a single reference is written again, which leaves the instance too if
    its field can be set twice. -/
theorem exists_link_again (lawful : p.accessor.IsLawful) {t : Entity} (h : i.link p t = .ok j) :
    ∃ k, j.link p t = .ok k ∧ Repeats p j k ∧ (p.IsStable ∨ p.kind = .collection → k = j) := by
  rcases link_cases h with ⟨hkind, v, hlink, hw⟩ | ⟨members, hv, ⟨hin, rfl⟩ | ⟨hnot, hw⟩⟩
  · obtain ⟨k, hk, hsame⟩ := exists_write_again lawful hw
    refine ⟨k, (hlink j).trans hk, hsame, ?_⟩
    rintro (hstable | hcollection)
    · cases (write_twice hstable hw).symm.trans hk
      rfl
    · exact absurd hcollection hkind
  · exact ⟨j, link_of_mem hv hin, .refl p j, fun _ => rfl⟩
  · have hself := value?_write_self lawful hw
    exact ⟨j, link_of_mem hself (by simp), .refl p j, fun _ => rfl⟩

/-! ### All or nothing -/

/-- The accesses to a parameter in place are what a book runs inside its edits. -/
structure RunsInPlace (i : Instance P) (p : Param P) : Prop where
  write : ∀ v, attempt (fun i => (i.write p v).map fun j => ((), j)) i = i.writeInPlace p v
  writeText : ∀ s,
    attempt (fun i => (i.writeText p s).map fun j => ((), j)) i = i.writeTextInPlace p s
  link : ∀ t, attempt (fun i => (i.link p t).map fun j => ((), j)) i = i.linkInPlace p t
  copy : ∀ source : Instance P, attempt (fun i => source.copyParam i p) i = copyInPlace source i p

theorem attempt_eq_inPlace (f : Instance P → Except StoreError (Instance P)) (i : Instance P) :
    attempt (fun i => (f i).map fun j => ((), j)) i = i.inPlace (f i) := by
  unfold attempt inPlace
  dsimp only
  cases f i <;> rfl

theorem runsInPlace (i : Instance P) (p : Param P) : i.RunsInPlace p where
  write v := (attempt_eq_inPlace _ i).trans (writeInPlace_eq i p v).symm
  writeText s := (attempt_eq_inPlace _ i).trans (writeTextInPlace_eq i p s).symm
  link t := (attempt_eq_inPlace _ i).trans (linkInPlace_eq i p t).symm
  copy source := (copyInPlace_eq source i p).symm

theorem inPlace_eq_ok {r : Except StoreError (Instance P)} :
    i.inPlace r = (.ok (), j) ↔ r = .ok j := by
  cases r <;> simp [inPlace]

theorem inPlace_eq_error {r : Except StoreError (Instance P)} {err : StoreError}
    (h : i.inPlace r = (.error err, j)) : j = i := by
  cases r with
  | ok k => cases h
  | error e =>
    cases h
    rfl

theorem copyInPlace_eq_error {source : Instance P} {err : StoreError}
    (h : copyInPlace source i p = (.error err, j)) : j = i := by
  rw [copyInPlace_eq] at h
  unfold attempt at h
  split at h
  · cases h
  · cases h
    rfl

/-- After a link a collection has the member once more than before, that is, once. -/
theorem members_link (lawful : p.accessor.IsLawful) {t : Entity} {members : List Guid}
    (hv : i.value? p.accessor = some (.collection members)) (h : i.link p t = .ok j) :
    j.value? p.accessor =
      some (.collection (if t.guid ∈ members then members else members ++ [t.guid])) := by
  rcases link_cases h with ⟨hkind, _⟩ | ⟨own, hown, ⟨hin, rfl⟩ | ⟨hnot, hw⟩⟩
  · have hshape := hasKind_value hv
    unfold Param.kind at hkind
    cases ha : p.accessor with
    | collection => exact absurd (by rw [ha]; rfl) hkind
    | _ =>
      rw [ha] at hshape
      cases hshape
  · cases hown.symm.trans hv
    rw [if_pos hin]
    exact hv
  · cases hown.symm.trans hv
    rw [if_neg hnot]
    exact value?_write_self lawful hw

/-- Access to a parameter is all or nothing, step by step.

    A write succeeds just if the value has the shape of the parameter, the parameter can be
    written and the payload is of its type. Then every parameter that shares no storage with
    this one reads as before, the instance is marked and, if the accessor is lawful, the value
    is read. Whatever is answered with an error, be it a write, a text, a copy or a link,
    leaves the instance as it was. With a lawful accessor a link that is made again is seen
    by nobody, and it repeats no member. -/
theorem access_is_all_or_nothing (i : Instance P) (p : Param P) :
    i.RunsInPlace p ∧
    (∀ v, (∃ j, i.writeInPlace p v = (.ok (), j)) ↔
      v.HasKind p.kind ∧ p.isReadOnly = false ∧ p.isFor i.payload.type = true) ∧
    (∀ v j, i.writeInPlace p v = (.ok (), j) →
      (p.accessor.IsLawful → j.read p = .ok v) ∧ (∀ q, p.Apart q → j.read q = i.read q) ∧
        j.dirty = true ∧ j.level = i.level) ∧
    (∀ v err j, i.writeInPlace p v = (.error err, j) → j = i) ∧
    (∀ s err j, i.writeTextInPlace p s = (.error err, j) → j = i) ∧
    (∀ source err j, copyInPlace source i p = (.error err, j) → j = i) ∧
    (∀ t err j, i.linkInPlace p t = (.error err, j) → j = i) ∧
    (p.accessor.IsLawful → ∀ t j, i.linkInPlace p t = (.ok (), j) →
      ∃ k, j.linkInPlace p t = (.ok (), k) ∧ Repeats p j k ∧
        (p.IsStable ∨ p.kind = .collection → k = j)) ∧
    (p.accessor.IsLawful → ∀ t j members, i.linkInPlace p t = (.ok (), j) →
      i.read p = .ok (.collection members) → members.Nodup →
        ∃ members', j.read p = .ok (.collection members') ∧ members'.Nodup) := by
  refine ⟨runsInPlace i p, ?_, ?_, ?_, ?_, ?_, ?_, ?_, ?_⟩
  · intro v
    simp only [writeInPlace_eq, inPlace_eq_ok]
    exact exists_write_iff
  · intro v j h
    rw [writeInPlace_eq, inPlace_eq_ok] at h
    have hrw := rewrites_write h
    refine ⟨?_, ?_, dirty_of_write h, hrw.level⟩
    · intro lawful
      exact read_of_value (value?_write_self lawful h)
    · intro q hq
      exact read_congr hrw.entity (value?_write_of_apart hq h)
  · intro v err j h
    rw [writeInPlace_eq] at h
    exact inPlace_eq_error h
  · intro s err j h
    rw [writeTextInPlace_eq] at h
    exact inPlace_eq_error h
  · intro source err j h
    exact copyInPlace_eq_error h
  · intro t err j h
    rw [linkInPlace_eq] at h
    exact inPlace_eq_error h
  · intro lawful t j h
    rw [linkInPlace_eq, inPlace_eq_ok] at h
    obtain ⟨k, hk, hsame, hstays⟩ := exists_link_again lawful h
    exact ⟨k, by rw [linkInPlace_eq, inPlace_eq_ok, hk], hsame, hstays⟩
  · intro lawful t j members h hread hnodup
    rw [linkInPlace_eq, inPlace_eq_ok] at h
    refine ⟨_, read_of_value (members_link lawful (value?_of_read hread) h), ?_⟩
    split
    · exact hnodup
    · next hnot =>
      rw [← List.concat_eq_append]
      exact List.Nodup.concat hnot hnodup

/-! ### A node that is being written -/

section Nodes

open Bag

/-- The members of a node. -/
def nodeParts : Param bags :=
  (Bag.param .alpha .collection "node" false "parts" "parts").val

/-- A node that nothing was written to. -/
def blankNode : Instance bags := (emptyBook 1).newborn (node 1) ⟨.alpha, .empty⟩

/-- A blank node takes a member and keeps its label; the same member again changes nothing,
    and a value of another shape leaves it as it is. -/
theorem blank_node_takes_member :
    nodeParts.accessor.IsLawful ∧
    (∃ j, blankNode.linkInPlace nodeParts (node 2) = (.ok (), j) ∧
      j.linkInPlace nodeParts (node 2) = (.ok (), j) ∧
      ∃ members, j.read nodeParts = .ok (.collection members) ∧ members.Nodup) ∧
    (∃ j, blankNode.writeInPlace nodeParts (.collection [(node 2).guid]) = (.ok (), j) ∧
      j.read nodeParts = .ok (.collection [(node 2).guid]) ∧
      j.read nodeLabel = blankNode.read nodeLabel ∧ j.dirty = true) ∧
    ∃ err, blankNode.writeInPlace nodeParts (.slots .empty) = (.error err, blankNode) := by
  have lawful : nodeParts.accessor.IsLawful := isLawful_accessor .collection "node" false "parts"
  have hapart : nodeParts.Apart nodeLabel :=
    Column.Apart.param (x := ⟨.collection, "node", false, "parts", "parts"⟩)
      (y := ⟨.scalar .string, "", false, "label", "label"⟩) (by decide)
  obtain ⟨_, hok, hwrite, herror, _, _, _, hlink, hmembers⟩ :=
    access_is_all_or_nothing blankNode nodeParts
  refine ⟨lawful, ?_, ?_, ?_⟩
  · cases h : blankNode.linkInPlace nodeParts (node 2) with
    | mk r j =>
      have hr : r = .ok () := (congrArg Prod.fst h).symm.trans rfl
      subst hr
      obtain ⟨k, hk, _, hstays⟩ := hlink lawful _ _ h
      cases hstays (.inr rfl)
      exact ⟨_, rfl, hk, hmembers lawful _ _ [] h rfl .nil⟩
  · obtain ⟨j, hj⟩ := (hok (.collection [(node 2).guid])).mpr ⟨trivial, rfl, rfl⟩
    obtain ⟨hread, hothers, hdirty, _⟩ := hwrite _ _ hj
    exact ⟨j, hj, hread lawful, hothers _ hapart, hdirty⟩
  · cases h : blankNode.writeInPlace nodeParts (.slots .empty) with
    | mk r j =>
      have hr : r = .error (.unsupported "parts" "collection") :=
        (congrArg Prod.fst h).symm.trans rfl
      subst hr
      exact ⟨_, by rw [herror _ _ _ h]⟩

end Nodes

end Instance

end EntityBook
