import EntityBook.Proofs.Copy.One
import EntityBook.Proofs.Copy.References
import EntityBook.Proofs.Payload.Bag

/-! # The closure of a recursive copy

  A recursive copy treats every entity within two hops of its roots once and no
  other. `Covers` is the invariant: the batch after the entities of a list were
  treated, in whatever order they came. Each hop extends the list by what is one
  reference further away, so the distance is the number of hops.
-/

namespace EntityBook

variable {P : PayloadFamily}

/-! ### What a report names -/

namespace Report

/-- The entities that a report names, each as often as it does. -/
def mentioned (r : Report) : List Entity := r.copied ++ r.skipped ++ r.failed.map (·.1)

theorem count_singleton_eq (e a : Entity) : [e].count a = if a = e then 1 else 0 := by
  by_cases h : a = e
  · simp [h]
  · simp [h, Ne.symm h]

theorem count_mentioned_skip (r : Report) (e a : Entity) :
    (r.skip e).mentioned.count a = r.mentioned.count a + if a = e then 1 else 0 := by
  simp only [mentioned, skip, List.count_append, count_singleton_eq]
  omega

/-- Recording an entity names it once more, whatever became of it. -/
theorem count_mentioned_record (r : Report) (e : Entity) (result : Except CopyError Entity)
    (a : Entity) :
    (r.record e result).mentioned.count a = r.mentioned.count a + if a = e then 1 else 0 := by
  have failed (err : CopyError) :
      ({ r with failed := r.failed ++ [(e, err)] } : Report).mentioned.count a =
        r.mentioned.count a + if a = e then 1 else 0 := by
    simp only [mentioned, List.map_append, List.map_cons, List.map_nil, List.count_append,
      count_singleton_eq]
    omega
  cases result with
  | ok _ =>
    simp only [mentioned, record, List.count_append, count_singleton_eq]
    omega
  | error err =>
    cases err with
    | alreadyPresent _ => exact count_mentioned_skip r e a
    | notCompliant | construct | rejected | missing | store => exact failed _

end Report

namespace Book

/-! ### The invariant -/

/-- An entity of which a recursive copy gives account: a root always, any other
    entity if one of the books held it. -/
def Accountable (source dest : Book P) (roots : Entity → Prop) (e : Entity) : Prop :=
  roots e ∨ source.contains e = true ∨ dest.contains e = true

/-- A batch after the entities of a list were treated. -/
structure Batch.Covers (source dest : Book P) (roots : Entity → Prop) (done : List Entity)
    (s : Batch P) : Prop where
  wellFormed : s.book.WellFormed
  registry : s.book.registry = dest.registry
  live : ∀ e, s.book.contains e = true ↔
    dest.contains e = true ∨ (e ∈ done ∧ source.contains e = true ∧ dest.Accepts e.typeTag)
  once : ∀ e, e ∈ done → Accountable source dest roots e → s.report.mentioned.count e = 1
  silent : ∀ e, ¬ (e ∈ done ∧ Accountable source dest roots e) → s.report.mentioned.count e = 0

namespace Batch.Covers

variable {source dest : Book P} {roots : Entity → Prop} {done : List Entity} {s : Batch P}

theorem start (hd : dest.WellFormed) (duplicates : Nat) :
    Covers source dest roots [] { book := dest.suspend, report := { duplicates } } where
  wellFormed := (Revises.suspend dest).wellFormed hd
  registry := rfl
  live e := by simp [(Revises.suspend dest).contains_eq e]
  once e he := by cases he
  silent e _ := rfl

/-- An entity that was not treated before and is named now is named once. -/
theorem extend {t : Batch P} (h : Covers source dest roots done s) {e : Entity} (he : e ∉ done)
    (hw : t.book.WellFormed) (hr : t.book.registry = s.book.registry)
    (hl : ∀ a, t.book.contains a = true ↔
      s.book.contains a = true ∨ (a = e ∧ source.contains a = true ∧ dest.Accepts a.typeTag))
    (ha : Accountable source dest roots e)
    (hc : ∀ a, t.report.mentioned.count a =
      s.report.mentioned.count a + if a = e then 1 else 0) :
    Covers source dest roots (e :: done) t where
  wellFormed := hw
  registry := hr.trans h.registry
  live a := by
    rw [hl, h.live, List.mem_cons]
    constructor
    · rintro ((hd | ⟨hm, hs⟩) | ⟨hae, hs⟩)
      · exact Or.inl hd
      · exact Or.inr ⟨Or.inr hm, hs⟩
      · exact Or.inr ⟨Or.inl hae, hs⟩
    · rintro (hd | ⟨hae | hm, hs⟩)
      · exact Or.inl (Or.inl hd)
      · exact Or.inr ⟨hae, hs⟩
      · exact Or.inl (Or.inr ⟨hm, hs⟩)
  -- The entity `e` is counted once, by `hc`, and nothing named it before.
  once a hm hacc := by
    rw [hc]
    by_cases hae : a = e
    · subst hae
      rw [h.silent a fun hx => he hx.1, if_pos rfl]
    · rw [if_neg hae]
      exact h.once a ((List.mem_cons.mp hm).resolve_left hae) hacc
  silent a hn := by
    rw [hc]
    by_cases hae : a = e
    · subst hae
      exact absurd ⟨List.mem_cons_self, ha⟩ hn
    · rw [if_neg hae]
      exact h.silent a fun hx => hn ⟨List.mem_cons_of_mem e hx.1, hx.2⟩

/-- An entity of neither book that is no root leaves no trace. -/
theorem pass (h : Covers source dest roots done s) {e : Entity}
    (hs : source.contains e = false) (hn : ¬ Accountable source dest roots e) :
    Covers source dest roots (e :: done) s where
  wellFormed := h.wellFormed
  registry := h.registry
  live a := by
    rw [h.live, List.mem_cons]
    constructor
    · rintro (hd | ⟨hm, hx⟩)
      · exact Or.inl hd
      · exact Or.inr ⟨Or.inr hm, hx⟩
    -- The live set does not grow: the source does not hold `e`.
    · rintro (hd | ⟨rfl | hm, hx⟩)
      · exact Or.inl hd
      · rw [hs] at hx
        cases hx.1
      · exact Or.inr ⟨hm, hx⟩
  once a hm hacc := by
    rcases List.mem_cons.mp hm with rfl | hm
    · exact absurd hacc hn
    · exact h.once a hm hacc
  silent a hx := h.silent a fun hy => hx ⟨List.mem_cons_of_mem e hy.1, hy.2⟩

/-! ### One entity -/

theorem accepts_iff (h : Covers source dest roots done s) (tag : TypeTag) :
    s.book.Accepts tag ↔ dest.Accepts tag := by
  unfold Accepts
  rw [h.registry]

/-- Copying a live entity of the source. -/
theorem copy (h : Covers source dest roots done s) (hsource : source.WellFormed) {e : Entity}
    {i : Instance P} (hi : source.get? e = some i) (he : e ∉ done) :
    Covers source dest roots (e :: done) (s.copy i) := by
  have hfit := hsource.fits e i hi
  have hlive : source.contains e = true := contains_of_some hi
  have hguid : i.entity.guid.isNull = false := by
    rw [hfit.entity]
    exact hfit.guid
  obtain ⟨hw, hr, hl⟩ := copyOne_spec h.wellFormed hguid
  refine h.extend he hw hr (fun a => ?_) (Or.inr (Or.inl hlive)) fun a => ?_
  -- The live set grows by `e`, if the classes of the destination accept it.
  · refine (hl a).trans (or_congr_right ?_)
    rw [hfit.entity]
    constructor
    · rintro ⟨rfl, ha⟩
      exact ⟨rfl, hlive, (h.accepts_iff _).mp ha⟩
    · rintro ⟨rfl, _, ha⟩
      exact ⟨rfl, (h.accepts_iff _).mpr ha⟩
  · refine (Report.count_mentioned_record _ _ _ a).trans ?_
    rw [hfit.entity]

/-- Reporting a root that the source does not hold. -/
theorem miss (h : Covers source dest roots done s) {e : Entity} (hs : source.get? e = none)
    (he : e ∉ done) (hroot : roots e) :
    Covers source dest roots (e :: done)
      { s with report := s.report.record e (.error (.missing e)) } := by
  refine h.extend he h.wellFormed rfl (fun a => ?_) (Or.inl hroot)
    (Report.count_mentioned_record _ _ _)
  constructor
  · exact Or.inl
  · rintro (hl | ⟨rfl, hl, _⟩)
    · exact hl
    · unfold contains at hl
      rw [hs] at hl
      cases hl

/-- Following a reference to an entity that is no root. -/
theorem follow (h : Covers source dest roots done s) (hsource : source.WellFormed) {e : Entity}
    (he : e ∉ done) (hroot : ¬ roots e) :
    Covers source dest roots (e :: done) (s.follow source e) := by
  unfold Batch.follow
  split
  -- Live in the batch, so skipped: the destination held it from the start.
  · next hc =>
    have hd : dest.contains e = true := by
      rcases (h.live e).mp hc with hd | ⟨hm, _⟩
      · exact hd
      · exact absurd hm he
    refine h.extend he h.wellFormed rfl (fun a => ⟨Or.inl, ?_⟩) (Or.inr (Or.inr hd))
      (Report.count_mentioned_skip _ _)
    rintro (hl | ⟨rfl, _⟩)
    · exact hl
    · exact hc
  -- Not live in the batch: a live entity of the source is copied, any other passed over.
  · next hc =>
    cases hi : source.get? e with
    | some i => exact h.copy hsource hi he
    | none =>
      have hs : source.contains e = false := contains_of_none hi
      refine h.pass hs ?_
      rintro (hr | hl | hl)
      · exact hroot hr
      · rw [hs] at hl
        cases hl
      · exact hc ((h.live e).mpr (Or.inl hl))

/-! ### Many entities -/

theorem foldl_follow (h : Covers source dest roots done s) (hsource : source.WellFormed)
    {l : List Entity} (hl : l.Nodup) (hdone : ∀ e ∈ l, e ∉ done) (hroots : ∀ e ∈ l, ¬ roots e) :
    Covers source dest roots (l.reverse ++ done) (l.foldl (Batch.follow source) s) := by
  -- Induction on the entities to follow; `done` grows by each of them.
  induction l generalizing done s with
  | nil => exact h
  | cons e rest ih =>
    obtain ⟨hn, hrest⟩ := List.nodup_cons.mp hl
    have hstep := h.follow hsource (hdone e List.mem_cons_self) (hroots e List.mem_cons_self)
    rw [List.reverse_cons, List.append_assoc]
    refine ih hstep hrest (fun a ha hm => ?_) fun a ha => hroots a (List.mem_cons_of_mem e ha)
    rcases List.mem_cons.mp hm with rfl | hm
    · exact hn ha
    · exact hdone a (List.mem_cons_of_mem e ha) hm

theorem foldl_copy (h : Covers source dest roots done s) (hsource : source.WellFormed)
    {l : List (Instance P)} (hl : (l.map Instance.entity).Nodup)
    (hlive : ∀ i ∈ l, source.get? i.entity = some i) (hdone : ∀ i ∈ l, i.entity ∉ done) :
    Covers source dest roots ((l.map Instance.entity).reverse ++ done) (l.foldl Batch.copy s) := by
  induction l generalizing done s with
  | nil => exact h
  | cons i rest ih =>
    obtain ⟨hn, hrest⟩ := List.nodup_cons.mp hl
    have hstep := h.copy hsource (hlive i List.mem_cons_self) (hdone i List.mem_cons_self)
    rw [List.map_cons, List.reverse_cons, List.append_assoc]
    refine ih hstep hrest (fun a ha => hlive a (List.mem_cons_of_mem i ha)) fun a ha hm => ?_
    rcases List.mem_cons.mp hm with heq | hm
    · exact hn (List.mem_map.mpr ⟨a, ha, heq⟩)
    · exact hdone a (List.mem_cons_of_mem i ha) hm

/-! ### The walk -/

/-- The order in which entities were treated does not matter. -/
theorem of_mem_iff {done' : List Entity} (h : Covers source dest roots done s)
    (hm : ∀ e, e ∈ done' ↔ e ∈ done) : Covers source dest roots done' s where
  wellFormed := h.wellFormed
  registry := h.registry
  live e := by
    rw [h.live, hm]
  once e he := h.once e ((hm e).mp he)
  silent e hn := h.silent e fun hx => hn ⟨(hm e).mpr hx.1, hx.2⟩

/-- After so many hops the walk has treated what lies within so many references
    more. The frontier need not be all that was seen, as long as every reference
    of what was seen leads to something seen or starts at the frontier too. -/
theorem walk (hsource : source.WellFormed) (hops : Nat) {n : Nat} {seen frontier : List Entity}
    (h : Covers source dest roots seen s)
    (hseen : ∀ e, e ∈ seen ↔ source.Within roots n e)
    (hfrontier : ∀ e ∈ frontier, e ∈ seen)
    (hclosed : ∀ d ∈ seen, ∀ e, source.Refers d e →
      e ∈ seen ∨ ∃ f ∈ frontier, source.Refers f e) :
    ∃ done, Covers source dest roots done (s.walk source hops seen frontier) ∧
      ∀ e, e ∈ done ↔ source.Within roots (n + hops) e := by
  induction hops generalizing n seen frontier s with
  | zero => exact ⟨seen, h, hseen⟩
  | succ hops ih =>
    unfold Batch.walk
    generalize hnext : unseen seen (frontier.flatMap source.referencesOf) = next
    have hmem (e : Entity) :
        e ∈ next ↔ (∃ f ∈ frontier, source.Refers f e) ∧ e ∉ seen := by
      rw [← hnext, mem_unseen, List.mem_flatMap]
      simp only [mem_referencesOf]
    have hcovers : Covers source dest roots (next.reverse ++ seen)
        (next.foldl (Batch.follow source) s) := by
      refine h.foldl_follow hsource (hnext ▸ nodup_unseen _ _)
        (fun e he => ((hmem e).mp he).2) fun e he hr => ((hmem e).mp he).2 ?_
      exact (hseen e).mpr ⟨e, hr, 0, Nat.zero_le n, .here e⟩
    have hgrown (e : Entity) : e ∈ next.reverse ++ seen ↔ source.Within roots (n + 1) e := by
      rw [within_succ, List.mem_append, List.mem_reverse, hmem]
      constructor
      · rintro (⟨⟨f, hf, hr⟩, _⟩ | hs)
        · exact Or.inr ⟨f, (hseen f).mp (hfrontier f hf), hr⟩
        · exact Or.inl ((hseen e).mp hs)
      · rintro (hs | ⟨d, hd, hr⟩)
        · exact Or.inr ((hseen e).mpr hs)
        · by_cases he : e ∈ seen
          · exact Or.inr he
          · exact Or.inl ⟨(hclosed d ((hseen d).mpr hd) e hr).resolve_left he, he⟩
    obtain ⟨done, hdone, hwithin⟩ := ih hcovers hgrown
      (fun e he => List.mem_append_left _ (List.mem_reverse.mpr he)) fun d hd e hr => by
        -- What is new refers from the frontier, what was seen refers to what is seen by now.
        rcases List.mem_append.mp hd with hd | hd
        · exact Or.inr ⟨d, List.mem_reverse.mp hd, hr⟩
        · rcases hclosed d hd e hr with hs | hf
          · exact Or.inl (List.mem_append_right _ hs)
          · by_cases he : e ∈ seen
            · exact Or.inl (List.mem_append_right _ he)
            · exact Or.inl (List.mem_append_left _ (List.mem_reverse.mpr ((hmem e).mpr ⟨hf, he⟩)))
    refine ⟨done, hdone, fun e => ?_⟩
    rw [hwithin e, show n + 1 + hops = n + (hops + 1) by omega]

end Batch.Covers

/-! ### Recursive copies -/

/-- What a recursive copy of all that lies within two hops of the roots comes to:
    the report and the destination. -/
structure IsTwoHopCopy (source dest : Book P) (roots : Entity → Prop)
    (result : Report × Book P) : Prop where
  /-- The live set grows by what the source holds and the destination accepts. -/
  live : ∀ e, result.2.contains e = true ↔ dest.contains e = true ∨
    (source.Within roots 2 e ∧ source.contains e = true ∧ dest.Accepts e.typeTag)
  /-- Roots and what one of the books held are named once. -/
  once : ∀ e, source.Within roots 2 e →
    (roots e ∨ source.contains e = true ∨ dest.contains e = true) →
    result.1.mentioned.count e = 1
  /-- What neither book held is not named, unless it is a root. -/
  silent : ∀ e, ¬ roots e → source.contains e = false → dest.contains e = false →
    e ∉ result.1.mentioned
  /-- Nothing further away is named, let alone copied. -/
  near : ∀ e, e ∈ result.1.mentioned → source.Within roots 2 e

/-- The end of a call leaves live sets and what was reported. -/
theorem Batch.Covers.finish {source dest : Book P} {roots : Entity → Prop} {done : List Entity}
    {s : Batch P} (h : Covers source dest roots done s)
    (hdone : ∀ e, e ∈ done ↔ source.Within roots 2 e) :
    IsTwoHopCopy source dest roots s.finish where
  live e := by
    -- Resolving the pending references revises the book, so what is live stays live.
    have hrev := (Revises.resolvePending h.wellFormed).trans (.resume _)
    rw [← hdone, ← h.live e]
    exact iff_of_eq (congrArg (· = true) (hrev.contains_eq e))
  once e he hacc := h.once e ((hdone e).mpr he) hacc
  silent e hr hs hd := by
    refine List.count_eq_zero.mp (h.silent e ?_)
    rintro ⟨_, hacc | hacc | hacc⟩
    · exact hr hacc
    · rw [hs] at hacc
      cases hacc
    · rw [hd] at hacc
      cases hacc
  near e he := by
    by_contra hn
    refine List.count_eq_zero.mp (h.silent e fun hx => hn ?_) he
    exact (hdone e).mp hx.1

/-- Starting with the roots, the walk treats what lies within two hops of them. -/
theorem Batch.Covers.closure {source dest : Book P} (hsource : source.WellFormed)
    {roots : Entity → Prop} {seen frontier : List Entity} {s : Batch P}
    (h : Covers source dest roots seen s) (hseen : ∀ e, e ∈ seen ↔ roots e)
    (hfrontier : ∀ e, e ∈ frontier ↔ e ∈ seen) :
    IsTwoHopCopy source dest roots (s.walk source maxHops frontier frontier).finish := by
  have hroots (e : Entity) : e ∈ frontier ↔ source.Within roots 0 e := by
    rw [within_zero, hfrontier, hseen]
  obtain ⟨done, hdone, hwithin⟩ := (h.of_mem_iff hfrontier).walk hsource maxHops hroots
    (fun e he => he) fun d hd e hr => Or.inr ⟨d, hd, hr⟩
  exact hdone.finish fun e => by rw [hwithin e, Nat.zero_add, maxHops]

/-- A recursive copy of one entity is exact. -/
theorem isTwoHopCopy_copyRecursive {source dest : Book P} (hsource : source.WellFormed)
    (hdest : dest.WellFormed) (e : Entity) :
    IsTwoHopCopy source dest (· = e) (dest.copyRecursive source e) := by
  have hstart : Batch.Covers source dest (· = e) [] { book := dest.suspend } := .start hdest 0
  unfold copyRecursive
  dsimp only
  cases hi : source.get? e with
  | some i =>
    exact (hstart.copy hsource hi (by simp)).closure hsource (by simp) fun _ => Iff.rfl
  | none =>
    exact (hstart.miss hi (by simp) rfl).closure hsource (by simp) fun _ => Iff.rfl

/-- A recursive copy of a collection is exact. -/
theorem isTwoHopCopy_copyCollectionRecursive {source dest : Book P}
    (hsource : source.WellFormed) (hdest : dest.WellFormed) (tag : TypeTag) :
    IsTwoHopCopy source dest (fun e => source.contains e = true ∧ e.typeTag = tag)
      (dest.copyCollectionRecursive source tag) := by
  unfold copyCollectionRecursive
  cases hl : source.collection? tag with
  -- No collection: there are no roots, so nothing is within reach and nothing is named.
  | none =>
    have hno (e : Entity) : ¬ (source.contains e = true ∧ e.typeTag = tag) := fun h =>
      typeTag_ne_of_collection?_none hsource hl h.1 h.2
    have hfar (n : Nat) (e : Entity) :
        ¬ source.Within (fun e => source.contains e = true ∧ e.typeTag = tag) n e := by
      rintro ⟨r, hr, _⟩
      exact hno r hr
    refine ⟨fun e => by simp [hfar], fun e he => absurd he (hfar 2 e), fun e _ _ _ he => ?_,
      fun e he => ?_⟩
    · cases he
    · cases he
  -- The live members are the roots, and the walk starts from them.
  | some l =>
    have hmem (e : Entity) := mem_entities_collection? hsource hl (e := e)
    refine Batch.Covers.closure hsource ((Batch.Covers.start hdest _).foldl_copy hsource
      (nodup_entities_collection? hsource hl)
      (fun i hi => ((mem_collection? hsource hl).mp hi).1) (by simp)) ?_ ?_
    · intro e
      rw [List.append_nil, List.mem_reverse]
      exact hmem e
    · intro e
      rw [List.append_nil, List.mem_reverse]

/-- Recursive copies are exact: of an entity and of a collection, for any graph of
    references, and whatever the classes and the backend of the destination. -/
theorem recursive_copies_are_exact {source dest : Book P} (hsource : source.WellFormed)
    (hdest : dest.WellFormed) :
    (∀ e, IsTwoHopCopy source dest (· = e) (dest.copyRecursive source e)) ∧
    ∀ tag, IsTwoHopCopy source dest (fun e => source.contains e = true ∧ e.typeTag = tag)
      (dest.copyCollectionRecursive source tag) :=
  ⟨isTwoHopCopy_copyRecursive hsource hdest, isTwoHopCopy_copyCollectionRecursive hsource hdest⟩

/-- Of a ring of four nodes, the one opposite to the root is not copied. -/
theorem recursive_copy_of_ring :
    Bag.ring.WellFormed ∧ (Bag.emptyBook 2).WellFormed ∧
    IsTwoHopCopy Bag.ring (Bag.emptyBook 2) (· = Bag.node 1)
      ((Bag.emptyBook 2).copyRecursive Bag.ring (Bag.node 1)) ∧
    ((Bag.emptyBook 2).copyRecursive Bag.ring (Bag.node 1)).1.copied =
      [Bag.node 1, Bag.node 2, Bag.node 3] :=
  ⟨Bag.wellFormed_ring, Bag.wellFormed_emptyBook 2,
    (recursive_copies_are_exact Bag.wellFormed_ring (Bag.wellFormed_emptyBook 2)).1 (Bag.node 1),
    by decide⟩

end Book

end EntityBook
