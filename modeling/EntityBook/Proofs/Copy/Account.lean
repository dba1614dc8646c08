import EntityBook.Proofs.Run.Representation

/-! # What becomes of the entities of a batch

  A call that copies many entities deals with them one after the other, whatever
  becomes of those before. Each is copied, skipped or fails, and the report lists it
  once, in the order of the call. An entity that the backend rejects counts as failed
  and is there all the same, so that a later copy of it is skipped.
-/

namespace EntityBook

variable {P : PayloadFamily}

/-! ### Fates -/

/-- What becomes of an element of a batch. -/
inductive Fate where
  /-- It is made in the destination. -/
  | copied
  /-- The destination holds it already. -/
  | skipped
  /-- It is reported as failed, even where it is made and the backend rejects it. -/
  | failed (err : CopyError)
  deriving DecidableEq, Repr

namespace Fate

/-- The fate that the result of a copy stands for. -/
def of : Except CopyError Entity → Fate
  | .ok _ => copied
  | .error (.alreadyPresent _) => skipped
  | .error err => failed err

/-- Whether the entity is made. A commit that the backend refused does not unmake it. -/
def creates : Fate → Bool
  | copied | failed (.rejected _ _) => true
  | _ => false

end Fate

/-- The elements of a batch in order, each with its fate. -/
abbrev Account := List (Entity × Fate)

namespace Account

/-- The elements with a given fate. -/
def having (f : Fate) (xs : Account) : List Entity := (xs.filter fun x => x.2 == f).map Prod.fst

/-- The elements that failed, and why. -/
def failures (xs : Account) : List (Entity × CopyError) :=
  xs.filterMap fun x => match x.2 with
    | .failed err => some (x.1, err)
    | _ => none

@[simp] theorem having_append (f : Fate) (xs ys : Account) :
    having f (xs ++ ys) = having f xs ++ having f ys := by
  simp [having]

@[simp] theorem failures_append (xs ys : Account) :
    failures (xs ++ ys) = failures xs ++ failures ys := by
  simp [failures]

@[simp] theorem mem_having {f : Fate} {xs : Account} {e : Entity} :
    e ∈ having f xs ↔ (e, f) ∈ xs := by
  simp [having]

@[simp] theorem mem_failures {xs : Account} {x : Entity × CopyError} :
    x ∈ failures xs ↔ (x.1, Fate.failed x.2) ∈ xs := by
  unfold failures
  rw [List.mem_filterMap]
  constructor
  · rintro ⟨⟨e, f⟩, hy, heq⟩
    cases f with
    | failed err =>
      cases heq
      exact hy
    | copied => cases heq
    | skipped => cases heq
  · exact fun h => ⟨_, h, rfl⟩

end Account

/-! ### Reports -/

namespace Report

/-- Adds the elements of an account. -/
def add (r : Report) (xs : Account) : Report :=
  { r with
    copied := r.copied ++ xs.having .copied
    skipped := r.skipped ++ xs.having .skipped
    failed := r.failed ++ xs.failures }

theorem add_nil (r : Report) : r.add [] = r := by
  simp [add, Account.having, Account.failures]

theorem add_append (r : Report) (xs ys : Account) : r.add (xs ++ ys) = (r.add xs).add ys := by
  simp [add]

/-- A copy is reported under its fate. -/
theorem record_eq_add (r : Report) (e : Entity) (result : Except CopyError Entity) :
    r.record e result = r.add [(e, Fate.of result)] := by
  unfold record Fate.of
  split
  · simp [add, Account.having, Account.failures]
  · simp [add, skip, Account.having, Account.failures]
  · simp [add, Account.having, Account.failures]

end Report

namespace Book

/-! ### One element -/

/-- What a book makes of one element of a batch. -/
inductive Decides (b : Book P) (e : Entity) : Fate → Book P → Prop where
  /-- It is there. -/
  | present (live : b.contains e = true) : b.Decides e .skipped b
  /-- The registry does not let it in. -/
  | refused {reason : String} (absent : b.contains e = false)
      (cause : b.Refuses e.typeTag reason) :
      b.Decides e (.failed (.notCompliant e.typeTag reason)) b
  /-- It is made, and the backend may have rejected it. -/
  | made {f : Fate} {b' : Book P} (absent : b.contains e = false)
      (fate : f = .copied ∨ ∃ cause, f = .failed (.rejected e cause))
      (live : ∀ a, b'.contains a = true ↔ b.contains a = true ∨ a = e)
      (registry : b'.registry = b.registry) : b.Decides e f b'

namespace Decides

variable {b b' : Book P} {e : Entity} {f : Fate}

theorem registry_eq (h : b.Decides e f b') : b'.registry = b.registry := by
  cases h with
  | present => rfl
  | refused => rfl
  | made _ _ _ hr => exact hr

theorem skipped_iff (h : b.Decides e f b') : f = .skipped ↔ b.contains e = true := by
  cases h with
  | present hin => simp [hin]
  | refused hn _ => simp [hn]
  | made hn hf _ _ =>
    obtain rfl | ⟨_, rfl⟩ := hf
    · simp [hn]
    · simp [hn]

theorem live_iff (h : b.Decides e f b') (a : Entity) :
    b'.contains a = true ↔ b.contains a = true ∨ (a = e ∧ f.creates = true) := by
  cases h with
  | present => simp [Fate.creates]
  | refused => simp [Fate.creates]
  | made _ hf hlive _ =>
    obtain rfl | ⟨_, rfl⟩ := hf
    · simp [hlive a, Fate.creates]
    · simp [hlive a, Fate.creates]

theorem cause {err : CopyError} (h : b.Decides e (.failed err) b') :
    (∃ reason, err = .notCompliant e.typeTag reason ∧ b.Refuses e.typeTag reason) ∨
      ∃ cause, err = .rejected e cause := by
  cases h with
  | refused _ hr => exact Or.inl ⟨_, rfl, hr⟩
  | made _ hf _ _ =>
    obtain hf | ⟨cause, hf⟩ := hf
    · cases hf
    · exact Or.inr ⟨cause, Fate.failed.inj hf⟩

end Decides

/-- What copying one instance comes to. -/
theorem decides_copyOne {b : Book P} (hb : b.WellFormed) {i : Instance P}
    (hg : i.entity.guid.isNull = false) :
    b.Decides i.entity (Fate.of (b.copyOne i).1) (b.copyOne i).2 := by
  cases hin : b.contains i.entity with
  | true =>
    rw [copyOne_of_contains hin]
    exact .present hin
  | false =>
    by_cases ha : b.Accepts i.entity.typeTag
    · obtain ⟨_, hreg, hlive⟩ := copyOne_spec hb hg
      obtain ⟨c, hc, hcomp⟩ := ha
      obtain ⟨payload, hp⟩ := exists_initialPayload hcomp
      refine .made hin ?_ (fun a => ?_) hreg
      · rw [copyOne_of_accepts hin hg hc hcomp hp]
        cases (b.transfer i c payload).refusal with
        | none => exact Or.inl rfl
        | some err => exact Or.inr ⟨err, rfl⟩
      · rw [hlive a]
        refine or_congr_right ⟨And.left, ?_⟩
        rintro rfl
        exact ⟨rfl, c, hc, hcomp⟩
    · obtain ⟨reason, hwhy, heq⟩ := copyOne_of_not_accepts hin ha
      rw [heq]
      exact .refused hin hwhy

/-! ### A whole batch -/

/-- An account of what becomes of the elements of a batch, and the book that they
    lead to. -/
inductive Accounted : Book P → Account → Book P → Prop where
  | nil (b : Book P) : Accounted b [] b
  | cons {b b' b'' : Book P} {e : Entity} {f : Fate} {xs : Account} (head : b.Decides e f b')
      (tail : Accounted b' xs b'') : Accounted b ((e, f) :: xs) b''

namespace Accounted

variable {b b' : Book P} {xs : Account}

theorem registry_eq (h : Accounted b xs b') : b'.registry = b.registry := by
  induction h with
  | nil => rfl
  | cons head _ ih => exact ih.trans head.registry_eq

/-- The live set grows by what is made. -/
theorem live_iff (h : Accounted b xs b') (a : Entity) :
    b'.contains a = true ↔ b.contains a = true ∨ ∃ f, (a, f) ∈ xs ∧ f.creates = true := by
  induction h with
  | nil => simp
  | cons head _ ih =>
    rw [ih, head.live_iff a, or_assoc]
    simp only [List.mem_cons, Prod.mk.injEq, or_and_right, exists_or, and_assoc,
      exists_and_left, exists_eq_left]

/-- The book that the elements before it lead to decides on an element. -/
theorem exists_decides {before after : Account} {e : Entity} {f : Fate}
    (h : Accounted b (before ++ (e, f) :: after) b') :
    ∃ m m', Accounted b before m ∧ m.Decides e f m' := by
  induction before generalizing b with
  | nil =>
    cases h with
    | cons head _ => exact ⟨b, _, .nil b, head⟩
  | cons x before ih =>
    cases h with
    | cons head tail =>
      obtain ⟨m, m', hbefore, hturn⟩ := ih tail
      exact ⟨m, m', .cons head hbefore, hturn⟩

/-- Skipped is what was there before the call or was made earlier in it. -/
theorem skipped_iff {before after : Account} {e : Entity} {f : Fate}
    (h : Accounted b (before ++ (e, f) :: after) b') :
    f = .skipped ↔ b.contains e = true ∨ ∃ g, (e, g) ∈ before ∧ g.creates = true := by
  obtain ⟨m, _, hbefore, hturn⟩ := h.exists_decides
  rw [hturn.skipped_iff, hbefore.live_iff]

/-- What fails is refused by the registry that the book had from the beginning, or is
    rejected by the backend. -/
theorem cause (h : Accounted b xs b') {e : Entity} {err : CopyError}
    (hx : (e, Fate.failed err) ∈ xs) :
    (∃ reason, err = .notCompliant e.typeTag reason ∧ b.Refuses e.typeTag reason) ∨
      ∃ cause, err = .rejected e cause := by
  obtain ⟨before, after, rfl⟩ := List.append_of_mem hx
  obtain ⟨m, _, hbefore, hturn⟩ := h.exists_decides
  rcases hturn.cause with ⟨reason, herr, hwhy⟩ | hrejected
  · exact Or.inl ⟨reason, herr, hwhy.of_registry hbefore.registry_eq.symm⟩
  · exact Or.inr hrejected

/-- Made is what is copied, and what fails because the backend rejects it. -/
theorem creates_iff (h : Accounted b xs b') (e : Entity) :
    (∃ f, (e, f) ∈ xs ∧ f.creates = true) ↔
      (e, Fate.copied) ∈ xs ∨ ∃ cause, (e, Fate.failed (.rejected e cause)) ∈ xs := by
  constructor
  · rintro ⟨f, hx, hf⟩
    cases f with
    | copied => exact Or.inl hx
    | skipped => cases hf
    | failed err =>
      rcases h.cause hx with ⟨_, rfl, _⟩ | ⟨cause, rfl⟩
      · cases hf
      · exact Or.inr ⟨cause, hx⟩
  · rintro (hx | ⟨cause, hx⟩)
    · exact ⟨_, hx, rfl⟩
    · exact ⟨_, hx, rfl⟩

end Accounted

/-- Batches of instances that books hold can be accounted for, and the report tells
    nothing else. -/
theorem Batch.exists_accounted {s : Batch P} (hs : s.book.WellFormed)
    {sources : List (Instance P)} (h : ∀ i ∈ sources, Taken i) :
    ∃ xs : Account, xs.map Prod.fst = sources.map Instance.entity ∧
      Accounted s.book xs (sources.foldl Batch.copy s).book ∧
      (sources.foldl Batch.copy s).report = s.report.add xs := by
  induction sources generalizing s with
  | nil => exact ⟨[], rfl, .nil _, s.report.add_nil.symm⟩
  | cons i rest ih =>
    have hg : i.entity.guid.isNull = false := (h i List.mem_cons_self).guid
    have hwf : (s.copy i).book.WellFormed := (copyOne_spec hs hg).1
    obtain ⟨xs, hnames, hacc, hrep⟩ := ih hwf fun j hj => h j (List.mem_cons_of_mem _ hj)
    refine ⟨(i.entity, Fate.of (s.book.copyOne i).1) :: xs, ?_, ?_, ?_⟩
    · rw [List.map_cons, List.map_cons, hnames]
    · exact .cons (decides_copyOne hs hg) hacc
    · calc ((i :: rest).foldl Batch.copy s).report = (s.copy i).report.add xs := hrep
        _ = (s.report.add [(i.entity, Fate.of (s.book.copyOne i).1)]).add xs :=
          congrArg (·.add xs) (s.report.record_eq_add _ _)
        _ = s.report.add ((i.entity, Fate.of (s.book.copyOne i).1) :: xs) :=
          (s.report.add_append _ _).symm

/-! ### Calls -/

/-- The result of a call that copies instances, accounted for. -/
structure IsAccount (dest : Book P) (sources : List (Instance P)) (result : Report × Book P)
    (account : Account) : Prop where
  /-- Every element has one fate, and the order is kept. -/
  elements : account.map Prod.fst = sources.map Instance.entity
  /-- The report lists the elements by their fates. -/
  copied : result.1.copied = account.having .copied
  skipped : result.1.skipped = account.having .skipped
  failed : result.1.failed = account.failures
  /-- Skipped is what was there before or was made by an earlier element. -/
  skips : ∀ before e f after, account = before ++ (e, f) :: after →
    (f = .skipped ↔ dest.contains e = true ∨ ∃ g, (e, g) ∈ before ∧ g.creates = true)
  /-- Failed is what the registry refuses or the backend rejects. -/
  fails : ∀ e err, (e, err) ∈ result.1.failed →
    (∃ reason, err = .notCompliant e.typeTag reason ∧ dest.Refuses e.typeTag reason) ∨
      ∃ cause, err = .rejected e cause
  /-- The live set grows by what is copied and what is rejected. -/
  live : ∀ e, result.2.contains e = true ↔ dest.contains e = true ∨ e ∈ result.1.copied ∨
    ∃ cause, (e, .rejected e cause) ∈ result.1.failed

/-- A call copies its elements and then resolves the references, which changes neither
    the live set nor what is reported of the elements. The duplicates are counted before. -/
theorem exists_isAccount {dest : Book P} (hd : dest.WellFormed) {sources : List (Instance P)}
    (h : ∀ i ∈ sources, Taken i) (duplicates : Nat) :
    let result :=
      (sources.foldl Batch.copy { book := dest.suspend, report := { duplicates } }).finish
    (∃ account, dest.IsAccount sources result account) ∧ result.1.duplicates = duplicates := by
  have hstart : dest.suspend.WellFormed := (Revises.suspend dest).wellFormed hd
  obtain ⟨xs, hnames, hacc, hrep⟩ :=
    Batch.exists_accounted (s := ⟨dest.suspend, { duplicates }⟩) hstart h
  have hend : (sources.foldl Batch.copy ⟨dest.suspend, { duplicates }⟩).book.WellFormed :=
    (Acts.copies dest.suspend { duplicates } sources).steps.wellFormed hstart
  intro result
  have hcopied : result.1.copied = xs.having .copied := congrArg Report.copied hrep
  have hskipped : result.1.skipped = xs.having .skipped := congrArg Report.skipped hrep
  have hfailed : result.1.failed = xs.failures := congrArg Report.failed hrep
  refine ⟨⟨xs, hnames, hcopied, hskipped, hfailed, ?_, ?_, fun e => ?_⟩,
    congrArg Report.duplicates hrep⟩
  · rintro before e f after rfl
    exact hacc.skipped_iff
  · intro e err he
    rw [hfailed, Account.mem_failures] at he
    rcases hacc.cause he with ⟨reason, herr, hwhy⟩ | hrejected
    · exact Or.inl ⟨reason, herr, hwhy.of_registry rfl⟩
    · exact Or.inr hrejected
  · have hrev := (Revises.resolvePending hend).trans (.resume _)
    have hsame := hrev.contains_eq e
    rw [hcopied, hfailed, Account.mem_having]
    simp only [Account.mem_failures]
    rw [← hacc.creates_iff]
    exact (iff_of_eq (congrArg (· = true) hsame)).trans (hacc.live_iff e)

/-- If no entity is repeated, what is skipped was there before the call. -/
theorem IsAccount.length_skipped {dest : Book P} {sources : List (Instance P)}
    {result : Report × Book P} {account : Account} (h : dest.IsAccount sources result account)
    (hn : (sources.map Instance.entity).Nodup) :
    result.1.skipped.length = dest.countDuplicates sources := by
  have hskips : ∀ x ∈ account, (x.2 == Fate.skipped) = true ↔ dest.contains x.1 = true := by
    rintro ⟨e, f⟩ hx
    obtain ⟨before, after, rfl⟩ := List.append_of_mem hx
    -- An earlier element that made the entity would name it a second time.
    have hfirst : ¬ ∃ g, (e, g) ∈ before ∧ g.creates = true := by
      rintro ⟨g, hg, _⟩
      rw [← h.elements, List.map_append, List.nodup_append] at hn
      exact hn.2.2 e (List.mem_map_of_mem hg) e (List.mem_map_of_mem List.mem_cons_self) rfl
    rw [beq_iff_eq, h.skips before e f after rfl, or_iff_left hfirst]
  calc result.1.skipped.length
      = account.countP fun x => x.2 == Fate.skipped := by
        rw [h.skipped, Account.having, List.length_map, List.countP_eq_length_filter]
    _ = account.countP (dest.contains ∘ Prod.fst) := List.countP_congr hskips
    _ = (sources.map Instance.entity).countP dest.contains := by
        rw [← List.countP_map, h.elements]
    _ = dest.countDuplicates sources := List.countP_map ..

/-- A batch accounts for every entity. Of a collection moreover as many members are
    skipped as were counted as duplicates before, so the call has errors just if
    something failed or was skipped. -/
theorem batches_are_accounted {dest : Book P} (hd : dest.WellFormed) :
    (∀ sources, (∀ i ∈ sources, Taken i) →
      ∃ account, dest.IsAccount sources (dest.copyList sources) account) ∧
    ∀ (source : Book P) (tag : TypeTag) (sources : List (Instance P)), source.Reachable →
      source.collection? tag = some sources →
      (∃ account, dest.IsAccount sources (dest.copyCollection sources) account) ∧
      (dest.copyCollection sources).1.duplicates =
        (dest.copyCollection sources).1.skipped.length ∧
      ((dest.copyCollection sources).1.hadErrors = true ↔
        (dest.copyCollection sources).1.failed ≠ [] ∨
          (dest.copyCollection sources).1.skipped ≠ []) := by
  refine ⟨fun sources h => (exists_isAccount hd h 0).1, fun source tag sources hs hl => ?_⟩
  have htaken : ∀ i ∈ sources, Taken i := fun i hi =>
    ⟨source, hs, i.entity, ((mem_collection? hs.wellFormed hl).mp hi).1⟩
  obtain ⟨⟨account, haccount⟩, hcounted⟩ :=
    exists_isAccount hd htaken (dest.countDuplicates sources)
  have hduplicates : (dest.copyCollection sources).1.duplicates =
      (dest.copyCollection sources).1.skipped.length :=
    hcounted.trans (haccount.length_skipped (nodup_entities_collection? hs.wellFormed hl)).symm
  refine ⟨⟨account, haccount⟩, hduplicates, ?_⟩
  unfold Report.hadErrors
  rw [hduplicates]
  simp [List.length_pos_iff]

end Book

/-! ### A batch with every fate -/

namespace Bag

/-- A class without parameters. -/
def leafClass : ObjectClass bags := .build "leaf" .alpha (some .empty) []

theorem wellFormed_nodesAndLeaves : (⟨[nodeClass, leafClass]⟩ : Registry bags).WellFormed := by
  simp [Registry.WellFormed, nodeClass, leafClass, ObjectClass.wellFormed_build]

/-- A book of three nodes and a leaf. -/
def tree : Book bags :=
  (Book.blank ⟨1⟩ ⟨[nodeClass, leafClass]⟩ {}).run
    [.create "node" (node 1).guid, .create "node" (node 2).guid, .create "node" (node 3).guid,
      .create "leaf" ⟨4⟩]

theorem reachable_tree : tree.Reachable :=
  Book.Reachable.run (.blank ⟨1⟩ {} wellFormed_nodesAndLeaves) _

/-- What is taken from the tree, the second node twice. -/
def cuttings : List (Instance bags) :=
  [node 1, node 2, node 2, ⟨"leaf", ⟨4⟩⟩, node 3].filterMap tree.get?

/-- A book that knows no leaves and has the first node. Its backend refuses one commit. -/
def nursery : Book bags :=
  (Book.blank ⟨2⟩ nodes {}).run
    [.setBackend (.refusing (.listed [1] []) "full"), .create "node" (node 1).guid]

theorem wellFormed_nursery : nursery.WellFormed :=
  (Book.Reachable.run (.blank ⟨2⟩ {} wellFormed_nodes) _).wellFormed

end Bag

/-- What the backend rejects fails and is there when its turn comes again. -/
theorem Book.cuttings_are_accounted :
    Bag.nursery.WellFormed ∧
    (∃ account, Bag.nursery.IsAccount Bag.cuttings (Bag.nursery.copyList Bag.cuttings) account) ∧
    (Bag.nursery.copyList Bag.cuttings).1.copied = [Bag.node 3] ∧
    (Bag.nursery.copyList Bag.cuttings).1.skipped = [Bag.node 1, Bag.node 2] ∧
    (Bag.nursery.copyList Bag.cuttings).1.failed =
      [(Bag.node 2, .rejected (Bag.node 2) (.rejected "full")),
        (⟨"leaf", ⟨4⟩⟩, .notCompliant "leaf" "type not registered")] ∧
    ∃ nodes, Bag.tree.collection? "node" = some nodes ∧
      (Bag.nursery.copyCollection nodes).1.duplicates = 1 ∧
      (Bag.nursery.copyCollection nodes).1.skipped.length = 1 := by
  obtain ⟨hlists, hcollections⟩ := Book.batches_are_accounted Bag.wellFormed_nursery
  have htaken : ∀ i ∈ Bag.cuttings, Book.Taken i := by
    intro i hi
    obtain ⟨e, _, he⟩ := List.mem_filterMap.mp hi
    exact ⟨Bag.tree, Bag.reachable_tree, e, he⟩
  have hcounted : ((Bag.tree.collection? "node").map fun nodes =>
      (Bag.nursery.copyCollection nodes).1.duplicates) = some 1 := by decide +kernel
  obtain ⟨nodes, hnodes, hone⟩ := Option.map_eq_some_iff.mp hcounted
  obtain ⟨_, hsame, _⟩ := hcollections Bag.tree "node" nodes Bag.reachable_tree hnodes
  exact ⟨Bag.wellFormed_nursery, hlists Bag.cuttings htaken, by decide +kernel,
    by decide +kernel, by decide +kernel, nodes, hnodes, hone, hsame.symm.trans hone⟩

end EntityBook
