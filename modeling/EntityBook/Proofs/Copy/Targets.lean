import EntityBook.Proofs.Copy.Resolution

/-! # The targets of a parameter

  The links of one parameter in the order in which they are made: `targetsOf` reads
  them off the records that wait, where each stands once, and `linked` says what
  each makes of the parameter's value. Other parameters do not see them.
-/

namespace EntityBook

variable {P : PayloadFamily}

/-! ### Lists without repetitions -/

/-- Appends an element unless it is there. -/
def appendNew {α : Type} [BEq α] (xs : List α) (x : α) : List α :=
  if xs.contains x then xs else xs ++ [x]

section AppendNew

variable {α : Type} [BEq α] [LawfulBEq α]

theorem mem_foldl_appendNew {xs own : List α} {y : α} :
    y ∈ xs.foldl appendNew own ↔ y ∈ own ∨ y ∈ xs := by
  induction xs generalizing own with
  | nil => simp
  | cons x rest ih =>
    rw [List.foldl_cons, ih, List.mem_cons]
    unfold appendNew
    split
    · next hx =>
      have hx : x ∈ own := by simpa using hx
      constructor
      · rintro (hy | hy)
        · exact Or.inl hy
        · exact Or.inr (Or.inr hy)
      · rintro (hy | rfl | hy)
        · exact Or.inl hy
        · exact Or.inl hx
        · exact Or.inr hy
    · rw [List.mem_append, List.mem_singleton, or_assoc]

/-- Appending elements one by one appends those that are new, each once. -/
theorem foldl_appendNew (xs own : List α) :
    xs.foldl appendNew own = own ++ (xs.filter fun x => !own.contains x).eraseDups := by
  induction xs generalizing own with
  | nil => simp
  | cons x rest ih =>
    rw [List.foldl_cons, ih]
    unfold appendNew
    by_cases hx : x ∈ own
    · rw [if_pos (by simpa using hx), List.filter_cons_of_neg (by simpa using hx)]
    · have hfilter : (rest.filter fun y => !(own ++ [x]).contains y) =
          (rest.filter fun y => !own.contains y).filter fun y => !y == x := by
        rw [List.filter_filter]
        refine List.filter_congr fun y _ => ?_
        rw [List.contains_append, Bool.not_or, Bool.and_comm]
        simp
      rw [if_neg (by simpa using hx), List.filter_cons_of_pos (by simpa using hx),
        List.eraseDups_cons, hfilter, List.append_assoc]
      rfl

/-- Where doing the same again changes nothing, repetitions may be left out. -/
theorem foldl_filter_appendNew {β : Type} {f : β → α → β}
    (hf : ∀ (v : β) (xs : List α) (x : α), x ∈ xs → f (xs.foldl f v) x = xs.foldl f v)
    (keep : α → Bool) (xs own : List α) (v : β) :
    ((xs.foldl appendNew own).filter keep).foldl f v =
      (xs.filter keep).foldl f ((own.filter keep).foldl f v) := by
  induction xs generalizing own with
  | nil => rfl
  | cons x rest ih =>
    rw [List.foldl_cons, ih, List.filter_cons]
    unfold appendNew
    cases hk : keep x with
    | false =>
      split
      · rfl
      · simp [hk]
    | true =>
      split
      · next hx =>
        have hx : x ∈ own.filter keep := List.mem_filter.mpr ⟨by simpa using hx, hk⟩
        rw [if_pos rfl, List.foldl_cons, hf v _ x hx]
      · simp [hk]

theorem eraseDups_eq_self {l : List α} (h : l.Nodup) : l.eraseDups = l := by
  induction l with
  | nil => rfl
  | cons x rest ih =>
    obtain ⟨hx, hrest⟩ := List.nodup_cons.mp h
    have hfilter : (rest.filter fun y => !y == x) = rest := by
      refine List.filter_eq_self.mpr fun y hy => ?_
      have hne : y ≠ x := fun heq => hx (heq ▸ hy)
      simp [hne]
    rw [List.eraseDups_cons, hfilter, ih hrest]

end AppendNew

/-! ### Records of one parameter -/

namespace Book

/-- The entities that a parameter of an entity is to be pointed at. -/
def targetsOf (e : Entity) (name : String) (rs : List (ReferenceRecord P)) : List Entity :=
  (rs.filter fun r => r.source == e && r.param.name == name).map (·.target)

theorem mem_targetsOf {e : Entity} {name : String} {rs : List (ReferenceRecord P)} {t : Entity} :
    t ∈ targetsOf e name rs ↔ ∃ r ∈ rs, r.source = e ∧ r.param.name = name ∧ r.target = t := by
  unfold targetsOf
  rw [List.mem_map]
  constructor
  · rintro ⟨r, hr, rfl⟩
    obtain ⟨hr, hnames⟩ := List.mem_filter.mp hr
    have hnames : r.source = e ∧ r.param.name = name := by simpa using hnames
    exact ⟨r, hr, hnames.1, hnames.2, rfl⟩
  · rintro ⟨r, hr, rfl, rfl, rfl⟩
    exact ⟨r, List.mem_filter.mpr ⟨hr, by simp⟩, rfl⟩

theorem targetsOf_eq_nil {e : Entity} {name : String} {rs : List (ReferenceRecord P)}
    (h : ∀ r ∈ rs, r.source ≠ e) : targetsOf e name rs = [] := by
  have hnone : (rs.filter fun r => r.source == e && r.param.name == name) = [] := by
    refine List.filter_eq_nil_iff.mpr fun r hr => ?_
    simp [h r hr]
  unfold targetsOf
  rw [hnone, List.map_nil]

theorem targetsOf_addRecord (e : Entity) (name : String) (rs : List (ReferenceRecord P))
    (r : ReferenceRecord P) :
    targetsOf e name (addRecord rs r) =
      if r.source == e && r.param.name == name then appendNew (targetsOf e name rs) r.target
      else targetsOf e name rs := by
  unfold addRecord appendNew
  cases hr : r.source == e && r.param.name == name with
  | false =>
    split
    · rfl
    · simp [targetsOf, hr]
  | true =>
    -- A record of the parameter is repeated exactly if its target is among the others.
    have hsame : (rs.any fun s => sameLink s r) = (targetsOf e name rs).contains r.target := by
      simp only [Bool.and_eq_true, beq_iff_eq] at hr
      obtain ⟨rfl, rfl⟩ := hr
      rw [Bool.eq_iff_iff, List.any_eq_true, List.contains_iff_mem]
      simp only [targetsOf, List.mem_map, List.mem_filter, Bool.and_eq_true, beq_iff_eq, sameLink]
      constructor
      · rintro ⟨s, hs, ⟨hsource, htarget⟩, hname⟩
        exact ⟨s, ⟨hs, hsource, hname⟩, htarget⟩
      · rintro ⟨s, ⟨hs, hsource, hname⟩, htarget⟩
        exact ⟨s, hs, ⟨hsource, htarget⟩, hname⟩
    rw [hsame, if_pos rfl]
    split
    · rfl
    · simp [targetsOf, hr]

theorem targetsOf_foldl_addRecord (e : Entity) (name : String)
    (rs ws : List (ReferenceRecord P)) :
    targetsOf e name (rs.foldl addRecord ws) =
      (targetsOf e name rs).foldl appendNew (targetsOf e name ws) := by
  induction rs generalizing ws with
  | nil => rfl
  | cons r rest ih =>
    rw [List.foldl_cons, ih, targetsOf_addRecord]
    cases hr : r.source == e && r.param.name == name <;> simp [targetsOf, hr]

/-- Records made for one parameter after the other. -/
theorem targetsOf_flatMap (e : Entity) (name : String) (targets : Param P → List Entity)
    (ps : List (Param P)) :
    targetsOf e name (ps.flatMap fun p => (targets p).map fun t => ⟨e, p, t⟩) =
      (ps.filter fun p => p.name == name).flatMap targets := by
  induction ps with
  | nil => rfl
  | cons p rest ih =>
    unfold targetsOf at ih ⊢
    rw [List.flatMap_cons, List.filter_append, List.map_append, ih, List.filter_cons]
    cases hp : p.name == name <;> simp [List.filter_map, hp, Function.comp_def]

/-- Of the records that a resolution links for an entity, those of one parameter. -/
theorem targetsOf_filter (e : Entity) (name : String) (live : Entity → Bool)
    (rs : List (ReferenceRecord P)) :
    ((rs.filter fun r => r.source == e && live r.target).filter fun r =>
      r.param.name == name).map (·.target) = (targetsOf e name rs).filter live := by
  unfold targetsOf
  rw [List.filter_map, List.filter_filter, List.filter_filter]
  congr 1
  refine List.filter_congr fun r _ => ?_
  simp only [Function.comp_apply]
  cases r.source == e <;> cases r.param.name == name <;> simp

/-- Of the records that wait on for an entity, those of one parameter. -/
theorem targetsOf_filter_waiting {e : Entity} (name : String) {live : Entity → Bool}
    (he : live e = true) (rs : List (ReferenceRecord P)) :
    targetsOf e name (rs.filter fun r => live r.source && !live r.target) =
      (targetsOf e name rs).filter fun t => !live t := by
  unfold targetsOf
  rw [List.filter_map, List.filter_filter, List.filter_filter]
  congr 1
  refine List.filter_congr fun r _ => ?_
  by_cases hr : r.source = e
  · simp [hr, he, Bool.and_comm]
  · have hother : (r.source == e) = false := beq_eq_false_iff_ne.mpr hr
    simp [hother]

end Book

/-! ### The value of one parameter -/

/-- What a link makes of the value of its parameter. -/
def ParamValue.linked (v : ParamValue) (t : Entity) : ParamValue :=
  match v with
  | .reference _ => .reference (some t.guid)
  | .choice _ => .choice (some t)
  | .collection members => .collection (appendNew members t.guid)
  | v => v

theorem ParamValue.foldl_linked_collection (members : List Guid) (ts : List Entity) :
    ts.foldl ParamValue.linked (.collection members) =
      .collection (ts.foldl (fun ms t => appendNew ms t.guid) members) := by
  induction ts generalizing members with
  | nil => rfl
  | cons t rest ih => exact ih (appendNew members t.guid)

namespace Instance

theorem value?_link_self {i j : Instance P} {p : Param P} {t : Entity}
    (hp : p.accessor.IsLawful) {v : ParamValue} (hv : i.value? p.accessor = some v)
    (hlink : i.link p t = .ok j) : j.value? p.accessor = some (v.linked t) := by
  unfold Instance.link at hlink
  cases ha : p.accessor with
  | scalar | slots | book =>
    rw [ha] at hlink
    cases hlink
  | reference tag f =>
    simp only [ha] at hlink
    rw [ha] at hv
    obtain ⟨w, _, rfl⟩ := Option.map_eq_some_iff.mp hv
    rw [← ha]
    exact value?_write_self hp hlink
  | choice f =>
    simp only [ha] at hlink
    rw [ha] at hv
    obtain ⟨w, _, rfl⟩ := Option.map_eq_some_iff.mp hv
    rw [← ha]
    exact value?_write_self hp hlink
  | collection tag f =>
    simp only [ha] at hlink
    rw [ha] at hv
    obtain ⟨members, hm, rfl⟩ := Option.map_eq_some_iff.mp hv
    simp only [hm] at hlink
    unfold ParamValue.linked appendNew
    dsimp only
    split at hlink
    · next hin =>
      cases hlink
      rw [if_pos hin]
      exact hv
    · next hin =>
      rw [if_neg hin, ← ha]
      exact value?_write_self hp hlink

/-- Records of independent parameters do not show. -/
theorem value?_foldl_linkedBy_of_independent {q : Param P} (rs : List (ReferenceRecord P))
    (hrs : ∀ r ∈ rs, r.param.Independent q) (i : Instance P) :
    (rs.foldl linkedBy i).value? q.accessor = i.value? q.accessor := by
  induction rs generalizing i with
  | nil => rfl
  | cons r rest ih =>
    rw [List.foldl_cons, ih fun s hs => hrs s (List.mem_cons_of_mem r hs)]
    unfold linkedBy
    split
    · next j hj => exact value?_link_of_independent (hrs r List.mem_cons_self) hj
    · rfl

theorem rewrites_linkedBy (i : Instance P) (r : ReferenceRecord P) : i.Rewrites (i.linkedBy r) := by
  unfold linkedBy
  split
  · next j hj => exact rewrites_link hj
  · exact .refl i

/-- Of the records of a lawful class a parameter sees those that name it, and each of
    them is linked. -/
theorem value?_foldl_linkedBy {c : ObjectClass P} (hc : c.WellFormed) (hlaw : c.IsLawful)
    {p : Param P} (hp : p ∈ c.copyable) (rs : List (ReferenceRecord P))
    (hrs : ∀ r ∈ rs, r.param ∈ c.copyable ∧ r.param.isReference = true) {i : Instance P}
    (hi : i.payload.type = c.payloadType) {v : ParamValue}
    (hv : i.value? p.accessor = some v) :
    (rs.foldl linkedBy i).value? p.accessor =
      some (((rs.filter fun r => r.param.name == p.name).map (·.target)).foldl
        ParamValue.linked v) := by
  induction rs generalizing i v with
  | nil => exact hv
  | cons r rest ih =>
    obtain ⟨hr, href⟩ := hrs r List.mem_cons_self
    have hrest : ∀ s ∈ rest, s.param ∈ c.copyable ∧ s.param.isReference = true :=
      fun s hs => hrs s (List.mem_cons_of_mem r hs)
    have htype : (i.linkedBy r).payload.type = c.payloadType :=
      (rewrites_linkedBy i r).payload.trans hi
    have hparams := ObjectClass.mem_params_of_mem_copyable hr
    have hfor : r.param.isFor i.payload.type = true := by
      rw [hi]
      exact ObjectClass.isFor_of_mem_params hparams
    obtain ⟨j, hj⟩ := exists_link (ObjectClass.isReadOnly_of_mem_copyable hr) href hfor r.target
    have hlinked : i.linkedBy r = j := by
      unfold linkedBy
      rw [hj]
    rw [List.foldl_cons]
    by_cases hname : r.param.name = p.name
    · have heq : r.param = p := ObjectClass.eq_of_name_eq hc hparams
        (ObjectClass.mem_params_of_mem_copyable hp) hname
      rw [heq] at hj
      have hself := value?_link_self (hlaw.accessor p hp) hv hj
      rw [ih hrest htype (hlinked ▸ hself), List.filter_cons_of_pos (by simpa using hname)]
      rfl
    · have hother := value?_link_of_independent (hlaw.independent _ hr p hp hname) hj
      rw [ih hrest htype (hlinked ▸ hother.trans hv),
        List.filter_cons_of_neg (by simpa using hname)]

end Instance

namespace Book

/-- What the parameters of an entity are after a resolution: those of their targets that
    are there are linked, in the order in which they have waited. -/
theorem exists_resolved {b : Book P} (hb : b.WellFormed) {x : Entity} {c : ObjectClass P}
    (hc : b.registry.find? x.typeTag = some c) (hlaw : c.IsLawful)
    (hrs : ∀ r ∈ b.pending, r.source = x → r.param ∈ c.copyable ∧ r.param.isReference = true)
    {i : Instance P} (hi : b.get? x = some i) :
    ∃ j, b.resolvePending.2.get? x = some j ∧
      ∀ p ∈ c.copyable, ∀ v, i.value? p.accessor = some v →
        j.value? p.accessor =
          some (((targetsOf x p.name b.pending).filter b.contains).foldl ParamValue.linked v) := by
  obtain ⟨j, hj, hsame⟩ := get?_resolvePending hb hi
  obtain ⟨d, hd, _, htype⟩ := (hb.fits _ _ hi).known
  cases hc.symm.trans hd
  have hseen : ∀ r ∈ b.pending.filter fun r => r.source == x && b.contains r.target,
      r.param ∈ c.copyable ∧ r.param.isReference = true := by
    intro r hr
    obtain ⟨hr, hends⟩ := List.mem_filter.mp hr
    have hends : r.source = x ∧ b.contains r.target = true := by simpa using hends
    exact hrs r hr hends.1
  refine ⟨j, hj, fun p hp v hv => ?_⟩
  rw [hsame.value?, Instance.value?_foldl_linkedBy (hb.registry.of_find? hc) hlaw hp _ hseen
    htype hv, targetsOf_filter]

end Book

end EntityBook
