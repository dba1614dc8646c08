import EntityBook.Class.Registry
import Mathlib.Data.List.Nodup

/-! # Classes and registries

  What a look-up in a registry answers. Within a class the names of parameters
  are unique, because a name that is declared again replaces the earlier one.
-/

namespace EntityBook

variable {P : PayloadFamily}

namespace ObjectClass

/-! ### Parameters of a class -/

theorem isFor_of_mem_params {c : ObjectClass P} {p : Param P} (h : p ∈ c.params) :
    p.isFor c.payloadType = true := by
  obtain ⟨d, _, rfl⟩ := List.mem_map.mp h
  exact d.property

theorem mem_params_of_mem_copyable {c : ObjectClass P} {p : Param P} (h : p ∈ c.copyable) :
    p ∈ c.params := (List.mem_filter.mp h).1

theorem isReadOnly_of_mem_copyable {c : ObjectClass P} {p : Param P} (h : p ∈ c.copyable) :
    p.isReadOnly = false := by
  simpa [Param.isCopyable] using (List.mem_filter.mp h).2

theorem mem_copyable {c : ObjectClass P} {p : Param P} (h : p ∈ c.params)
    (hc : p.isCopyable = true) : p ∈ c.copyable := List.mem_filter.mpr ⟨h, hc⟩

theorem mem_of_param? {c : ObjectClass P} {name : String} {p : Param P}
    (h : c.param? name = some p) : p ∈ c.params := List.mem_of_find?_eq_some h

theorem name_of_param? {c : ObjectClass P} {name : String} {p : Param P}
    (h : c.param? name = some p) : p.name = name := by
  simpa using List.find?_some h

theorem type_of_initialPayload {c : ObjectClass P} {payload : Payload P}
    (h : c.initialPayload? = some payload) : payload.type = c.payloadType := by
  obtain ⟨d, _, rfl⟩ := Option.map_eq_some_iff.mp h
  rfl

/-! ### Unique names -/

/-- No two parameters have the same name. -/
def WellFormed (c : ObjectClass P) : Prop := (c.params.map Param.name).Nodup

/-- The names of the parameters that are copied are unique. -/
theorem nodup_copyable {c : ObjectClass P} (h : c.WellFormed) :
    (c.copyable.map Param.name).Nodup :=
  h.sublist (List.filter_sublist.map Param.name)

theorem eq_of_name_eq {c : ObjectClass P} (hc : c.WellFormed) {p q : Param P}
    (hp : p ∈ c.params) (hq : q ∈ c.params) (h : p.name = q.name) : p = q :=
  List.inj_on_of_nodup_map hc hp hq h

/-- A parameter is found by its name. -/
theorem param?_of_mem {c : ObjectClass P} (hc : c.WellFormed) {p : Param P} (hp : p ∈ c.params) :
    c.param? p.name = some p := by
  cases h : c.param? p.name with
  | none => exact absurd (List.find?_eq_none.mp h p hp) (by simp)
  | some q => rw [eq_of_name_eq hc (mem_of_param? h) hp (name_of_param? h)]

/-- A name singles out a parameter. -/
theorem filter_name_eq {ps : List (Param P)} (h : (ps.map Param.name).Nodup) {p : Param P}
    (hp : p ∈ ps) : (ps.filter fun q => q.name == p.name) = [p] := by
  induction ps with
  | nil => cases hp
  | cons q rest ih =>
    obtain ⟨hq, hrest⟩ := List.nodup_cons.mp h
    rcases List.mem_cons.mp hp with rfl | hp
    · have hnone : (rest.filter fun q => q.name == p.name) = [] := by
        refine List.filter_eq_nil_iff.mpr fun q hm hn => hq ?_
        rw [← eq_of_beq hn]
        exact List.mem_map_of_mem hm
      rw [List.filter_cons_of_pos (by simp), hnone]
    · have hne : q.name ≠ p.name := by
        intro hn
        rw [hn] at hq
        exact hq (List.mem_map_of_mem hp)
      rw [List.filter_cons_of_neg (by simpa using hne), ih hrest hp]

theorem mem_of_mem_declare {t : P.Name} {d d' : Declaration P t} {ds : List (Declaration P t)}
    (h : d' ∈ declare d ds) : d' = d ∨ d' ∈ ds := by
  induction ds with
  | nil => exact Or.inl (List.mem_singleton.mp h)
  | cons q rest ih =>
    unfold declare at h
    split at h
    · rcases List.mem_cons.mp h with h | h
      · exact Or.inl h
      · exact Or.inr (List.mem_cons_of_mem q h)
    · rcases List.mem_cons.mp h with h | h
      · exact Or.inr (h ▸ List.mem_cons_self)
      · exact (ih h).imp id (List.mem_cons_of_mem q)

/-- The parameters of a class were declared. -/
theorem exists_of_mem_params_build {tag : TypeTag} {t : P.Name} {d : Option (P.Data t)}
    {ds : List (Declaration P t)} {p : Param P} (h : p ∈ (build tag t d ds).params) :
    ∃ x ∈ ds, p = x.val := by
  have step (ds acc : List (Declaration P t)) {x : Declaration P t}
      (h : x ∈ ds.foldl (fun ds d => declare d ds) acc) : x ∈ ds ∨ x ∈ acc := by
    induction ds generalizing acc with
    | nil => exact Or.inr h
    | cons d rest ih =>
      rcases ih _ h with h | h
      · exact Or.inl (List.mem_cons_of_mem d h)
      · rcases mem_of_mem_declare h with rfl | h
        · exact Or.inl List.mem_cons_self
        · exact Or.inr h
  obtain ⟨x, hx, rfl⟩ := List.mem_map.mp h
  exact ⟨x, (step ds [] hx).resolve_right List.not_mem_nil, rfl⟩

theorem map_name_declare {t : P.Name} (d : Declaration P t) (ds : List (Declaration P t)) :
    (declare d ds).map (·.val.name) =
      if d.val.name ∈ ds.map (·.val.name) then ds.map (·.val.name)
      else ds.map (·.val.name) ++ [d.val.name] := by
  induction ds with
  | nil => simp [declare]
  | cons q rest ih =>
    unfold declare
    -- The head is overridden, or the name is declared further on, or it is new.
    by_cases hq : q.val.name = d.val.name
    · simp [hq]
    · by_cases hm : d.val.name ∈ rest.map (·.val.name)
      · rw [if_neg hq, List.map_cons, ih, if_pos hm, List.map_cons,
          if_pos (List.mem_cons_of_mem _ hm)]
      · have hn : d.val.name ∉ q.val.name :: rest.map (·.val.name) := by
          intro h
          rcases List.mem_cons.mp h with h | h
          · exact hq h.symm
          · exact hm h
        rw [if_neg hq, List.map_cons, ih, if_neg hm, List.map_cons, if_neg hn, List.cons_append]

theorem nodup_names_declare {t : P.Name} (d : Declaration P t) {ds : List (Declaration P t)}
    (h : (ds.map (·.val.name)).Nodup) : ((declare d ds).map (·.val.name)).Nodup := by
  rw [map_name_declare]
  split
  · exact h
  · next hm =>
    refine List.nodup_append.mpr ⟨h, by simp, fun a ha b hb hab => hm ?_⟩
    rwa [← List.mem_singleton.mp hb, ← hab]

theorem wellFormed_build (tag : TypeTag) (t : P.Name) (d : Option (P.Data t))
    (ds : List (Declaration P t)) : (build tag t d ds).WellFormed := by
  have step (ds acc : List (Declaration P t)) (h : (acc.map (·.val.name)).Nodup) :
      ((ds.foldl (fun ds d => declare d ds) acc).map (·.val.name)).Nodup := by
    induction ds generalizing acc with
    | nil => exact h
    | cons d rest ih => exact ih _ (nodup_names_declare d h)
  unfold WellFormed params build
  rw [List.map_map]
  exact step ds [] List.nodup_nil

end ObjectClass

namespace Registry

/-! ### Looking up -/

theorem typeTag_of_find? {r : Registry P} {tag : TypeTag} {c : ObjectClass P}
    (h : r.find? tag = some c) : c.typeTag = tag := by
  simpa using List.find?_some h

theorem class?_eq_ok {r : Registry P} {tag : TypeTag} {c : ObjectClass P} :
    r.class? tag = .ok c ↔ r.find? tag = some c := by
  unfold class?
  split <;> simp_all

theorem class?_of_none {r : Registry P} {tag : TypeTag} (h : r.find? tag = none) :
    r.class? tag = .error (.unknownType tag) := by
  unfold class?
  rw [h]

theorem param?_eq_ok {r : Registry P} {tag : TypeTag} {name : String} {p : Param P} :
    r.param? tag name = .ok p ↔ ∃ c, r.find? tag = some c ∧ c.param? name = some p := by
  unfold param?
  cases h : r.class? tag with
  | error e => simp [← class?_eq_ok, h]
  | ok c =>
    have hf := class?_eq_ok.mp h
    cases hp : c.param? name with
    | none => simp [hf, hp]
    | some q => simp [hf, hp]

/-! ### Well-formed registries -/

/-- The names of parameters are unique in every class. -/
def WellFormed (r : Registry P) : Prop := ∀ c ∈ r.classes, c.WellFormed

theorem WellFormed.of_find? {r : Registry P} (h : r.WellFormed) {tag : TypeTag}
    {c : ObjectClass P} (hc : r.find? tag = some c) : c.WellFormed :=
  h c (List.mem_of_find?_eq_some hc)

theorem eq_or_mem_of_mem_insertClass {c d : ObjectClass P} {cs : List (ObjectClass P)}
    (h : d ∈ insertClass c cs) : d = c ∨ d ∈ cs := by
  induction cs with
  | nil => exact Or.inl (by simpa [insertClass] using h)
  | cons q rest ih =>
    unfold insertClass at h
    split at h
    · exact List.mem_cons.mp h
    · rcases List.mem_cons.mp h with h | h
      · exact Or.inr (h ▸ List.mem_cons_self)
      · exact (ih h).imp_right (List.mem_cons_of_mem _)

theorem wellFormed_register {r s : Registry P} {c : ObjectClass P} (hr : r.WellFormed)
    (hc : c.WellFormed) (h : r.register c = .ok s) : s.WellFormed := by
  unfold register at h
  split at h
  · cases h
  · cases h
    intro d hd
    rcases eq_or_mem_of_mem_insertClass hd with rfl | hd
    · exact hc
    · exact hr d hd

theorem find?_insertClass_of_ne {c : ObjectClass P} {tag : TypeTag} (h : c.typeTag ≠ tag)
    (cs : List (ObjectClass P)) :
    (insertClass c cs).find? (fun d => d.typeTag == tag) =
      cs.find? (fun d => d.typeTag == tag) := by
  have hc : (c.typeTag == tag) = false := beq_false_of_ne h
  induction cs with
  | nil => simp [insertClass, hc]
  | cons d rest ih =>
    unfold insertClass
    split
    · rw [List.find?_cons, hc]
    · rw [List.find?_cons, List.find?_cons, ih]

/-- A class that is known stays known. -/
theorem find?_register {r s : Registry P} {c d : ObjectClass P} {tag : TypeTag}
    (h : r.register c = .ok s) (hd : r.find? tag = some d) : s.find? tag = some d := by
  unfold register at h
  split at h
  · cases h
  · next hnew =>
    cases h
    have hne : c.typeTag ≠ tag := by
      rintro rfl
      exact hnew (by simp [contains, hd])
    exact (find?_insertClass_of_ne hne r.classes).trans hd

end Registry

end EntityBook
