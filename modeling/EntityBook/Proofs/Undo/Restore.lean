import EntityBook.Book.Undo
import EntityBook.Proofs.Book.Revision
import EntityBook.Proofs.Instance.Same

/-! # Restoring values

  A restore changes one parameter of one instance. What a sequence of restores
  makes of a value is a fold over the captures of that parameter alone:
  `value?_foldl_restored` takes a replay apart into entities and parameters, so
  that undo can be reasoned about one value at a time.
-/

namespace EntityBook

variable {P : PayloadFamily}

namespace Instance

/-! ### One restore -/

/-- What a restore makes of an instance. -/
def restored (i : Instance P) (c : Change P) (seen : Capture) : Instance P :=
  match c.path, seen with
  | _, .pending => i
  | none, .absent => i
  | none, .value s =>
    match i.writeText c.param s with
    | .ok j => j
    | .error _ => i
  | some path, .absent => i.withSlots (i.slots.delete path).2
  | some path, .value s =>
    match Slot.parse s with
    | .error _ => i
    | .ok slot =>
      match i.slots.set path slot with
      | .ok (_, slots) => i.withSlots slots
      | .error _ => i.withSlots i.slots

theorem rewrites_restored (i : Instance P) (c : Change P) (seen : Capture) :
    i.Rewrites (i.restored c seen) := by
  unfold restored
  split
  · exact .refl i
  · exact .refl i
  · split
    · next h => exact rewrites_writeText h
    · exact .refl i
  · exact .withSlots i _
  · split
    · exact .refl i
    · split
      · exact .withSlots i _
      · exact .withSlots i _

/-- A restore does the same to instances with the same contents. -/
theorem Same.restored {i j : Instance P} (h : i.Same j) (c : Change P) (seen : Capture) :
    (i.restored c seen).Same (j.restored c seen) := by
  unfold Instance.restored
  cases c.path with
  | none =>
    cases seen with
    | pending | absent => exact h
    | value s =>
      dsimp only
      -- A write succeeds on both instances or on neither.
      cases hi : i.writeText c.param s with
      | ok k =>
        obtain ⟨l, hl, hs⟩ := h.writeText hi
        rw [hl]
        exact hs
      | error e =>
        cases hj : j.writeText c.param s with
        | ok l =>
          obtain ⟨k, hk, _⟩ := h.symm.writeText hj
          rw [hi] at hk
          cases hk
        | error e' => exact h
  | some path =>
    cases seen with
    | pending => exact h
    | absent =>
      dsimp only
      rw [h.slots]
      exact h.withSlots _
    | value s =>
      dsimp only
      cases Slot.parse s with
      | error e => exact h
      | ok slot =>
        dsimp only
        rw [h.slots]
        cases j.slots.set path slot with
        | ok r => exact h.withSlots _
        | error e => exact h.withSlots _

end Instance

namespace Book

variable {b : Book P}

/-- Restoring a value of a live entity. -/
theorem get?_restore_self {c : Change P} (seen : Capture) {i : Instance P}
    (h : b.get? c.entity = some i) (hd : i.deleting = true → 0 < i.level) :
    ∃ k, (b.restore c seen).get? c.entity = some k ∧ k.Same (i.restored c seen) := by
  have hlive : b.contains c.entity = true := contains_of_some h
  -- An edit shows what its change makes of the instance, which is the same inside.
  have edited {f : Instance P → Unit × Instance P} {j : Instance P}
      (hr : i.enter.Rewrites (f i.enter).2) (hs : (f i.enter).2.Same j) :
      ∃ k, (b.edit c.entity f).2.get? c.entity = some k ∧ k.Same j := by
    obtain ⟨k, hk, hclean⟩ := get?_edit_self h hr hd
    exact ⟨k, hk, (Instance.Same.of_markClean hclean).trans ((Instance.Same.leave _).symm.trans hs)⟩
  unfold restore Instance.restored
  rw [if_neg (by simp [hlive])]
  cases c.path with
  | none =>
    cases seen with
    | pending | absent => exact ⟨i, h, .refl i⟩
    | value s =>
      dsimp only
      cases hw : i.writeText c.param s with
      | ok j =>
        obtain ⟨l, hl, hs⟩ := (Instance.Same.enter i).writeText hw
        obtain ⟨k, hk, hclean⟩ := get?_tryEdit_self (f := fun i => i.writeText c.param s) h hl
          (Instance.rewrites_writeText hl) hd
        exact ⟨k, hk, (Instance.Same.of_markClean hclean).trans
          ((Instance.Same.leave l).symm.trans hs.symm)⟩
      | error e =>
        cases hw' : i.enter.writeText c.param s with
        | ok l =>
          obtain ⟨j, hj, _⟩ := (Instance.Same.enter i).symm.writeText hw'
          rw [hw] at hj
          cases hj
        | error e' =>
          obtain ⟨k, hk, hclean⟩ :=
            get?_tryEdit_failed (f := fun i => i.writeText c.param s) h hw' hd
          exact ⟨k, hk, .of_markClean hclean⟩
  | some path =>
    cases seen with
    | pending => exact ⟨i, h, .refl i⟩
    | absent =>
      dsimp only
      exact edited (.withSlots _ _) ⟨rfl, rfl, rfl⟩
    | value s =>
      dsimp only
      cases Slot.parse s with
      | error e => exact ⟨i, h, .refl i⟩
      | ok slot =>
        refine edited ?_ ?_
        · cases i.enter.slots.set path slot with
          | ok r => exact .withSlots _ _
          | error e => exact .withSlots _ _
        · have hslots : i.enter.slots = i.slots := rfl
          dsimp only
          rw [hslots]
          cases i.slots.set path slot with
          | ok r => exact ⟨rfl, rfl, rfl⟩
          | error e => exact ⟨rfl, rfl, rfl⟩

theorem get?_restore_of_ne {c : Change P} {seen : Capture} {e : Entity} (h : e ≠ c.entity) :
    (b.restore c seen).get? e = b.get? e := by
  unfold restore
  split
  · rfl
  · split
    · rfl
    · rfl
    · exact get?_tryEdit_of_ne h
    · exact get?_edit_of_ne h
    · split
      · rfl
      · exact get?_edit_of_ne h

theorem Revises.restore (hb : b.WellFormed) (c : Change P) (seen : Capture) :
    b.Revises (b.restore c seen) := by
  unfold Book.restore
  split
  · exact .refl b
  · split
    · exact .refl b
    · exact .refl b
    · exact .tryEdit hb fun _ _ h => Instance.rewrites_writeText h
    · exact .edit hb fun i => .withSlots i _
    · split
      · exact .refl b
      · refine .edit hb ?_
        intro i
        split
        · exact .withSlots i _
        · exact .withSlots i _

/-! ### Sequences of restores -/

/-- Restores values one after the other. -/
def restoreAll (b : Book P) (side : Change P → Capture) (cs : List (Change P)) : Book P :=
  cs.foldl (fun b c => b.restore c (side c)) b

theorem Revises.restoreAll (hb : b.WellFormed) (side : Change P → Capture)
    (cs : List (Change P)) : b.Revises (b.restoreAll side cs) := by
  induction cs generalizing b with
  | nil => exact .refl b
  | cons c rest ih =>
    have hone := Revises.restore hb c (side c)
    exact hone.trans (ih (hone.wellFormed hb))

/-- Of a sequence of restores an instance sees those that name its entity. -/
theorem get?_restoreAll (hb : b.WellFormed) (side : Change P → Capture) (cs : List (Change P))
    {e : Entity} {i : Instance P} (h : b.get? e = some i) :
    ∃ k, (b.restoreAll side cs).get? e = some k ∧
      k.Same ((cs.filter fun c => c.entity == e).foldl (fun i c => i.restored c (side c)) i) := by
  -- The instance in the book has the contents of the replayed one, edits aside.
  have congr (cs : List (Change P)) {i j : Instance P} (hij : i.Same j) :
      (cs.foldl (fun i c => i.restored c (side c)) i).Same
        (cs.foldl (fun i c => i.restored c (side c)) j) := by
    induction cs generalizing i j with
    | nil => exact hij
    | cons c rest ih => exact ih (hij.restored c (side c))
  induction cs generalizing b i with
  | nil => exact ⟨i, h, .refl i⟩
  | cons c rest ih =>
    have hone := Revises.restore hb c (side c)
    by_cases he : c.entity = e
    · subst he
      obtain ⟨k, hk, hsame⟩ := get?_restore_self (side c) h (hb.fits _ _ h).deleting
      obtain ⟨l, hl, hlast⟩ := ih (hone.wellFormed hb) hk
      refine ⟨l, hl, ?_⟩
      rw [List.filter_cons_of_pos (by simp)]
      exact hlast.trans (congr _ hsame)
    · rw [List.filter_cons_of_neg (by simpa using he)]
      exact ih (hone.wellFormed hb) ((get?_restore_of_ne (Ne.symm he)).trans h)

end Book

/-! ### One value -/

/-- What a restore makes of the value of the parameter that it is about. -/
def ParamValue.restored (v : ParamValue) (c : Change P) (seen : Capture) : ParamValue :=
  match c.path, seen, v with
  | none, .value s, v =>
    match ParamValue.parse c.param.kind s with
    | .ok w => w
    | .error _ => v
  | some path, .absent, .slots f => .slots (f.delete path).2
  | some path, .value s, .slots f =>
    match Slot.parse s with
    | .error _ => .slots f
    | .ok slot =>
      match f.set path slot with
      | .ok (_, g) => .slots g
      | .error _ => .slots f
  | _, _, v => v

/-- A change is about a parameter that undo can restore: a slot of the side-table
    or another parameter as a whole. -/
structure Change.Fits (c : Change P) (cl : ObjectClass P) : Prop where
  param : c.param ∈ cl.copyable
  path : c.path.isSome = c.param.isSlots

namespace Instance

variable {cl : ObjectClass P} {i : Instance P} {c : Change P} {seen : Capture}

theorem accessor_of_isSlots {p : Param P} (h : p.isSlots = true) : p.accessor = .slots := by
  unfold Param.isSlots at h
  cases ha : p.accessor with
  | slots => rfl
  | _ =>
    rw [ha] at h
    cases h

theorem value?_restored_self (hlaw : cl.IsLawful) (htype : i.payload.type = cl.payloadType)
    (hc : c.Fits cl) {v : ParamValue} (hv : i.value? c.param.accessor = some v) :
    (i.restored c seen).value? c.param.accessor = some (v.restored c seen) := by
  have hpath := hc.path
  unfold restored ParamValue.restored
  -- A change without a path writes the parameter, one with a path patches the slots.
  cases hp : c.path with
  | none =>
    rw [hp] at hpath
    cases seen with
    | pending | absent => exact hv
    | value s =>
      dsimp only
      cases hparse : ParamValue.parse c.param.kind s with
      | error e =>
        have hfail : i.writeText c.param s = .error (.invalidValue c.param.name e) := by
          unfold writeText
          rw [if_neg (by simp [ObjectClass.isReadOnly_of_mem_copyable hc.param]), hparse]
        rw [hfail]
        exact hv
      | ok w =>
        have hro := ObjectClass.isReadOnly_of_mem_copyable hc.param
        have hfor := ObjectClass.isFor_of_mem_params
          (ObjectClass.mem_params_of_mem_copyable hc.param)
        obtain ⟨j, hj⟩ := exists_write hro (htype ▸ hfor) (ParamValue.hasKind_of_parse hparse)
        have hok : i.writeText c.param s = .ok j := by
          unfold writeText
          rw [if_neg (by simp [hro]), hparse]
          exact hj
        rw [hok]
        exact value?_write_self (hlaw.accessor _ hc.param) hj
  | some path =>
    rw [hp] at hpath
    have ha := accessor_of_isSlots hpath.symm
    rw [ha] at hv ⊢
    cases hv
    cases seen with
    | pending | absent => rfl
    | value s =>
      dsimp only
      cases Slot.parse s with
      | error e => rfl
      | ok slot =>
        dsimp only
        cases i.slots.set path slot with
        | ok r => rfl
        | error e => rfl

theorem value?_restored_of_ne (hlaw : cl.IsLawful) (hc : c.Fits cl) {p : Param P}
    (hp : p ∈ cl.copyable) (hne : c.param.name ≠ p.name) :
    (i.restored c seen).value? p.accessor = i.value? p.accessor := by
  have hind := hlaw.independent _ hc.param p hp hne
  have hpath := hc.path
  unfold restored
  cases hcp : c.path with
  | none =>
    cases seen with
    | pending | absent => rfl
    | value s =>
      dsimp only
      cases hw : i.writeText c.param s with
      | error e => rfl
      | ok j =>
        obtain ⟨_, v, _, hv⟩ := writeText_cases hw
        exact hind _ _ _ hv
  | some path =>
    rw [hcp] at hpath
    have ha := accessor_of_isSlots hpath.symm
    -- Replacing the side-table is a write to its parameter.
    have hslots (f : Frame) : (i.withSlots f).value? p.accessor = i.value? p.accessor := by
      refine hind i (i.withSlots f) (.slots f) ?_
      unfold write
      rw [ha]
    cases seen with
    | pending => rfl
    | absent => exact hslots _
    | value s =>
      dsimp only
      cases Slot.parse s with
      | error e => rfl
      | ok slot =>
        dsimp only
        cases i.slots.set path slot with
        | ok r => exact hslots _
        | error e => exact hslots _

/-- Of a sequence of restores a value sees those of its parameter. -/
theorem value?_foldl_restored (hcl : cl.WellFormed) (hlaw : cl.IsLawful)
    (htype : i.payload.type = cl.payloadType) (side : Change P → Capture) {cs : List (Change P)}
    (hcs : ∀ c ∈ cs, c.Fits cl) {p : Param P} (hp : p ∈ cl.copyable) {v : ParamValue}
    (hv : i.value? p.accessor = some v) :
    (cs.foldl (fun i c => i.restored c (side c)) i).value? p.accessor =
      some ((cs.filter fun c => c.param.name == p.name).foldl
        (fun v c => v.restored c (side c)) v) := by
  induction cs generalizing i v with
  | nil => exact hv
  | cons c rest ih =>
    have hc := hcs c List.mem_cons_self
    have hrest : ∀ c ∈ rest, c.Fits cl := by
      intro c' hc'
      exact hcs c' (List.mem_cons_of_mem c hc')
    have htype' : (i.restored c (side c)).payload.type = cl.payloadType :=
      (rewrites_restored i c (side c)).payload.trans htype
    -- In a well-formed class the name stands for the parameter.
    by_cases hn : c.param.name = p.name
    · have heq : c.param = p := ObjectClass.eq_of_name_eq hcl
        (ObjectClass.mem_params_of_mem_copyable hc.param)
        (ObjectClass.mem_params_of_mem_copyable hp) hn
      rw [List.filter_cons_of_pos (by simpa using hn)]
      refine ih htype' hrest ?_
      rw [← heq] at hv ⊢
      exact value?_restored_self hlaw htype hc hv
    · rw [List.filter_cons_of_neg (by simpa using hn)]
      refine ih htype' hrest ?_
      rw [value?_restored_of_ne hlaw hc hp hn]
      exact hv

end Instance

end EntityBook
