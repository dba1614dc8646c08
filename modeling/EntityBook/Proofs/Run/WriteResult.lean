import EntityBook.Proofs.Run.Hook
import EntityBook.Proofs.Run.Verdict

/-! # What the result of a write tells

  A write is made inside an edit, so it has two results: its own, and the verdict on the
  commit that closes the edit. The caller hears one of them. A refused commit leaves the
  value that was written, so a refusal is read as news of a value that is there now; every
  other error, as news of a book where nothing changed.

  The refusal is told first. A write that failed is committed all the same, so if the
  backend refuses that commit, the caller hears of the refusal although nothing was
  written: `writes_tell_iff` shows that this is the only way to be misled.
-/

namespace EntityBook

variable {P : PayloadFamily}

/-! ### What is given -/

/-- What is given to be written: a value, or the text of one. -/
inductive Given where
  | value (v : ParamValue)
  | text (s : String)

/-- The value that is given for a parameter of a kind. -/
def Given.parse (k : ParamKind) : Given → Except ValueError ParamValue
  | value v => .ok v
  | text s => ParamValue.parse k s

namespace Instance

/-- Writes what is given. -/
def assign (i : Instance P) (p : Param P) : Given → Except StoreError (Instance P)
  | .value v => i.write p v
  | .text s => i.writeText p s

variable {i j : Instance P} {p : Param P} {x : Given}

theorem assign_cases (h : i.assign p x = .ok j) :
    p.isReadOnly = false ∧ ∃ v, x.parse p.kind = .ok v ∧ i.write p v = .ok j := by
  cases x with
  | value v => exact ⟨(exists_write_iff.mp ⟨j, h⟩).2.1, v, rfl, h⟩
  | text s => exact writeText_cases h

theorem writeField_enter {V : Type} (i : Instance P) (p : Param P) (f : Field P V) (w : V) :
    i.enter.writeField p f w = (i.writeField p f w).map Instance.enter := by
  have hpayload : i.enter.payload = i.payload := rfl
  unfold writeField
  rw [hpayload]
  cases f.set with
  | none => rfl
  | some set => cases i.payload.as? f.type <;> rfl

theorem write_enter (i : Instance P) (p : Param P) (v : ParamValue) :
    i.enter.write p v = (i.write p v).map Instance.enter := by
  unfold write
  cases p.accessor with
  | scalar k f =>
    cases v with
    | scalar l w =>
      dsimp only
      split
      · exact writeField_enter i p f _
      · rfl
    | _ => rfl
  | slots => cases v <;> rfl
  | book => rfl
  | reference t f =>
    cases v with
    | reference w => exact writeField_enter i p f w
    | _ => rfl
  | choice f =>
    cases v with
    | choice w => exact writeField_enter i p f w
    | _ => rfl
  | collection t f =>
    cases v with
    | collection w => exact writeField_enter i p f w
    | _ => rfl

/-- Inside an edit the same is written. -/
theorem assign_enter (i : Instance P) (p : Param P) (x : Given) :
    i.enter.assign p x = (i.assign p x).map Instance.enter := by
  cases x with
  | value v => exact write_enter i p v
  | text s =>
    show i.enter.writeText p s = (i.writeText p s).map Instance.enter
    unfold writeText
    split
    · rfl
    · cases ParamValue.parse p.kind s with
      | ok v => exact write_enter i p v
      | error e => rfl

theorem writeField_ne_rejected {V : Type} (i : Instance P) (p : Param P) (f : Field P V) (w : V)
    (reason : String) : i.writeField p f w ≠ .error (.rejected reason) := by
  unfold writeField
  split
  · simp
  · split <;> simp [mismatch]

theorem write_ne_rejected (i : Instance P) (p : Param P) (v : ParamValue) (reason : String) :
    i.write p v ≠ .error (.rejected reason) := by
  unfold write
  split
  · split
    · exact writeField_ne_rejected i p _ _ reason
    · simp [unsupported]
  · simp
  · exact writeField_ne_rejected i p _ _ reason
  · exact writeField_ne_rejected i p _ _ reason
  · exact writeField_ne_rejected i p _ _ reason
  · simp
  · simp [unsupported]

/-- What fails without the backend is no error of the backend. -/
theorem assign_ne_rejected {err : StoreError} (h : i.assign p x = .error err) (reason : String) :
    err ≠ .rejected reason := by
  rintro rfl
  cases x with
  | value v => exact write_ne_rejected i p v reason h
  | text s =>
    have h : i.writeText p s = .error (.rejected reason) := h
    unfold writeText at h
    split at h
    · cases h
    · split at h
      · exact write_ne_rejected i p _ reason h
      · cases h

end Instance

namespace Book

variable {b : Book P} {e : Entity} {name : String} {i j : Instance P} {p : Param P} {x : Given}

/-- Writes what is given to a parameter of an entity, inside one edit. -/
def assign (b : Book P) (e : Entity) (name : String) : Given → Except StoreError Unit × Book P
  | .value v => b.write e name v
  | .text s => b.writeText e name s

theorem assign_eq (b : Book P) (e : Entity) (name : String) (x : Given) : b.assign e name x =
    match b.param? e name with
    | .error err => (.error err, b)
    | .ok p => b.tryEdit e fun i => i.assign p x := by
  cases x <;> rfl

theorem keeps_assign (b : Book P) (e : Entity) (name : String) (x : Given) :
    b.Keeps (b.assign e name x).2 := by
  rw [assign_eq]
  split
  · exact .refl b
  · exact .tryEdit b e _

/-! ### The verdict on an edit -/

/-- The reason for which the backend refuses the commit that closes an edit of the instance
    `i`, if the edit leaves the instance `j`. Only the outermost edit is committed. -/
def refusal? (b : Book P) (i j : Instance P) : Option String :=
  if i.level = 0 then b.backend.refusal (b.calls ++ [.begin i.enter]) j else none

/-- What the caller hears: a refusal first, otherwise the result of the change. -/
def heard (refusal : Option String) (r : Except StoreError Unit) : Except StoreError Unit :=
  match refusal with
  | some reason => .error (.rejected reason)
  | none => r

theorem settle_fst (c : Book P) (e : Entity) (k : Instance P) :
    (c.settle e k).1 = heard (c.backend.refusal c.calls k) (.ok ()) := by
  unfold settle heard
  cases c.backend.refusal c.calls k <;> rfl

/-- The verdict on closing an edit that stays inside a live instance. -/
theorem commitEdit_fst {c : Book P} {k : Instance P} (h : c.get? e = some k) (hl : 0 < k.level)
    (hd : k.level = 1 → k.deleting = false) : (c.commitEdit e).1 =
      heard (if k.level = 1 then c.backend.refusal c.calls k.leave else none) (.ok ()) := by
  by_cases houter : k.level = 1
  · rw [commitEdit_of_kept h houter (hd houter), if_pos houter]
    -- Putting the instance back changes neither the backend nor what it has heard.
    exact settle_fst (c.put e k.leave) e k.leave
  · rw [commitEdit_of_inner h (by omega), if_neg houter]
    rfl

/-- What the caller hears of a change that leaves the instance `j`. -/
theorem tryEdit_fst {f : Instance P → Except StoreError (Instance P)} (hi : b.get? e = some i)
    (hidle : i.deleting = true → 0 < i.level) {r : Except StoreError Unit}
    (hf : attempt (fun i => (f i).map fun j => ((), j)) i.enter = (r, j.enter))
    (hj : i.Rewrites j) : (b.tryEdit e f).1 = heard (b.refusal? i j) r := by
  have hlevel : j.enter.level = i.level + 1 := congrArg (· + 1) hj.level
  have houter : j.enter.level = 1 ↔ i.level = 0 := by omega
  have hstays : j.enter.level = 1 → j.enter.deleting = false := by
    intro hl
    have hdeleting : j.enter.deleting = i.deleting := hj.deleting
    cases hd : i.deleting with
    | false => exact hdeleting.trans hd
    | true =>
      have := hidle hd
      omega
  have hbackend : (b.beginEdit e).2.backend = b.backend := (Keeps.beginEdit b e).backend
  have hverdict : (((b.beginEdit e).2.put e j.enter).commitEdit e).1 =
      heard (b.refusal? i j) (.ok ()) := by
    rw [commitEdit_fst (get?_put_self _ e _) (by omega) hstays]
    show heard (if j.enter.level = 1 then
      (b.beginEdit e).2.backend.refusal (b.beginEdit e).2.calls j else none) (.ok ()) = _
    rw [hbackend, calls_beginEdit_of_some hi]
    unfold refusal?
    by_cases hl : i.level = 0
    · rw [if_pos (houter.mpr hl), if_pos hl, if_pos hl]
    · rw [if_neg (mt houter.mp hl), if_neg hl]
  unfold tryEdit edit
  simp only [hi, hf, hverdict]
  unfold heard
  cases b.refusal? i j <;> rfl

/-! ### What a write comes to -/

section Live

variable (hb : b.WellFormed) (hi : b.get? e = some i) (hp : b.param? e name = .ok p)

include hb hi hp

/-- A write that succeeds: its value is there, and the caller hears of a refusal or of
    nothing. -/
theorem assign_of_ok (hw : i.assign p x = .ok j) :
    (b.assign e name x).1 = heard (b.refusal? i j) (.ok ()) ∧
      ∃ k, (b.assign e name x).2.get? e = some k ∧ k.Same j := by
  have hidle := (hb.fits e i hi).deleting
  obtain ⟨_, v, _, hwrite⟩ := Instance.assign_cases hw
  have henter : i.enter.assign p x = .ok j.enter := by
    rw [Instance.assign_enter, hw]
    rfl
  have hrw : i.enter.Rewrites j.enter := by
    have h := Instance.rewrites_write hwrite
    exact ⟨h.entity, h.owner, congrArg (· + 1) h.level, h.deleting, h.payload⟩
  rw [assign_eq, hp]
  refine ⟨tryEdit_fst hi hidle (attempt_of_ok ?_) (Instance.rewrites_write hwrite), ?_⟩
  · rw [henter]
    rfl
  · obtain ⟨k, hk, hclean⟩ := get?_tryEdit_self (f := fun i => i.assign p x) hi henter hrw hidle
    exact ⟨k, hk, (Instance.Same.of_markClean hclean).trans ((Instance.Same.enter j).trans
      (Instance.Same.leave _)).symm⟩

/-- A write that fails: the book holds what it held, and the caller hears of the failure
    unless the backend refuses the commit. -/
theorem assign_of_error {err : StoreError} (hw : i.assign p x = .error err) :
    (b.assign e name x).1 = heard (b.refusal? i i) (.error err) ∧
      b.SameContents (b.assign e name x).2 := by
  have hidle := (hb.fits e i hi).deleting
  have henter : i.enter.assign p x = .error err := by
    rw [Instance.assign_enter, hw]
    rfl
  rw [assign_eq, hp]
  refine ⟨tryEdit_fst hi hidle (attempt_of_error ?_) (.refl i), ?_⟩
  · rw [henter]
    rfl
  · have hk := Keeps.tryEdit b e fun i => i.assign p x
    refine ⟨hk.id, hk.registry, hk.config, hk.opened, hk.undo, hk.pending, fun e' => ?_⟩
    by_cases he : e' = e
    · subst he
      obtain ⟨k, hk, hclean⟩ := get?_tryEdit_failed (f := fun i => i.assign p x) hi henter hidle
      show Option.map _ ((b.tryEdit e' fun i => i.assign p x).2.get? e') = _
      rw [hk, hi]
      exact congrArg some hclean
    · show Option.map _ ((b.tryEdit e fun i => i.assign p x).2.get? e') = _
      rw [get?_tryEdit_of_ne he]

end Live

/-! ### What the caller is told -/

theorem read_eq_read (hi : b.get? e = some i) (hp : b.param? e name = .ok p) :
    b.read e name = i.read p := by
  unfold Book.read instance?
  rw [hp, hi]
  rfl

/-- A parameter reads as what is given for it. -/
def ReadsAs (b : Book P) (e : Entity) (name : String) (x : Given) : Prop :=
  ∃ p v, b.param? e name = .ok p ∧ x.parse p.kind = .ok v ∧ b.read e name = .ok v

/-- The result of a write tells what became of the parameter. After a success or a refusal it
    reads as what was given, after any other error the book holds what it held before. -/
structure ResultTells (b : Book P) (e : Entity) (name : String) (x : Given) : Prop where
  written : (b.assign e name x).1 = .ok () ∨
      (∃ reason, (b.assign e name x).1 = .error (.rejected reason)) →
    (b.assign e name x).2.ReadsAs e name x
  failed : ∀ err, (b.assign e name x).1 = .error err → (∀ reason, err ≠ .rejected reason) →
    b.SameContents (b.assign e name x).2

/-- A write fails and the backend refuses the commit of the instance that was not written:
    the refusal hides the failure. -/
def Hides (b : Book P) (e : Entity) (name : String) (x : Given) : Prop :=
  ∃ i p err, b.get? e = some i ∧ b.param? e name = .ok p ∧ i.assign p x = .error err ∧
    (b.refusal? i i).isSome = true

theorem ReadsAs.of_sameContents {b' : Book P} (h : b.SameContents b') :
    b'.ReadsAs e name x ↔ b.ReadsAs e name x := by
  unfold ReadsAs param?
  rw [h.read_eq, h.registry]

theorem param?_ne_rejected {err : StoreError} (h : b.param? e name = .error err)
    (reason : String) : err ≠ .rejected reason := by
  rintro rfl
  unfold param? Registry.param? Registry.class? at h
  split at h
  · next heq =>
    cases h
    split at heq <;> cases heq
  · split at h <;> cases h

/-- An error that is not the backend's tells that nothing has changed. -/
theorem resultTells_of_error {err : StoreError} (hr : (b.assign e name x).1 = .error err)
    (hne : ∀ reason, err ≠ .rejected reason) (hsame : b.SameContents (b.assign e name x).2) :
    b.ResultTells e name x := by
  refine ⟨?_, fun _ _ _ => hsame⟩
  rintro (hok | ⟨reason, hreason⟩)
  · cases hr.symm.trans hok
  · exact absurd (Except.error.inj (hr.symm.trans hreason)) (hne reason)

/-- A success or a refusal tells that the parameter reads as what was given. -/
theorem resultTells_iff {refusal : Option String}
    (hr : (b.assign e name x).1 = heard refusal (.ok ())) :
    b.ResultTells e name x ↔ (b.assign e name x).2.ReadsAs e name x := by
  constructor
  · intro h
    refine h.written ?_
    cases refusal with
    | none => exact .inl hr
    | some reason => exact .inr ⟨reason, hr⟩
  · intro h
    refine ⟨fun _ => h, ?_⟩
    intro err herr hne
    cases refusal with
    | none => cases hr.symm.trans herr
    | some reason => exact absurd (Except.error.inj (hr.symm.trans herr)).symm (hne reason)

/-- Where there is nothing to write to, the caller is told so. -/
theorem resultTells_of_not_live
    (h : ∀ i p, b.get? e = some i → b.param? e name = .ok p → False) :
    b.ResultTells e name x := by
  obtain ⟨err, hassign, hne⟩ : ∃ err, b.assign e name x = (.error err, b) ∧
      ∀ reason, err ≠ .rejected reason := by
    rw [assign_eq]
    cases hp : b.param? e name with
    | error err => exact ⟨err, rfl, param?_ne_rejected hp⟩
    | ok p =>
      cases hi : b.get? e with
      | none =>
        refine ⟨.entityNotFound e, ?_, by simp⟩
        dsimp only
        unfold tryEdit
        rw [edit_of_none hi]
        rfl
      | some i => exact absurd hp (h i p hi)
  exact resultTells_of_error (by rw [hassign]) hne (by rw [hassign]; exact .refl b)

section Live

variable (hb : b.WellFormed) (hi : b.get? e = some i) (hp : b.param? e name = .ok p)

include hi hp in
theorem hides_iff : b.Hides e name x ↔
    (∃ err, i.assign p x = .error err) ∧ (b.refusal? i i).isSome = true := by
  constructor
  · rintro ⟨i', p', err, hi', hp', hw, href⟩
    cases hi.symm.trans hi'
    cases hp.symm.trans hp'
    exact ⟨⟨err, hw⟩, href⟩
  · rintro ⟨⟨err, hw⟩, href⟩
    exact ⟨i, p, err, hi, hp, hw, href⟩

include hb hi hp

/-- A write that succeeds tells so, whatever the verdict: the value is there. -/
theorem resultTells_of_ok (lawful : p.accessor.IsLawful) (hw : i.assign p x = .ok j) :
    b.ResultTells e name x := by
  obtain ⟨hr, k, hk, hsame⟩ := assign_of_ok hb hi hp hw
  obtain ⟨_, v, hv, hwrite⟩ := Instance.assign_cases hw
  have hparam : (b.assign e name x).2.param? e name = .ok p := by
    unfold param?
    rw [(keeps_assign b e name x).registry]
    exact hp
  refine (resultTells_iff hr).mpr ⟨p, v, hparam, hv, ?_⟩
  rw [read_eq_read hk hparam]
  exact Instance.read_of_value
    ((hsame.value? _).trans (Instance.value?_write_self lawful hwrite))

/-- A write that fails tells so unless the commit is refused. Then the caller hears of the
    refusal, which is right if the parameter had the value already. -/
theorem resultTells_of_failed {err : StoreError} (hw : i.assign p x = .error err) :
    b.ResultTells e name x ↔
      ((b.refusal? i i).isSome = true → b.ReadsAs e name x) := by
  obtain ⟨hr, hsame⟩ := assign_of_error hb hi hp hw
  cases href : b.refusal? i i with
  | none =>
    rw [href] at hr
    exact iff_of_true (resultTells_of_error hr (Instance.assign_ne_rejected hw) hsame) (by simp)
  | some reason =>
    rw [href] at hr
    have hr : (b.assign e name x).1 = heard (some reason) (.ok ()) := hr
    rw [resultTells_iff hr, ReadsAs.of_sameContents hsame]
    simp

end Live

/-- The result of a write tells what became of the parameter, for every backend, unless a
    refusal hides a failure: then the caller takes the value for written, which is right only
    if the parameter had it already. In particular a text that does not parse is reported as
    such just if the backend does not refuse the commit of the instance as it is. -/
theorem writes_tell_iff (hb : b.WellFormed)
    (lawful : ∀ p, b.param? e name = .ok p → p.accessor.IsLawful) (x : Given) :
    (b.ResultTells e name x ↔ (b.Hides e name x → b.ReadsAs e name x)) ∧
    ∀ i p s cause, b.get? e = some i → b.param? e name = .ok p → p.isReadOnly = false →
      ParamValue.parse p.kind s = .error cause →
      ((b.writeText e name s).1 = .error (.invalidValue p.name cause) ↔ b.refusal? i i = none) ∧
        b.SameContents (b.writeText e name s).2 := by
  constructor
  · by_cases hlive : ∃ i p, b.get? e = some i ∧ b.param? e name = .ok p
    · obtain ⟨i, p, hi, hp⟩ := hlive
      rw [hides_iff hi hp]
      cases hw : i.assign p x with
      | ok j => exact iff_of_true (resultTells_of_ok hb hi hp (lawful p hp) hw) (by simp)
      | error err =>
        rw [resultTells_of_failed hb hi hp hw]
        simp
    · have hnone : ∀ i p, b.get? e = some i → b.param? e name = .ok p → False :=
        fun i p hi hp => hlive ⟨i, p, hi, hp⟩
      refine iff_of_true (resultTells_of_not_live hnone) ?_
      rintro ⟨i, p, _, hi, hp, _⟩
      exact absurd hp (hnone i p hi)
  · intro i p s cause hi hp hro hparse
    have hw : i.assign p (.text s) = .error (.invalidValue p.name cause) := by
      show i.writeText p s = _
      unfold Instance.writeText
      rw [if_neg (by simp [hro]), hparse]
    obtain ⟨hr, hsame⟩ := assign_of_error hb hi hp hw
    have hr : (b.writeText e name s).1 =
        heard (b.refusal? i i) (.error (.invalidValue p.name cause)) := hr
    refine ⟨?_, hsame⟩
    rw [hr]
    cases b.refusal? i i <;> simp [heard]

/-! ### A backend that refuses everything -/

section Counters

open Bag

/-- The count of a counter. -/
def countColumn : Column := { kind := .scalar .int32, name := "count", compartment := "count" }

/-- Counters. -/
def counterClass : ObjectClass bags :=
  .build "item" .alpha (some .empty) [countColumn.param .alpha]

/-- The only counter. -/
def counter : Entity := ⟨"item", ⟨1⟩⟩

/-- A book with a counter, whose backend refuses every commit. -/
def refusingBook : Book bags :=
  (create { id := ⟨2⟩, registry := ⟨[counterClass]⟩, backend := .refusing .always "full" }
    "item" counter.guid).2

theorem wellFormed_refusingBook : refusingBook.WellFormed := by
  refine WellFormed.create ⟨OrderedMap.sorted_empty, ?_, ?_⟩ "item" counter.guid
  · intro c hc
    cases List.mem_singleton.mp hc
    exact ObjectClass.wellFormed_build ..
  · intro e i h
    cases h

theorem isLawful_count (p : Param bags) (h : refusingBook.param? counter "count" = .ok p) :
    p.accessor.IsLawful := by
  cases h
  exact isLawful_accessor countColumn.kind "" false "count"

/-- A number whose commit is refused is told as written, and so it reads; a text that is no
    number leaves the book as it was. -/
theorem refused_number_told :
    refusingBook.ResultTells counter "count" (.text "12") ∧
    (refusingBook.writeText counter "count" "12").1 = .error (.rejected "full") ∧
    (refusingBook.writeText counter "count" "12").2.read counter "count" =
      .ok (.scalar .int32 12) ∧
    refusingBook.SameContents (refusingBook.writeText counter "count" "many").2 := by
  obtain ⟨i, hi⟩ : ∃ i, refusingBook.get? counter = some i :=
    Option.isSome_iff_exists.mp (by decide +kernel)
  have hcount := writes_tell_iff wellFormed_refusingBook isLawful_count (.text "12")
  refine ⟨hcount.1.mpr ?_, by decide +kernel, by decide +kernel, ?_⟩
  · rintro ⟨i, p, err, hi, hp, hw, _⟩
    cases hi
    cases hp
    cases hw
  · exact (hcount.2 i (countColumn.param .alpha).val "many" _ hi rfl rfl rfl).2

/-- A text that is no number is answered with the refusal of a commit in which nothing was
    written. -/
theorem refusal_hides_unreadable_text :
    refusingBook.WellFormed ∧ refusingBook.contains counter = true ∧
    (∃ p, refusingBook.param? counter "count" = .ok p ∧ p.accessor.IsLawful ∧
      p.isReadOnly = false ∧ ∃ cause, ParamValue.parse p.kind "many" = .error cause) ∧
    (refusingBook.writeText counter "count" "many").1 = .error (.rejected "full") ∧
    ¬ refusingBook.ResultTells counter "count" (.text "many") := by
  have hrejected : (refusingBook.writeText counter "count" "many").1 =
      .error (.rejected "full") := by
    decide +kernel
  refine ⟨wellFormed_refusingBook, by decide +kernel,
    ⟨_, rfl, isLawful_count _ rfl, rfl, _, rfl⟩, hrejected, ?_⟩
  intro h
  obtain ⟨p, v, hp, hv, _⟩ := h.written (.inr ⟨"full", hrejected⟩)
  have hparam : refusingBook.param? counter "count" = .ok p := by
    rw [← hp]
    unfold param?
    rw [(keeps_assign ..).registry]
  cases hparam
  cases hv

end Counters

end Book

end EntityBook
