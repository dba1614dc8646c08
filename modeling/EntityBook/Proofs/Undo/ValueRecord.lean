import EntityBook.Proofs.Undo.Aside
import EntityBook.Proofs.Undo.Beside
import EntityBook.Proofs.Undo.Steps
import EntityBook.Proofs.Undo.ValueHistory

/-! # What an operation holds of a value

  An operation may announce a value, change it and say that its change is done, make the
  entity or delete it, in many orders. A phase says how far it is with the value, and the
  entries about the value are known from the phase, whatever else is recorded.
-/

namespace EntityBook

variable {P : PayloadFamily}

/-! ### Phases -/

/-- How far an operation is with a value. -/
inductive Phase where
  /-- The entity is not there, and was not at first. -/
  | away
  /-- The value is the one at first. -/
  | untouched
  /-- It was changed, and nothing is recorded of it. -/
  | unrecorded
  /-- The value at first is recorded, the one after is still to be filled in. -/
  | announced
  /-- The value at first and the present one are recorded. -/
  | recorded
  /-- The value was changed since it was recorded. -/
  | outdated
  /-- It is the one at first, and recorded as if there had been none before. -/
  | assumed
  /-- The entity is recorded as deleted, but it is still there. -/
  | doomed
  /-- The entity was deleted. -/
  | gone
  deriving DecidableEq, Repr

namespace Phase

/-- The phase after the value is announced. -/
def announce? : Phase → Option Phase
  | untouched | announced => some announced
  | recorded => some recorded
  | outdated => some outdated
  | _ => none

/-- The phase after the value is changed. -/
def change? : Phase → Option Phase
  | untouched | unrecorded => some unrecorded
  | announced => some announced
  | recorded | outdated => some outdated
  | _ => none

/-- The value at first is recorded, so that the present one may be filled in. -/
def isNoted : Phase → Bool
  | announced | recorded | outdated => true
  | _ => false

/-- The entity is there and nothing is recorded of the value. -/
def isBare : Phase → Bool
  | untouched | unrecorded => true
  | _ => false

/-- All that happened to the value is recorded, so that the entity may be deleted. -/
def isSettled : Phase → Bool
  | untouched | announced | recorded => true
  | _ => false

/-- The phases in which the operation may end. -/
def closes : Phase → Bool
  | away | untouched | announced | recorded | assumed | gone => true
  | _ => false

/-! In these phases the entity is there. -/

theorem ne_of_announce? {ph ph' : Phase} (h : ph.announce? = some ph') :
    ph ≠ .away ∧ ph ≠ .gone := by
  constructor <;> (rintro rfl; cases h)

theorem ne_of_isNoted {ph : Phase} (h : ph.isNoted = true) : ph ≠ .away ∧ ph ≠ .gone := by
  constructor <;> (rintro rfl; cases h)

theorem ne_of_isBare {ph : Phase} (h : ph.isBare = true) : ph ≠ .away ∧ ph ≠ .gone := by
  constructor <;> (rintro rfl; cases h)

theorem ne_of_isSettled {ph : Phase} (h : ph.isSettled = true) : ph ≠ .away ∧ ph ≠ .gone := by
  constructor <;> (rintro rfl; cases h)

end Phase

/-! ### The entries about a value -/

/-- A value as it was seen. -/
def Change.sight (e : Entity) (p : Param P) (v : ParamValue) (after : Capture) : Change P where
  entity := e
  param := p
  path := none
  before := .value v.text
  after := after

namespace Book

/-- The first change of a value in an operation holds the value at first. Of a new entity
    it may hold that there was none. -/
structure Opens (b : Book P) (e : Entity) (p : Param P) (first : Option ParamValue)
    (c : Change P) : Prop where
  entity : c.entity = e
  param : c.param = p
  path : c.path = none
  before : (∃ v, b.Starts e p first v ∧ ParamValue.parse p.kind v.text = .ok v ∧
    c.before = .value v.text) ∨ first = none ∧ c.before = .absent

/-- A change that holds a value as if there had been none before. -/
structure Assumes (e : Entity) (p : Param P) (v : ParamValue) (c : Change P) : Prop where
  entity : c.entity = e
  param : c.param = p
  path : c.path = none
  before : c.before = .absent
  after : c.after = .value v.text

/-- The last change of a value of an entity that is deleted. -/
structure Shuts (e : Entity) (p : Param P) (v : ParamValue) (c : Change P) : Prop where
  entity : c.entity = e
  param : c.param = p
  path : c.path = none
  before : c.before = .value v.text
  after : c.after = .absent
  reads : ParamValue.parse p.kind v.text = .ok v

/-- What an operation holds of a value of an entity that it deletes. -/
inductive Shut (b : Book P) (e : Entity) (p : Param P) (first : Option ParamValue)
    (v : ParamValue) : List (Change P) → Prop where
  /-- Nothing but the last value, which is the one at first. -/
  | alone {d : Change P} (starts : b.Starts e p first v) (shuts : Shuts e p v d) :
      Shut b e p first v [d]
  /-- The value at first and the last value. -/
  | after {c d : Change P} (opens : b.Opens e p first c)
      (seen : c.after = .pending ∨ c.after = .value v.text) (shuts : Shuts e p v d) :
      Shut b e p first v [c, d]

/-- What an operation holds of a value in each phase, given the value at first and the
    present one. -/
inductive Holding (b : Book P) (e : Entity) (p : Param P) (first : Option ParamValue) :
    Phase → Option ParamValue → List (Change P) → Prop where
  | away (absent : first = none) : Holding b e p first .away none []
  | untouched {v : ParamValue} (starts : b.Starts e p first v)
      (reads : ParamValue.parse p.kind v.text = .ok v) : Holding b e p first .untouched (some v) []
  | unrecorded (v : ParamValue) : Holding b e p first .unrecorded (some v) []
  | announced (v : ParamValue) {c : Change P} (opens : b.Opens e p first c)
      (after : c.after = .pending) : Holding b e p first .announced (some v) [c]
  | recorded {v : ParamValue} {c : Change P} (opens : b.Opens e p first c)
      (after : c.after = .value v.text) : Holding b e p first .recorded (some v) [c]
  | outdated (v : ParamValue) {c : Change P} (opens : b.Opens e p first c)
      (after : c.after ≠ .absent) : Holding b e p first .outdated (some v) [c]
  | assumed {v : ParamValue} {c : Change P} (same : first = some v) (assumes : Assumes e p v c) :
      Holding b e p first .assumed (some v) [c]
  | doomed {v : ParamValue} {cs : List (Change P)} (shut : b.Shut e p first v cs) :
      Holding b e p first .doomed (some v) cs
  | gone {v : ParamValue} {cs : List (Change P)} (shut : b.Shut e p first v cs)
      (renewable : ∃ v, b.Initial e p v) : Holding b e p first .gone none cs

/-- An open operation traces a value of an entity: what it holds of the value is known from
    the phase, and whatever else it holds of the entity is about its parameters. -/
structure Traces (b : Book P) (e : Entity) (p : Param P) (first : Option ParamValue)
    (ph : Phase) (o : OpenOperation P) : Prop where
  holding : b.Holding e p first ph (b.value? e p) (cell o.entries e p.name)
  deleted : UndoEntry.deleted e ∈ o.entries ↔ ph = .doomed ∨ ph = .gone
  fits : b.FitEntries (o.entries.filter fun u => u.entity == e)
  /-- Only side-tables get entries when the operation ends. -/
  watched : ∀ w ∈ o.watched, w.1 = e → w.2.isSlots = true ∧
    ∃ cl, b.registry.find? e.typeTag = some cl ∧ w.2 ∈ cl.copyable
  changes : ∀ u ∈ o.baseline, u.entity = e → ∃ c, u = UndoEntry.changed c
  baselineFits : b.FitEntries (o.baseline.filter fun u => u.entity == e)
  /-- The baseline holds the value at first. -/
  baseline : ph ≠ .unrecorded → cell o.baseline e p.name = [] ∨
    ∃ v, b.Starts e p first v ∧ ParamValue.parse p.kind v.text = .ok v ∧
      cell o.baseline e p.name = [.sight e p v (.value v.text)]
  /-- If an operation is applied, there is no baseline. -/
  idle : 0 < b.undo.cursor → cell o.baseline e p.name = []
  /-- If none is, the entity is in the baseline before anything is recorded of the value. -/
  covered : b.undo.cursor = 0 → ∀ c ∈ cell o.entries e p.name, c.after ≠ .absent →
    ∃ u ∈ o.baseline, u.entity = e

/-- A book that records, in which a parameter of an entity is no side-table. -/
structure Watches (b : Book P) (e : Entity) (p : Param P) : Prop where
  steady : b.Steady
  lawful : b.Lawful
  enabled : b.config.undoEnabled = true
  accepting : ∀ calls i, b.backend.refusal calls i = none
  param : b.undoableParam e p.name = .ok p
  value : p.isSlots = false

section Basics

variable {b b' : Book P} {e : Entity} {p : Param P} {first : Option ParamValue} {ph ph' : Phase}
  {o o' : OpenOperation P} {v : ParamValue} {c : Change P} {cs : List (Change P)}

theorem Watches.of_setup (h : b.Watches e p) (hs : b'.Steady) (hset : b.SameSetup b') :
    b'.Watches e p where
  steady := hs
  lawful := h.lawful.of_setup hset
  enabled := hset.config ▸ h.enabled
  accepting := hset.backend ▸ h.accepting
  param := (undoableParam_congr hset.registry e p.name).trans h.param
  value := h.value

theorem Watches.setRecording (h : b.Watches e p) (r : Option (OpenOperation P)) :
    (b.setRecording r).Watches e p := h.of_setup (h.steady.setRecording r) ⟨rfl, rfl, rfl, rfl⟩

theorem Watches.recording?_eq (h : b.Watches e p) (ho : b.undo.recording = some o) :
    b.recording? = some o := by
  unfold recording?
  rw [if_pos h.enabled, ho]

/-- The class of the entity. -/
theorem Watches.exists_class (h : b.Watches e p) :
    ∃ cl, b.registry.find? e.typeTag = some cl ∧ p ∈ cl.copyable ∧ cl.WellFormed ∧ cl.IsLawful := by
  obtain ⟨cl, hcl, hp, _⟩ := undoableParam_eq_ok.mp h.param
  exact ⟨cl, hcl, hp, h.steady.wellFormed.registry.of_find? hcl, h.lawful.of_find? hcl⟩

/-- The value of an entity that is there. -/
theorem Watches.exists_value (h : b.Watches e p) {i : Instance P} (hi : b.get? e = some i) :
    b.value? e p = some (valueOf i p) ∧ i.value? p.accessor = some (valueOf i p) := by
  obtain ⟨cl, hcl, hp, _⟩ := h.exists_class
  have hv := h.steady.wellFormed.exists_value hi hcl hp
  exact ⟨(value?_of_get? hi).trans hv, hv⟩

theorem Watches.get?_eq_none (h : b.Watches e p) : b.get? e = none ↔ b.value? e p = none :=
  (value?_eq_none h.steady.wellFormed h.param).symm

/-- A snapshot holds one capture of the value. -/
theorem captured_value (h : b.Watches e p) {i : Instance P} (hi : b.get? e = some i)
    (after : Capture → Capture) :
    captured e p after (valueOf i p) =
      [.sight e p (valueOf i p) (after (.value (valueOf i p).text))] := by
  unfold captured
  rw [ParamValue.captures_eq (Instance.hasKind_value (h.exists_value hi).2) h.value]
  rfl

theorem Opens.of_setup (h : b.Opens e p first c) (hs : b.SameSetup b') : b'.Opens e p first c where
  entity := h.entity
  param := h.param
  path := h.path
  before := h.before.imp_left fun hv => by
    obtain ⟨v, hv, hrest⟩ := hv
    exact ⟨v, hv.of_setup hs, hrest⟩

theorem Opens.withAfter (h : b.Opens e p first c) (after : Capture) :
    b.Opens e p first { c with after } := ⟨h.entity, h.param, h.path, h.before⟩

theorem Shut.of_setup (h : b.Shut e p first v cs) (hs : b.SameSetup b') :
    b'.Shut e p first v cs := by
  cases h with
  | alone starts shuts => exact .alone (starts.of_setup hs) shuts
  | after opens seen shuts => exact .after (opens.of_setup hs) seen shuts

theorem Holding.of_setup {w : Option ParamValue} (h : b.Holding e p first ph w cs)
    (hs : b.SameSetup b') : b'.Holding e p first ph w cs := by
  cases h with
  | away absent => exact .away absent
  | untouched starts reads => exact .untouched (starts.of_setup hs) reads
  | unrecorded v => exact .unrecorded v
  | announced v opens after => exact .announced v (opens.of_setup hs) after
  | recorded opens after => exact .recorded (opens.of_setup hs) after
  | outdated v opens after => exact .outdated v (opens.of_setup hs) after
  | assumed same assumes => exact .assumed same assumes
  | doomed shut => exact .doomed (shut.of_setup hs)
  | gone shut renewable =>
    obtain ⟨v, hv⟩ := renewable
    exact .gone (shut.of_setup hs) ⟨v, hv.of_setup hs⟩

/-- Unless it was changed without a record, a value of which nothing is recorded that would
    be filled in is the one at first. -/
theorem Holding.starts (h : b.Holding e p first ph (some v) cs) (hph : ph ≠ .unrecorded)
    (hcs : ∀ c ∈ cs, c.after = .absent) :
    b.Starts e p first v ∧ ParamValue.parse p.kind v.text = .ok v := by
  cases h with
  | untouched starts reads => exact ⟨starts, reads⟩
  | unrecorded => exact absurd rfl hph
  | announced _ _ after =>
    rw [hcs _ List.mem_cons_self] at after
    cases after
  | recorded _ after =>
    rw [hcs _ List.mem_cons_self] at after
    cases after
  | outdated _ _ after => exact absurd (hcs _ List.mem_cons_self) after
  | assumed _ assumes =>
    have after := assumes.after
    rw [hcs _ List.mem_cons_self] at after
    cases after
  | doomed shut =>
    cases shut with
    | alone starts shuts => exact ⟨starts, shuts.reads⟩
    | after _ seen _ =>
      rw [hcs _ List.mem_cons_self] at seen
      rcases seen with seen | seen
      · cases seen
      · cases seen

theorem FitEntries.append {entries more : List (UndoEntry P)} (h : b.FitEntries entries)
    (hmore : b.FitEntries more) : b.FitEntries (entries ++ more) := by
  intro c hc
  rcases List.mem_append.mp hc with hc | hc
  · exact h c hc
  · exact hmore c hc

theorem FitEntries.filter {entries : List (UndoEntry P)} (h : b.FitEntries entries)
    (q : UndoEntry P → Bool) : b.FitEntries (entries.filter q) :=
  fun c hc => h c (List.mem_filter.mp hc).1

end Basics

/-! ### Steps that leave the record alone -/

section Frame

variable {b b' : Book P} {e : Entity} {p q : Param P} {first : Option ParamValue} {ph ph' : Phase}
  {o o' : OpenOperation P} {v v' : ParamValue} {name : String}

/-- Only what is recorded of the entity matters. -/
theorem Traces.congr (h : b.Traces e p first ph o) (habout : o'.about e = o.about e)
    (hset : b.SameSetup b') (hcursor : b'.undo.cursor = b.undo.cursor)
    (hvalue : b'.value? e p = b.value? e p) : b'.Traces e p first ph o' := by
  have hentries : (o'.entries.filter fun u => u.entity == e) =
      o.entries.filter fun u => u.entity == e := congrArg OpenOperation.entries habout
  have hwatched : (o'.watched.filter fun w => w.1 == e) =
      o.watched.filter fun w => w.1 == e := congrArg OpenOperation.watched habout
  have hbaseline : (o'.baseline.filter fun u => u.entity == e) =
      o.baseline.filter fun u => u.entity == e := congrArg OpenOperation.baseline habout
  have hcell : cell o'.entries e p.name = cell o.entries e p.name := by
    rw [← cell_filter_entity, hentries, cell_filter_entity]
  have hbase : cell o'.baseline e p.name = cell o.baseline e p.name := by
    rw [← cell_filter_entity, hbaseline, cell_filter_entity]
  -- An entry about the entity is in the one list if it is in the other.
  have hmem {xs ys : List (UndoEntry P)}
      (hxy : (xs.filter fun u => u.entity == e) = ys.filter fun u => u.entity == e)
      {u : UndoEntry P} (hu : u.entity = e) : u ∈ xs ↔ u ∈ ys := by
    have hfilter : u ∈ (xs.filter fun u => u.entity == e) ↔
        u ∈ ys.filter fun u => u.entity == e := by rw [hxy]
    simpa [List.mem_filter, hu] using hfilter
  refine ⟨?_, ?_, ?_, ?_, ?_, ?_, ?_, ?_, ?_⟩
  · rw [hcell, hvalue]
    exact h.holding.of_setup hset
  · exact (hmem hentries rfl).trans h.deleted
  · rw [hentries]
    exact h.fits.of_setup hset
  · intro w hw hwe
    have hm : w ∈ o'.watched.filter fun w => w.1 == e :=
      List.mem_filter.mpr ⟨hw, by simpa using hwe⟩
    rw [hwatched] at hm
    rw [hset.registry]
    exact h.watched w (List.mem_filter.mp hm).1 hwe
  · intro u hu hue
    exact h.changes u ((hmem hbaseline hue).mp hu) hue
  · rw [hbaseline]
    exact h.baselineFits.of_setup hset
  · intro hph
    rw [hbase]
    refine (h.baseline hph).imp_right fun hone => ?_
    obtain ⟨v, hv, hrest⟩ := hone
    exact ⟨v, hv.of_setup hset, hrest⟩
  · rw [hcursor, hbase]
    exact h.idle
  · rw [hcursor, hcell]
    intro hzero c hc hafter
    obtain ⟨u, hu, hue⟩ := h.covered hzero c hc hafter
    exact ⟨u, (hmem hbaseline hue).mpr hu, hue⟩

/-- Entries about other parameters of the entity. -/
def Others (b : Book P) (e : Entity) (p : Param P) (more : List (UndoEntry P)) : Prop :=
  ∀ u ∈ more, ∃ c, u = .changed c ∧ c.entity = e ∧ c.param.name ≠ p.name ∧
    ∃ cl, b.registry.find? c.entity.typeTag = some cl ∧ c.Fits cl

theorem Others.cell_eq_nil {more : List (UndoEntry P)} (h : b.Others e p more) :
    cell more e p.name = [] := by
  refine List.eq_nil_iff_forall_not_mem.mpr ?_
  intro c hc
  obtain ⟨hm, _, hname⟩ := mem_cell.mp hc
  obtain ⟨d, hd, _, hne, _⟩ := h _ hm
  cases hd
  exact hne hname

theorem Others.fitEntries {more : List (UndoEntry P)} (h : b.Others e p more) :
    b.FitEntries more := by
  intro c hc
  obtain ⟨d, hd, _, _, hfits⟩ := h _ hc
  cases hd
  exact hfits

/-- So do entries about other parameters not matter, and whether values are filled in. -/
theorem Traces.beside (h : b.Traces e p first ph o) {entries : List (UndoEntry P)}
    {watched : List (Entity × Param P)}
    (hcell : cell entries e p.name = cell o.entries e p.name)
    (hdeleted : UndoEntry.deleted e ∈ entries ↔ UndoEntry.deleted e ∈ o.entries)
    (hfits : b.FitEntries (entries.filter fun u => u.entity == e))
    (hwatched : ∀ w ∈ watched, w ∈ o.watched ∨ w.2.isSlots = true ∧
      ∃ cl, b.registry.find? e.typeTag = some cl ∧ w.2 ∈ cl.copyable) :
    b.Traces e p first ph { o with entries, watched } where
  holding := by
    rw [hcell]
    exact h.holding
  deleted := hdeleted.trans h.deleted
  fits := hfits
  watched := by
    intro w hw hwe
    rcases hwatched w hw with hold | hnew
    · exact h.watched w hold hwe
    · exact hnew
  changes := h.changes
  baselineFits := h.baselineFits
  baseline := h.baseline
  idle := h.idle
  covered := by
    rw [hcell]
    exact h.covered

theorem Traces.append_others (h : b.Traces e p first ph o) {more : List (UndoEntry P)}
    (hmore : b.Others e p more) {watched : List (Entity × Param P)}
    (hwatched : ∀ w ∈ watched, w ∈ o.watched ∨ w.2.isSlots = true ∧
      ∃ cl, b.registry.find? e.typeTag = some cl ∧ w.2 ∈ cl.copyable) :
    b.Traces e p first ph { o with entries := o.entries ++ more, watched } := by
  refine h.beside ?_ ?_ ?_ hwatched
  · rw [cell_append, hmore.cell_eq_nil, List.append_nil]
  · refine mem_append_of_not_mem ?_
    intro hm
    obtain ⟨c, hc, _⟩ := hmore _ hm
    cases hc
  · rw [List.filter_append]
    exact h.fits.append (hmore.fitEntries.filter _)

/-- Adding the entity to the baseline. -/
theorem Traces.ensureBaseline (h : b.Traces e p first ph o) (hw : b.Watches e p)
    (hbase : b.ensureBaseline o e = .ok o') :
    b.Traces e p first ph o' ∧ o'.entries = o.entries ∧ o'.watched = o.watched ∧
      (b.undo.cursor = 0 → ∃ u ∈ o'.baseline, u.entity = e) := by
  rcases ensureBaseline_cases hw.steady.wellFormed hbase with
    ⟨rfl, hdone⟩ | ⟨hzero, hnew, cl, i, hcl, hi, rfl⟩
  · exact ⟨h, rfl, rfl, fun hzero => hdone.resolve_left (by omega)⟩
  · obtain ⟨cl', hcl', hp, hwf, _⟩ := hw.exists_class
    cases hcl'.symm.trans hcl
    obtain ⟨hvalue, _⟩ := hw.exists_value hi
    have hcell : cell (snapshotOf e (fun seen => seen) (valueOf i) cl.copyable) e p.name =
        [.sight e p (valueOf i p) (.value (valueOf i p).text)] := by
      rw [cell_snapshotOf_self _ _ _ (ObjectClass.nodup_copyable hwf) hp, captured_value hw hi]
    have hold : cell o.baseline e p.name = [] := by
      refine List.eq_nil_iff_forall_not_mem.mpr ?_
      intro c hc
      obtain ⟨hm, hce, _⟩ := mem_cell.mp hc
      exact hnew _ hm hce
    -- The entity is now in it.
    have hin : ∃ u ∈ o.baseline ++ snapshotOf e (fun seen => seen) (valueOf i) cl.copyable,
        u.entity = e := by
      obtain ⟨hm, hce, _⟩ := mem_cell.mp (hcell ▸ List.mem_cons_self)
      exact ⟨_, List.mem_append_right _ hm, hce⟩
    refine ⟨⟨h.holding, h.deleted, h.fits, h.watched, ?_, ?_, ?_, ?_, ?_⟩, rfl, rfl, fun _ => hin⟩
    · intro u hu hue
      rcases List.mem_append.mp hu with hu | hu
      · exact h.changes u hu hue
      · obtain ⟨_, _, c, _, hc⟩ := mem_snapshotOf hu
        exact ⟨c, hc⟩
    · rw [List.filter_append]
      exact h.baselineFits.append
        ((hw.steady.wellFormed.fitEntries_snapshotOf hi hcl _).filter _)
    · -- Nothing recorded would be filled in, or the entity would be in the baseline.
      intro hph
      have habsent : ∀ c ∈ cell o.entries e p.name, c.after = .absent := by
        intro c hc
        by_contra hafter
        obtain ⟨u, hu, hue⟩ := h.covered hzero c hc hafter
        exact hnew u hu hue
      obtain ⟨hstarts, hreads⟩ := (hvalue ▸ h.holding).starts hph habsent
      refine Or.inr ⟨valueOf i p, hstarts, hreads, ?_⟩
      rw [cell_append, hold, hcell]
      rfl
    · intro hpos
      exact absurd hzero (by omega)
    · intro _ _ _ _
      exact hin

end Frame

end Book

end EntityBook
