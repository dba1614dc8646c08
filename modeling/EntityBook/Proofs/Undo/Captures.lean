import EntityBook.Proofs.SideTable.Readable
import EntityBook.Proofs.SideTable.Rebuild
import EntityBook.Proofs.Undo.Restore

/-! # What captures carry

  The captures of a value are its text, or the texts of its leaves if it is a
  side-table. When these texts read back, restoring the captures gives the value
  again, in either order: a replay of captures is a patch of the side-table.
-/

namespace EntityBook

variable {P : PayloadFamily}

/-! ### Values whose texts read back -/

namespace ParamValue

/-- What is captured of a value reads back as the value. -/
def Restorable (k : ParamKind) : ParamValue → Prop
  | slots f => f.Tidy ∧ f.Readable
  | v => parse k v.text = .ok v

/-- What is captured of a value. -/
def captures : ParamValue → List (Option String × Capture)
  | slots f => f.leaves.map fun x => (some x.1, .value x.2.text)
  | v => [(none, .value v.text)]

/-- Restoring the captures of a value on top of another one gives the value: a
    side-table has to be the same or empty. -/
def Gives (w v : ParamValue) : Prop :=
  match v with
  | slots f => w = slots .empty ∨ w = slots f
  | _ => True

theorem Gives.refl (v : ParamValue) : v.Gives v := by
  cases v with
  | slots f => exact Or.inr rfl
  | _ => trivial

end ParamValue

/-- Only the side-table has a side-table as its value. -/
theorem ParamValue.isSlots_of_hasKind {p : Param P} {f : Frame}
    (h : (ParamValue.slots f).HasKind p.kind) : p.isSlots = true := by
  unfold Param.kind at h
  unfold Param.isSlots
  cases hacc : p.accessor with
  | slots => rfl
  | _ =>
    rw [hacc] at h
    cases h

/-- Any other parameter is captured as a whole. -/
theorem ParamValue.captures_eq {p : Param P} {v : ParamValue} (h : v.HasKind p.kind)
    (hs : p.isSlots = false) : v.captures = [(none, .value v.text)] := by
  cases v with
  | slots f =>
    rw [isSlots_of_hasKind h] at hs
    cases hs
  | _ => rfl

namespace Book

theorem readText_eq {i : Instance P} {p : Param P} {v : ParamValue}
    (hv : i.value? p.accessor = some v) : i.readText p = .ok v.text := by
  unfold Instance.readText Instance.read
  rw [hv]
  rfl

/-- A snapshot holds the captures of the value. -/
theorem snapshot_eq {i : Instance P} {p : Param P} {v : ParamValue}
    (hv : i.value? p.accessor = some v) : snapshot i p = .ok v.captures := by
  have hkind := Instance.hasKind_value hv
  unfold snapshot
  by_cases hs : p.isSlots = true
  · rw [if_pos hs]
    rw [Instance.accessor_of_isSlots hs] at hv
    cases hv
    rfl
  · rw [if_neg hs, readText_eq hv]
    dsimp only
    rw [ParamValue.captures_eq hkind (by simpa using hs)]

/-- A capture of a whole parameter is the text of its value. -/
theorem capture_eq {b : Book P} {e : Entity} {i : Instance P} {p : Param P} {v : ParamValue}
    (hi : b.get? e = some i) (hv : i.value? p.accessor = some v) :
    b.capture e p none = .value v.text := by
  unfold capture
  rw [hi]
  dsimp only
  rw [readText_eq hv]

theorem capture_of_none {b : Book P} {e : Entity} (h : b.get? e = none) (p : Param P)
    (path : Option String) : b.capture e p path = .absent := by
  unfold capture
  rw [h]

end Book

/-! ### Captures of slots as patches -/

namespace Frame

/-- What a capture of a slot shows of a patch. -/
def shown (x : Patch) : Option String × Capture :=
  (some (pathOf x.1), match x.2 with
    | some s => .value s.text
    | none => .absent)

/-- The capture of a patch can be restored. -/
structure Sound (x : Patch) : Prop where
  ne_nil : x.1 ≠ []
  proper : ∀ n ∈ x.1, ProperName n
  parse : ∀ s, x.2 = some s → Slot.parse s.text = .ok s

/-- The patch that a capture of a slot stands for; none if it cannot be restored. -/
def patch? (path : String) : Capture → Option Patch
  | .pending => none
  | .absent => some (names path, none)
  | .value s =>
    match Slot.parse s with
    | .ok slot => some (names path, some slot)
    | .error _ => none

/-- Makes the change of a patch, if there is one. -/
def applyIf (f : Frame) (x : Option Patch) : Frame := x.elim f f.apply

theorem patch?_shown {x : Patch} (hx : Sound x) :
    patch? (pathOf x.1) (shown x).2 = some x := by
  obtain ⟨ns, action⟩ := x
  have hnames : names (pathOf ns) = ns := names_pathOf hx.proper
  cases action with
  | none =>
    show some (names (pathOf ns), none) = _
    rw [hnames]
  | some s =>
    show (match Slot.parse s.text with
      | .ok slot => some (names (pathOf ns), some slot)
      | .error _ => none) = _
    rw [hx.parse s rfl, hnames]

theorem set_eq (f : Frame) (path : String) (slot : Slot) :
    (match f.set path slot with
      | .ok (_, g) => g
      | .error _ => f) = f.setAt slot (names path) := by
  unfold set
  cases names path with
  | nil => rfl
  | cons n rest => rfl

end Frame

namespace ParamValue

/-- Restoring a capture of a slot applies its patch. -/
theorem restored_slots {c : Change P} {path : String} (hc : c.path = some path) (seen : Capture)
    (f : Frame) : (slots f).restored c seen = slots (f.applyIf (Frame.patch? path seen)) := by
  unfold restored
  rw [hc]
  cases seen with
  | pending => rfl
  | absent => rfl
  | value s =>
    unfold Frame.patch?
    dsimp only
    cases Slot.parse s with
    | error err => rfl
    | ok slot =>
      show (match f.set path slot with
        | .ok (_, g) => slots g
        | .error _ => slots f) = slots (f.setAt slot (Frame.names path))
      rw [← Frame.set_eq]
      cases f.set path slot <;> rfl

/-- Restoring captures of slots applies their patches, one after the other. -/
theorem foldl_restored_slots (side : Change P → Capture) {cs : List (Change P)}
    {xs : List Frame.Patch} (hcs : cs.map (fun c => (c.path, side c)) = xs.map Frame.shown)
    (hxs : ∀ x ∈ xs, Frame.Sound x) (f : Frame) :
    cs.foldl (fun v c => v.restored c (side c)) (slots f) = slots (xs.foldl Frame.apply f) := by
  -- Captures and patches in parallel; each capture is the text of its patch.
  induction xs generalizing cs f with
  | nil =>
    rw [List.map_nil, List.map_eq_nil_iff] at hcs
    rw [hcs]
    rfl
  | cons x rest ih =>
    cases cs with
    | nil => cases hcs
    | cons c cs =>
      obtain ⟨hc, hcs⟩ := List.cons.inj hcs
      have hx := hxs x List.mem_cons_self
      have hrest : ∀ y ∈ rest, Frame.Sound y := by
        intro y hy
        exact hxs y (List.mem_cons_of_mem x hy)
      obtain ⟨hpath, hside⟩ := Prod.mk.inj hc
      have hside : side c = (Frame.shown x).2 := hside
      rw [List.foldl_cons, List.foldl_cons, restored_slots hpath, hside, Frame.patch?_shown hx]
      exact ih hcs hrest (f.apply x)

end ParamValue

namespace Frame

/-! ### Captures of all leaves -/

theorem map_shown_leafPatches (f : Frame) :
    f.leafPatches.map shown = f.leaves.map fun x => (some x.1, .value x.2.text) := by
  unfold leafPatches
  rw [leaves_eq, List.map_map, List.map_map]
  rfl

theorem sound_of_leafAt {f : Frame} (h : f.Tidy) (hr : f.Readable) {ns : List String} {s : Slot}
    (hs : f.leafAt ns = some s) : Sound (ns, some s) where
  ne_nil := by
    intro hnil
    have hnil : ns = [] := hnil
    subst hnil
    rw [leafAt_nil] at hs
    cases hs
  proper := properName_of_leafAt h hs
  parse := by
    intro t ht
    cases ht
    exact hr ns s hs

end Frame

/-! ### Captures of values -/

namespace ParamValue

theorem foldl_restored_captures (side : Change P → Capture) {p : Param P} {v w : ParamValue}
    (hv : v.Restorable p.kind) (hw : w.Gives v) {cs : List (Change P)}
    (hparam : ∀ c ∈ cs, c.param = p)
    (hcs : cs.map (fun c => (c.path, side c)) = v.captures ∨
      cs.map (fun c => (c.path, side c)) = v.captures.reverse) :
    cs.foldl (fun v c => v.restored c (side c)) w = v := by
  have plain (hcs : cs.map (fun c => (c.path, side c)) = [(none, .value v.text)])
      (hparse : parse p.kind v.text = .ok v) :
      cs.foldl (fun v c => v.restored c (side c)) w = v := by
    obtain ⟨c, rest, rfl, hc, hrest⟩ := List.map_eq_cons_iff.mp hcs
    cases List.map_eq_nil_iff.mp hrest
    obtain ⟨hpath, hside⟩ := Prod.mk.inj hc
    have hp : c.param = p := hparam c List.mem_cons_self
    rw [List.foldl_cons, List.foldl_nil]
    unfold restored
    rw [hpath, hside, hp]
    dsimp only
    rw [hparse]
  cases v with
  | slots f =>
    obtain ⟨htidy, hread⟩ := hv
    have hshown : (slots f).captures = f.leafPatches.map Frame.shown :=
      (Frame.map_shown_leafPatches f).symm
    -- Either order is a list of patches with the same members.
    obtain ⟨xs, hxs, hmap⟩ : ∃ xs : List Frame.Patch, (∀ x, x ∈ xs ↔ x ∈ f.leafPatches) ∧
        cs.map (fun c => (c.path, side c)) = xs.map Frame.shown := by
      rcases hcs with hcs | hcs
      · exact ⟨f.leafPatches, fun _ => Iff.rfl, hcs.trans hshown⟩
      · refine ⟨f.leafPatches.reverse, fun _ => List.mem_reverse, ?_⟩
        rw [hcs, hshown, List.map_reverse]
    have hsound : ∀ x ∈ xs, Frame.Sound x := by
      intro x hx
      obtain ⟨ns, action⟩ := x
      obtain ⟨s, hs, hl⟩ := (Frame.mem_leafPatches htidy).mp ((hxs _).mp hx)
      cases hs
      exact Frame.sound_of_leafAt htidy hread hl
    rcases hw with rfl | rfl
    · rw [foldl_restored_slots side hmap hsound,
        Frame.foldl_apply_leafPatches htidy (Or.inl rfl) hxs]
    · rw [foldl_restored_slots side hmap hsound,
        Frame.foldl_apply_leafPatches htidy (Or.inr rfl) hxs]
  | scalar _ _ | reference _ | choice _ | collection _ | book _ =>
    refine plain ?_ hv
    rcases hcs with hcs | hcs
    · exact hcs
    · exact hcs

end ParamValue

end EntityBook
