import EntityBook.Proofs.Undo.Calls
import EntityBook.Proofs.Undo.Captures

/-! # One parameter in one operation

  What an open operation holds of a parameter: nothing, its value before with,
  perhaps, its value after, and in the end, if the entity is deleted, the
  captures of the value that went with it. Closing the operation fills in what
  was not seen and marks what did not change. Whichever of these it is, a replay
  gives the value back.
-/

namespace EntityBook

variable {P : PayloadFamily}

/-! ### Cells of live and of deleted entities -/

/-- A change holds the value before of a parameter that is not the side-table,
    and its present value, if that was seen. -/
structure Change.Follows (c : Change P) (p : Param P) (v₀ v : ParamValue) : Prop where
  param : c.param = p
  path : c.path = none
  before : c.before = .value v₀.text
  after : c.after = .pending ∧ v = v₀ ∨ c.after = .value v.text
  readsBefore : ParamValue.parse p.kind v₀.text = .ok v₀
  readsAfter : ParamValue.parse p.kind v.text = .ok v

/-- What an open operation holds of a parameter of a live entity, which had the
    value `v₀` at first and has the value `v` now. -/
inductive OpenCell (p : Param P) (v₀ v : ParamValue) : List (Change P) → Prop where
  /-- Nothing. -/
  | untouched (same : v = v₀) : OpenCell p v₀ v []
  /-- The value before. -/
  | seen (c : Change P) (follows : c.Follows p v₀ v) : OpenCell p v₀ v [c]

/-- Changes hold the captures of the value of an entity that was deleted then. -/
structure LastSeen (p : Param P) (v : ParamValue) (cs : List (Change P)) : Prop where
  restorable : v.Restorable p.kind
  param : ∀ c ∈ cs, c.param = p
  before : cs.map (fun c => (c.path, c.before)) = v.captures
  after : ∀ c ∈ cs, c.after = .absent

/-- What an open operation holds of a parameter of a deleted entity, which had the
    value `v₀` at first. -/
inductive ShutCell (p : Param P) (v₀ : ParamValue) : List (Change P) → Prop where
  /-- Nothing but the last value. -/
  | captured (cs : List (Change P)) (last : LastSeen p v₀ cs) : ShutCell p v₀ cs
  /-- The value before and the last value. -/
  | seen (c : Change P) (cs : List (Change P)) (v : ParamValue) (follows : c.Follows p v₀ v)
      (last : LastSeen p v cs) : ShutCell p v₀ (c :: cs)

theorem ParamValue.gives_of_parse {k : ParamKind} {v : ParamValue} (h : parse k v.text = .ok v)
    (w : ParamValue) : w.Gives v := by
  have hkind := hasKind_of_parse h
  cases v with
  | slots f =>
    cases k with
    | slots => cases h
    | _ => cases hkind
  | _ => trivial

/-- A value other than the side-table is restored from its text. -/
theorem ParamValue.Restorable.parse {p : Param P} {v : ParamValue} (h : v.Restorable p.kind)
    (hs : p.isSlots = false) (hk : v.HasKind p.kind) : ParamValue.parse p.kind v.text = .ok v := by
  cases v with
  | slots f =>
    rw [isSlots_of_hasKind hk] at hs
    cases hs
  | _ => exact h

/-! ### Recording -/

namespace OpenCell

variable {p : Param P} {v₀ v : ParamValue} {cs : List (Change P)}

/-- Before its first change the value is captured. -/
theorem before (e : Entity) (hv : ParamValue.parse p.kind v.text = .ok v) :
    OpenCell p v v [{ entity := e, param := p, path := none, before := .value v.text }] :=
  .seen _ ⟨rfl, rfl, rfl, Or.inl ⟨rfl, rfl⟩, hv, hv⟩

/-- After a change the present value is captured. -/
theorem after {c : Change P} (h : OpenCell p v₀ v [c]) {w : ParamValue}
    (hw : ParamValue.parse p.kind w.text = .ok w) :
    OpenCell p v₀ w [{ c with after := .value w.text }] := by
  cases h with
  | seen _ hc => exact .seen _ ⟨hc.param, hc.path, hc.before, Or.inr rfl, hc.readsBefore, hw⟩

/-- Before the entity is deleted its values are captured. -/
theorem shut (h : OpenCell p v₀ v cs) {ds : List (Change P)} (hd : LastSeen p v ds) :
    ShutCell p v₀ (cs ++ ds) := by
  cases h with
  | untouched same =>
    subst same
    exact .captured ds hd
  | seen c hc => exact .seen c ds v hc hd

end OpenCell

/-! ### Closing -/

namespace Book

variable {b : Book P} {e : Entity} {p : Param P} {v₀ v : ParamValue}

/-- What closing an operation makes of a change. -/
def closed (b : Book P) (c : Change P) : Change P :=
  let after := if c.after = .pending then b.capture c.entity c.param c.path else c.after
  { c with after, kept := c.before = after }

/-- Entries that are replaced one by one keep their place if they stay about the
    same parameter. -/
theorem cell_map {f : UndoEntry P → UndoEntry P} {g : Change P → Change P}
    (hf : ∀ u, (f u).change? = u.change?.map g) (hentity : ∀ c, (g c).entity = c.entity)
    (hparam : ∀ c, (g c).param = c.param) (entries : List (UndoEntry P)) (e : Entity)
    (name : String) : cell (entries.map f) e name = (cell entries e name).map g := by
  have hchanges : (entries.map f).filterMap UndoEntry.change? =
      (entries.filterMap UndoEntry.change?).map g := by
    rw [List.filterMap_map, List.map_filterMap]
    refine List.filterMap_congr ?_
    intro u _
    exact hf u
  unfold cell
  rw [hchanges, List.filter_map]
  congr 1
  refine List.filter_congr ?_
  intro c _
  show ((g c).entity == e && (g c).param.name == name) = _
  rw [hentity, hparam]

theorem cell_close (b : Book P) (entries : List (UndoEntry P)) (e : Entity) (name : String) :
    cell (entries.map b.close) e name = (cell entries e name).map b.closed := by
  refine cell_map (f := b.close) (g := b.closed) ?_ (fun _ => rfl) (fun _ => rfl) entries e name
  intro u
  cases u with
  | created _ | deleted _ | changed _ => rfl

/-- A change of a live entity, closed. -/
theorem closed_of_follows {c : Change P} (hc : c.Follows p v₀ v) {i : Instance P}
    (he : c.entity = e) (hi : b.get? e = some i) (hv : i.value? p.accessor = some v) :
    b.closed c = { c with after := .value v.text, kept := v₀.text = v.text } := by
  unfold closed
  rw [he, hc.param, hc.path, capture_eq hi hv, hc.before]
  rcases hc.after with ⟨ha, _⟩ | ha
  · simp [ha]
  · simp [ha]

/-- What was seen of an entity that was there is a value at every path. -/
theorem ne_absent_of_mem_captures {x : Option String × Capture} (h : x ∈ v.captures) :
    x.2 ≠ .absent := by
  intro habsent
  cases v with
  | slots f =>
    obtain ⟨y, _, rfl⟩ := List.mem_map.mp h
    cases habsent
  | _ =>
    cases List.mem_singleton.mp h
    cases habsent

/-- A capture of an entity that is deleted then is closed as it is. -/
theorem closed_of_absent {c : Change P} (hm : (c.path, c.before) ∈ v.captures)
    (ha : c.after = .absent) : b.closed c = { c with kept := false } := by
  have hb : c.before ≠ .absent := ne_absent_of_mem_captures hm
  unfold closed
  rw [if_neg (by rw [ha]; simp)]
  simp [ha, hb]

theorem closed_of_lastSeen {cs : List (Change P)} (hl : LastSeen p v cs) {c : Change P}
    (hc : c ∈ cs) : b.closed c = { c with kept := false } := by
  refine closed_of_absent (v := v) ?_ (hl.after c hc)
  rw [← hl.before]
  exact List.mem_map.mpr ⟨c, hc, rfl⟩

theorem text_inj {k : ParamKind} {v w : ParamValue} (hv : ParamValue.parse k v.text = .ok v)
    (hw : ParamValue.parse k w.text = .ok w) (h : v.text = w.text) : v = w := by
  rw [h] at hv
  exact Except.ok.inj (hv.symm.trans hw)

theorem restored_value {c : Change P} (hp : c.param = p) (hpath : c.path = none)
    (hv : ParamValue.parse p.kind v.text = .ok v) (w : ParamValue) :
    w.restored c (.value v.text) = v := by
  unfold ParamValue.restored
  rw [hpath, hp]
  dsimp only
  rw [hv]

end Book

/-! ### Replaying -/

section Replaying

open Book

variable {b : Book P} {e : Entity} {p : Param P} {v₀ v : ParamValue}

/-- Undo of one change, which counts as kept if its two sides have the same text. -/
theorem undo_single {c : Change P} {a : ParamValue} (hparam : c.param = p) (hpath : c.path = none)
    (hbefore : c.before = .value v₀.text) (hv₀ : ParamValue.parse p.kind v₀.text = .ok v₀)
    (ha : ParamValue.parse p.kind a.text = .ok a) (v : ParamValue) :
    Direction.undo.replayValue [{ c with after := .value a.text, kept := v₀.text = a.text }] v =
      if v₀ = a then v else v₀ := by
  unfold Direction.replayValue
  by_cases heq : v₀ = a
  · simp [heq]
  · have htext : v₀.text ≠ a.text := fun ht => heq (text_inj hv₀ ha ht)
    simp only [htext, decide_false, Bool.not_false, List.filter_cons_of_pos, List.filter_nil,
      List.reverse_singleton, List.foldl_cons, List.foldl_nil, heq, if_false]
    show v.restored _ c.before = v₀
    rw [hbefore]
    exact restored_value hparam hpath hv₀ v

/-- Redo of one change. -/
theorem redo_single {c : Change P} {a : ParamValue} (hparam : c.param = p) (hpath : c.path = none)
    (hv₀ : ParamValue.parse p.kind v₀.text = .ok v₀)
    (ha : ParamValue.parse p.kind a.text = .ok a) (v : ParamValue) :
    Direction.redo.replayValue [{ c with after := .value a.text, kept := v₀.text = a.text }] v =
      if v₀ = a then v else a := by
  unfold Direction.replayValue
  by_cases heq : v₀ = a
  · simp [heq]
  · have htext : v₀.text ≠ a.text := fun ht => heq (text_inj hv₀ ha ht)
    simp only [htext, decide_false, Bool.not_false, List.filter_cons_of_pos, List.filter_nil,
      List.foldl_cons, List.foldl_nil, heq, if_false]
    exact restored_value hparam hpath ha v

/-- Undo gives the first value back. -/
theorem OpenCell.undo {cs : List (Change P)} (h : OpenCell p v₀ v cs) {i : Instance P}
    (he : ∀ c ∈ cs, c.entity = e) (hi : b.get? e = some i)
    (hv : i.value? p.accessor = some v) :
    Direction.undo.replayValue (cs.map b.closed) v = v₀ := by
  cases h with
  | untouched same => exact same
  | seen c hc =>
    rw [List.map_singleton, closed_of_follows hc (he c List.mem_cons_self) hi hv,
      undo_single hc.param hc.path hc.before hc.readsBefore hc.readsAfter]
    split
    · next heq => exact heq.symm
    · rfl

/-- Redo gives the present value. -/
theorem OpenCell.redo {cs : List (Change P)} (h : OpenCell p v₀ v cs) {i : Instance P}
    (he : ∀ c ∈ cs, c.entity = e) (hi : b.get? e = some i)
    (hv : i.value? p.accessor = some v) :
    Direction.redo.replayValue (cs.map b.closed) v₀ = v := by
  cases h with
  | untouched same => exact same.symm
  | seen c hc =>
    rw [List.map_singleton, closed_of_follows hc (he c List.mem_cons_self) hi hv,
      redo_single hc.param hc.path hc.readsBefore hc.readsAfter]
    split
    · next heq => exact heq
    · rfl

/-- Undoing the captures of a deleted entity gives the last value. -/
theorem LastSeen.undo {cs : List (Change P)} (h : LastSeen p v cs) {w : ParamValue}
    (hw : w.Gives v) :
    (((cs.map b.closed).filter fun c => !c.kept).reverse).foldl
      (fun v c => v.restored c (Direction.undo.side c)) w = v := by
  have hmap : cs.map b.closed = cs.map fun c => { c with kept := false } := by
    refine List.map_congr_left ?_
    intro c hc
    exact closed_of_lastSeen h hc
  -- None of the captures counts as kept: a value was there, and nothing is now.
  have hfilter : ((cs.map fun c => { c with kept := false }).filter fun c => !c.kept) =
      cs.map fun c => { c with kept := false } := by
    refine List.filter_eq_self.mpr ?_
    intro c hc
    obtain ⟨d, _, rfl⟩ := List.mem_map.mp hc
    rfl
  rw [hmap, hfilter]
  refine ParamValue.foldl_restored_captures Direction.undo.side h.restorable hw ?_ ?_
  · intro c hc
    obtain ⟨d, hd, rfl⟩ := List.mem_map.mp (List.mem_reverse.mp hc)
    exact h.param d hd
  · right
    rw [List.map_reverse, List.map_map, ← h.before]
    rfl

/-- Undo gives the first value of a deleted entity back, on top of what a new
    instance has. -/
theorem ShutCell.undo {cs : List (Change P)} (h : ShutCell p v₀ cs)
    (he : ∀ c ∈ cs, c.entity = e) (hi : b.get? e = none) {w : ParamValue} (hw : w.Gives v₀) :
    Direction.undo.replayValue (cs.map b.closed) w = v₀ := by
  cases h with
  | captured _ hl => exact hl.undo hw
  | seen c ds v hc hl =>
    have hgives : w.Gives v := ParamValue.gives_of_parse hc.readsAfter w
    have hlast := hl.undo (b := b) hgives
    unfold Direction.replayValue
    dsimp only
    cases hk : (b.closed c).kept with
    | true =>
      -- The value before was the last one as well.
      have htext : v₀.text = v.text := by
        have hk : decide (c.before = if c.after = .pending then
            b.capture c.entity c.param c.path else c.after) = true := hk
        have hcap := capture_of_none (b := b) ((he c List.mem_cons_self).symm ▸ hi) c.param c.path
        rcases hc.after with ⟨ha, rfl⟩ | ha
        · rfl
        · rw [ha, hc.before] at hk
          simpa using hk
      rw [List.map_cons, List.filter_cons_of_neg (by simp [hk]), hlast]
      exact (text_inj hc.readsBefore hc.readsAfter htext).symm
    | false =>
      rw [List.map_cons, List.filter_cons_of_pos (by simp [hk]), List.reverse_cons,
        List.foldl_append, hlast, List.foldl_cons, List.foldl_nil]
      show v.restored (b.closed c) c.before = v₀
      rw [hc.before]
      exact restored_value (c := b.closed c) hc.param hc.path hc.readsBefore v

end Replaying

end EntityBook
