import EntityBook.Proofs.SideTable.Lookup

/-! # What a write changes

  A slot is put where its path ends. On the way down every name is given a frame, also
  in place of a value, so the way never ends early. `putAt` does it in these steps and
  answers the slot that was replaced; it is the same as looking first and writing then.

  Afterwards the slot is found at the path, whatever is looked for below it is looked for
  in the slot, on the way there are frames, and nothing else has changed.
-/

namespace EntityBook.Frame

/-! ### Step by step -/

/-- The frame with a frame under a name: the one that is there, or a new one, also in place
    of a value. -/
def opened (name : String) (f : Frame) : Frame :=
  match f.find name with
  | some (.frame _) => f
  | _ => f.insert name (.frame empty)

/-- Puts a slot at the end of a list of names and answers the one that was there. It fails
    where there is no name, or no frame under a name on the way; then the frame is left as
    it has become by then. -/
def putAt (path : String) (slot : Slot) :
    List String → Frame → Except ValueError (Option Slot) × Frame
  | [], f => (.error (.emptyPath path), f)
  | [name], f => (.ok (f.find name), f.insert name slot)
  | name :: rest, f =>
    match (f.opened name).find name with
    | some (.frame g) =>
      let (result, g) := g.putAt path slot rest
      (result, (f.opened name).insert name (.frame g))
    | _ => (.error (.emptyPath path), f.opened name)

/-- Puts a slot at a path. -/
def put (path : String) (slot : Slot) (f : Frame) : Except ValueError (Option Slot) × Frame :=
  f.putAt path slot (names path)

/-- Of two slots put under the same name the second one stays. -/
theorem insert_insert (name : String) (s t : Slot) (f : Frame) :
    (f.insert name s).insert name t = f.insert name t := by
  fun_induction insert name s f with
  | case1 => simp [insert]
  | case2 u rest => simp [insert]
  | case3 n u rest hn hlt => simp [insert, hn, hlt]
  | case4 n u rest hn hlt ih => simp [insert, hn, hlt, ih]

theorem find_opened (name : String) (f : Frame) :
    (f.opened name).find name = some (.frame (f.child name)) := by
  unfold opened child
  cases hf : f.find name with
  | none => simp
  | some s =>
    cases s with
    | frame g => simp [hf, Slot.inner]
    | _ => simp [Slot.inner]

theorem insert_opened (name : String) (s : Slot) (f : Frame) :
    (f.opened name).insert name s = f.insert name s := by
  unfold opened
  split
  · rfl
  · exact insert_insert name (.frame empty) s f

/-- The way never ends early, and what is replaced is what a look before finds. -/
theorem putAt_eq (path : String) (v : Slot) {ns : List String} (h : ns ≠ []) (f : Frame) :
    f.putAt path v ns = (.ok (f.getAt ns), f.setAt v ns) := by
  induction ns generalizing f with
  | nil => exact absurd rfl h
  | cons n rest ih =>
    cases rest with
    | nil =>
      rw [getAt_singleton]
      rfl
    | cons m ms =>
      unfold putAt
      simp only [find_opened, insert_opened, ih (List.cons_ne_nil m ms)]
      rw [getAt_cons n (by simp), setAt_cons v n (by simp)]

/-! ### Separators -/

/-- The names of two paths with a separator between them are those of both. So separators at
    either end and doubled ones count nothing. -/
theorem names_append (p q : String) : names (p ++ "/" ++ q) = names p ++ names q := by
  have hchars : (p ++ "/" ++ q).toList = p.toList ++ '/' :: q.toList := by
    simp [String.toList_append]
  unfold names
  rw [hchars, List.splitOn_append_cons_self, List.filter_append, List.map_append]

/-! ### Writing at a path -/

/-- What becomes of a frame when a slot is written at a path. -/
structure Writes (path : String) (v : Slot) (f g : Frame) : Prop where
  /-- The slot is found at every path with the same names. -/
  here : ∀ q, names q = names path → g.get q = some v
  /-- A path that goes on from there is looked up in the slot. -/
  below : ∀ q ks, names q = names path ++ ks → ks ≠ [] → g.get q = v.inner.getAt ks
  /-- On the way there are frames. -/
  above : ∀ q, names q ≠ [] → names q <+: names path → names q ≠ names path →
    ∃ h : Frame, g.get q = some (.frame h)
  /-- What is neither above nor below reads as before. -/
  apart : ∀ q, Apart (names path) (names q) → g.get q = f.get q

theorem writes_setAt {path : String} (v : Slot) (h : names path ≠ []) (f : Frame) :
    f.Writes path v (f.setAt v (names path)) where
  here q hq := by
    rw [get, hq]
    exact getAt_setAt_self v h f
  below q ks hq hk := by
    rw [get, hq]
    exact getAt_setAt_below v h hk f
  above q hne hp hother := by
    obtain ⟨ks, hks⟩ := hp
    have hk : ks ≠ [] := by
      rintro rfl
      exact hother (by rw [← hks, List.append_nil])
    obtain ⟨g, hg⟩ := getAt_setAt_above v hne hk f
    rw [hks] at hg
    exact ⟨g.setAt v ks, hg⟩
  apart q hq := getAt_setAt_apart v hq f

theorem set_eq_ok {f : Frame} {path : String} (v : Slot) (h : names path ≠ []) :
    f.set path v = .ok (f.get path, f.setAt v (names path)) := by
  unfold set get
  split
  · next hnil => exact absurd hnil h
  · rfl

/-- Writing a slot at a path that has a name goes through, step by step and at once, and
    answers what was found there before; the slot is then at the path and all else as it
    was. A path without a name is refused, and nothing is written. -/
theorem write_is_lawful (f : Frame) (path : String) (v : Slot) :
    (∀ p q, names (p ++ "/" ++ q) = names p ++ names q) ∧
    (names path ≠ [] → ∃ g, f.set path v = .ok (f.get path, g) ∧
      f.put path v = (.ok (f.get path), g) ∧ f.Writes path v g) ∧
    (names path = [] → f.set path v = .error (.emptyPath path) ∧
      f.put path v = (.error (.emptyPath path), f)) := by
  refine ⟨names_append, ?_, ?_⟩
  · intro h
    exact ⟨_, set_eq_ok v h, putAt_eq path v h f, writes_setAt v h f⟩
  · intro h
    unfold set put
    rw [h]
    exact ⟨rfl, rfl⟩

/-- A frame written below a value takes its place; the separators of the path count nothing,
    and the slot beside it stays. -/
theorem value_gives_way :
    ∃ g, (cons "a" (.int64 1) (cons "d" (.frame empty) empty)).put "/a//b"
        (.frame (cons "c" (.int64 2) empty)) = (.ok none, g) ∧
      g.get "a/b/" = some (.frame (cons "c" (.int64 2) empty)) ∧
      g.get "a/b/c" = some (.int64 2) ∧ (∃ h : Frame, g.get "a" = some (.frame h)) ∧
      g.get "d" = some (.frame empty) := by
  have hpath : names "/a//b" = ["a", "b"] := by decide
  have hlong : names "a/b/c" = ["a", "b", "c"] := by decide
  obtain ⟨-, hwrite, -⟩ := write_is_lawful (cons "a" (.int64 1) (cons "d" (.frame empty) empty))
    "/a//b" (.frame (cons "c" (.int64 2) empty))
  obtain ⟨g, -, hput, hg⟩ := hwrite (by simp [hpath])
  refine ⟨g, hput, hg.here "a/b/" (by decide), ?_, hg.above "a" (by decide) (by decide) (by decide),
    hg.apart "d" (by decide)⟩
  exact hg.below "a/b/c" ["c"] (by rw [hlong, hpath]; rfl) (by simp)

end EntityBook.Frame
