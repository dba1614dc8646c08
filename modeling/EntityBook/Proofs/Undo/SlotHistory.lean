import EntityBook.Proofs.Payload.Bag
import EntityBook.Proofs.Undo.SlotReplay
import EntityBook.Proofs.Undo.SpoiledPatch

/-! # Undo of a side-table over its history

  A history is a run of sessions on one side-table. Undo of its last session gives
  the table before it back, and redo the table after it, unless the table was empty
  when the session began and the log still knows a value from an earlier session:
  such a value is then taken for what the table held before.
-/

namespace EntityBook

variable {P : PayloadFamily}

namespace Book

/-- The books that sessions on a side-table lead to. -/
inductive SlotHistory (e : Entity) (p : Param P) : Book P → Prop where
  /-- A book with the table, whose log is about slots with proper names. -/
  | start (b : Book P) (f : Frame) (h : b.HasTable e p f)
      (hlog : ∀ op ∈ b.undo.past, PathsNamed op.entries e p.name) : SlotHistory e p b
  /-- One more session, whether or not there is anything to commit. -/
  | session {b : Book P} (h : SlotHistory e p b) (label : String) (xs : List SlotEdit)
      (hxs : ∀ x ∈ xs, x.Sound) : SlotHistory e p (b.slotSession label e p.name xs).2

/-- Undo leads from a book back to another one, and redo from there to the book, as
    far as a side-table is concerned. -/
structure Reverts (b b' : Book P) (e : Entity) : Prop where
  undone : b'.undoLast.1 = true
  before : b'.undoLast.2.table? e = b.table? e
  redone : b'.undoLast.2.redoNext.1 = true
  after : b'.undoLast.2.redoNext.2.table? e = b'.table? e

/-! ### The log of a history -/

section History

variable {b : Book P} {e : Entity} {p : Param P} {f g : Frame} {label : String}

theorem cell_slotChange (seen : List (String × Capture)) :
    cell ((seen.map (slotChange e p g)).map UndoEntry.changed) e p.name =
      seen.map (slotChange e p g) := by
  unfold cell
  rw [List.filterMap_map]
  have hsome : (seen.map (slotChange e p g)).filterMap (UndoEntry.change? ∘ UndoEntry.changed) =
      seen.map (slotChange e p g) := List.filterMap_some
  rw [hsome]
  refine List.filter_eq_self.mpr ?_
  intro c hc
  obtain ⟨x, _, rfl⟩ := List.mem_map.mp hc
  simp [slotChange]

/-- The known paths are those of proper names. -/
theorem named_of_mem_knownPaths (hlog : ∀ op ∈ b.undo.past, PathsNamed op.entries e p.name)
    {path : String} (h : path ∈ b.undo.knownPaths e p.name) :
    ∃ ns, Frame.Named ns ∧ path = Frame.pathOf ns := by
  obtain ⟨c, hc, he, hn, hpath⟩ := UndoLog.mem_pathsIn.mp h
  obtain ⟨op, hop, hmem⟩ := List.mem_flatMap.mp hc
  have hcell : c ∈ cell op.entries e p.name := by
    refine List.mem_filter.mpr ⟨mem_change?.mpr hmem, ?_⟩
    simp [he, hn]
  obtain ⟨ns, hns, heq⟩ := hlog op hop c hcell
  exact ⟨ns, hns, Option.some.inj (hpath.symm.trans heq)⟩

/-- What a session records has the paths of proper names. -/
theorem named_of_mem_seenBefore (hf : f.Tidy) (hg : g.Tidy)
    (hlog : ∀ op ∈ b.undo.past, PathsNamed op.entries e p.name) {x : String × Capture}
    (h : x ∈ seenBefore b.undo e p.name f g) : ∃ ns, Frame.Named ns ∧ x.1 = Frame.pathOf ns := by
  unfold seenBefore at h
  split at h
  · obtain ⟨path, hpath, rfl⟩ := List.mem_map.mp h
    rcases List.mem_append.mp (UndoLog.mem_sortPaths.mp hpath) with hleaf | hknown
    · obtain ⟨y, hy, rfl⟩ := List.mem_map.mp hleaf
      obtain ⟨ns, hns, hleaf⟩ := Frame.exists_leafAt_of_mem_leaves hg hy
      exact ⟨ns, Frame.named_of_leafAt hg hleaf, hns⟩
    · exact named_of_mem_knownPaths hlog hknown
  · obtain ⟨ns, s, hpath, hseen⟩ := (Frame.mem_announced hf hg).mp h
    refine ⟨ns, ?_, hpath⟩
    rcases hseen with ⟨hleaf, _⟩ | ⟨hleaf, _, _⟩
    · exact Frame.named_of_leafAt hf hleaf
    · exact Frame.named_of_leafAt hg hleaf

/-- A session keeps the log about proper names. -/
theorem HasTable.log_session (h : b.HasTable e p f)
    (hlog : ∀ op ∈ b.undo.past, PathsNamed op.entries e p.name) (label : String)
    {xs : List SlotEdit} (hxs : ∀ x ∈ xs, x.Sound) :
    ∀ op ∈ (b.slotSession label e p.name xs).2.undo.past, PathsNamed op.entries e p.name := by
  obtain ⟨htable, _, hnil, hfull⟩ := h.session label hxs rfl
  intro op hop
  -- A session that has nothing to record leaves the log as it was.
  by_cases hseen : seenBefore b.undo e p.name f (SlotEdit.applyAll xs f) = []
  · rw [(hnil hseen).2] at hop
    exact hlog op hop
  · obtain ⟨_, base, hbase, hundo⟩ := hfull hseen
    rw [hundo] at hop
    rcases mem_past_committedLog hop with hold | hown | hown
    · exact hlog op hold
    · rw [hown]
      exact hbase
    · rw [hown]
      intro c hc
      rw [cell_slotChange] at hc
      obtain ⟨x, hx, rfl⟩ := List.mem_map.mp hc
      obtain ⟨ns, hns, hpath⟩ := named_of_mem_seenBefore h.tidy htable.tidy hlog hx
      exact ⟨ns, hns, congrArg some hpath⟩

/-- What holds all along a history. -/
theorem SlotHistory.exists_table (h : SlotHistory e p b) :
    ∃ f, b.HasTable e p f ∧ ∀ op ∈ b.undo.past, PathsNamed op.entries e p.name := by
  induction h with
  | start b f h hlog => exact ⟨f, h, hlog⟩
  | session h label xs hxs ih =>
    obtain ⟨f, htable, hlog⟩ := ih
    exact ⟨_, (htable.session label hxs rfl).1, htable.log_session hlog label hxs⟩

/-! ### One session taken back -/

/-- Undo and redo of an operation apply the patches of its record. -/
theorem undo_redo_committed (h : b.HasTable e p g) {l : UndoLog P} {config : Config}
    {o : OpenOperation P} {seen : List (String × Capture)} (hlimit : 0 < config.undoLimit)
    (hundo : b.undo = committedLog l config o ((seen.map (slotChange e p g)).map .changed)) :
    b.undoLast.1 = true ∧
      b.undoLast.2.table? e = some ((g.undoPatches seen).foldl Frame.apply g) ∧
      b.undoLast.2.redoNext.1 = true ∧
      b.undoLast.2.redoNext.2.table? e = some ((g.redoPatches seen).foldl Frame.apply
        ((g.undoPatches seen).foldl Frame.apply g)) := by
  obtain ⟨l', hl'⟩ : ∃ l' : UndoLog P, b.undo =
      l'.push ⟨o.label, (seen.map (slotChange e p g)).map .changed⟩ config.undoLimit := ⟨_, hundo⟩
  have hmoved : ((b.setRecording none).setCursor (b.undo.cursor - 1)).HasTable e p g :=
    h.withUndo _
  have hundone := undoLast_of_push hl' hlimit
  have hbook : b.undoLast.2 = ((b.setRecording none).setCursor (b.undo.cursor - 1)).replay
      ((seen.map (slotChange e p g)).map .changed) .undo := congrArg Prod.snd hundone
  have hrev := Revises.replay_of_changes (changes_slotChange e p g seen) hmoved.wellFormed .undo
  have hback := table?_replay (p := p) (g := g) hmoved.wellFormed hmoved.table .undo seen
  rw [← hbook] at hrev hback
  have hredone := redoNext_of_push hl' hlimit hrev.undo
  have hclosed : (b.undoLast.2.setRecording none).WellFormed :=
    (hrev.wellFormed hmoved.wellFormed).of_eq rfl rfl rfl rfl
  have hon := table?_replay (p := p) (g := g) hclosed hback .redo seen
  refine ⟨congrArg Prod.fst hundone, hback, congrArg Prod.fst hredone, ?_⟩
  rw [hredone]
  exact hon

/-- A session that commits is taken back if the patches of its record lead to the
    table before it and on to the table after it. -/
theorem HasTable.reverts_iff (h : b.HasTable e p f) {label : String} {xs : List SlotEdit}
    (hxs : ∀ x ∈ xs, x.Sound) (hg : g = SlotEdit.applyAll xs f) {seen : List (String × Capture)}
    (hseen : seen = seenBefore b.undo e p.name f g)
    (hcommit : (b.slotSession label e p.name xs).1 = true) (hlimit : 0 < b.config.undoLimit) :
    b.Reverts (b.slotSession label e p.name xs).2 e ↔
      (g.undoPatches seen).foldl Frame.apply g = f ∧
        (g.redoPatches seen).foldl Frame.apply f = g := by
  subst hg
  obtain ⟨htable, _, hnil, hfull⟩ := h.session label hxs hseen
  have hne : seen ≠ [] := by
    intro hn
    rw [(hnil hn).1] at hcommit
    cases hcommit
  obtain ⟨_, base, _, hundo⟩ := hfull hne
  -- Undo and redo succeed anyway; what is left to compare are the tables.
  obtain ⟨hundone, hback, hredone, hon⟩ := undo_redo_committed htable hlimit hundo
  constructor
  · intro hr
    have hbefore := hr.before
    have hafter := hr.after
    rw [hback, h.table] at hbefore
    rw [hon, htable.table, Option.some.inj hbefore] at hafter
    exact ⟨Option.some.inj hbefore, Option.some.inj hafter⟩
  · intro hboth
    obtain ⟨hto, hfrom⟩ := hboth
    refine ⟨hundone, ?_, hredone, ?_⟩
    · rw [hback, hto, h.table]
    · rw [hon, hto, hfrom, htable.table]

/-- What a session records of a table that was empty when it began. -/
theorem unannounced_seenBefore (hg : g.Tidy)
    (hlog : ∀ op ∈ b.undo.past, PathsNamed op.entries e p.name) :
    Frame.Unannounced g (seenBefore b.undo e p.name .empty g) where
  named := by
    intro x hx
    have hempty : Frame.empty.Tidy := trivial
    exact named_of_mem_seenBefore hempty hg hlog hx
  sorted := by
    unfold seenBefore
    rw [if_pos (show Frame.empty.isEmpty = true from rfl), List.map_map]
    have hid (ps : List String) : ps.map ((fun x : String × Capture => x.1) ∘ fun path =>
        (path, (b.undo.lastKnown e p.name (some path)).getD .absent)) = ps := List.map_id ps
    rw [hid]
    exact UndoLog.sorted_sortPaths _
  covers := by
    intro ns s hleaf
    have hmem := Frame.mem_leaves_of_leafAt hg hleaf
    obtain ⟨x, hx, hpath⟩ :=
      List.mem_map.mp (HasTable.leaf_seenBefore (e := e) (p := p) b.undo hmem)
    have hpath : x.1 = Frame.pathOf ns := hpath
    refine ⟨x.2, ?_⟩
    rw [← hpath]
    exact hx
  -- The log gives no pending capture, and a path it does not know counts as absent.
  notPending := by
    intro x hx
    unfold seenBefore at hx
    rw [if_pos (show Frame.empty.isEmpty = true from rfl)] at hx
    obtain ⟨path, _, rfl⟩ := List.mem_map.mp hx
    cases hknown : b.undo.lastKnown e p.name (some path) with
    | none =>
      intro heq
      cases heq
    | some c =>
      intro heq
      have heq : c = .pending := heq
      exact b.undo.lastKnown_ne_pending e p.name (some path) (heq ▸ hknown)

/-- If the log knows no value, nothing is taken to have been in an empty table. -/
theorem absent_of_mem_seenBefore
    (hknown : ∀ path s, b.undo.lastKnown e p.name (some path) ≠ some (.value s))
    {x : String × Capture} (hx : x ∈ seenBefore b.undo e p.name .empty g) : x.2 = .absent := by
  unfold seenBefore at hx
  rw [if_pos (show Frame.empty.isEmpty = true from rfl)] at hx
  obtain ⟨path, _, rfl⟩ := List.mem_map.mp hx
  show (b.undo.lastKnown e p.name (some path)).getD .absent = .absent
  cases hc : b.undo.lastKnown e p.name (some path) with
  | none => rfl
  | some c =>
    cases c with
    | pending => exact absurd hc (b.undo.lastKnown_ne_pending e p.name (some path))
    | absent => rfl
    | value s => exact absurd hc (hknown path s)

/-! ### A session that cannot be taken back -/

/-- The write of a slot whose value is an empty frame. -/
def writeEmpty (name : String) : SlotEdit := .set (Frame.pathOf [name]) (.frame .empty)

theorem sound_writeEmpty (name : String) : (writeEmpty name).Sound :=
  ⟨trivial, Slot.parse_text_empty⟩

theorem apply_writeEmpty {name : String} (hname : Frame.ProperName name) (f : Frame) :
    (writeEmpty name).apply f = f.setAt (.frame .empty) [name] := by
  have hproper : ∀ n ∈ [name], Frame.ProperName n := by
    intro n hn
    rw [List.mem_singleton.mp hn]
    exact hname
  have hset : (writeEmpty name).apply f =
      f.setAt (.frame .empty) (Frame.names (Frame.pathOf [name])) := Frame.set_eq f _ _
  rw [hset, Frame.names_pathOf hproper]

/-- Such a write is committed from any table. -/
theorem HasTable.committed_writeEmpty (h : b.HasTable e p f) {name : String}
    (hname : Frame.ProperName name) (label : String) :
    (b.slotSession label e p.name [writeEmpty name]).1 = true := by
  have hxs : ∀ x ∈ [writeEmpty name], x.Sound := by
    intro x hx
    rw [List.mem_singleton.mp hx]
    exact sound_writeEmpty name
  obtain ⟨_, _, _, hfull⟩ := h.session label hxs rfl
  refine (hfull ?_).1
  intro hnil
  -- There is something to record: a leaf that was there, or else the one written.
  cases hne : f.isEmpty with
  | false =>
    unfold seenBefore at hnil
    rw [hne] at hnil
    have hleaves := (List.append_eq_nil_iff.mp hnil).1
    exact leaves_ne_nil h.tidy hne (List.map_eq_nil_iff.mp hleaves)
  | true =>
    have hempty : f = .empty := Frame.isEmpty_iff.mp hne
    subst hempty
    have hsingle : SlotEdit.applyAll [writeEmpty name] .empty = Frame.single name :=
      apply_writeEmpty hname .empty
    have hleaf : (name, Slot.frame .empty) ∈ (Frame.single name).leaves := List.mem_singleton_self _
    have hmem := leaf_seenBefore (e := e) (p := p) b.undo hleaf
    rw [← hsingle, hnil] at hmem
    cases hmem

/-- Sessions cannot be taken back if the log keeps nothing. -/
theorem HasTable.limit_pos (h : b.HasTable e p f)
    (hall : ∀ label xs, (∀ x ∈ xs, SlotEdit.Sound x) →
      (b.slotSession label e p.name xs).1 = true →
        b.Reverts (b.slotSession label e p.name xs).2 e) : 0 < b.config.undoLimit := by
  have hname : Frame.ProperName "slot" := by decide
  have hxs : ∀ x ∈ [writeEmpty "slot"], x.Sound := by
    intro x hx
    rw [List.mem_singleton.mp hx]
    exact sound_writeEmpty "slot"
  have hcommit := h.committed_writeEmpty hname "write"
  obtain ⟨_, _, hnil, hfull⟩ := h.session "write" hxs rfl
  have hundone := (hall "write" _ hxs hcommit).undone
  -- With a limit of zero the log drops the operation, and there is nothing to undo.
  by_contra hlimit
  have hzero : b.config.undoLimit = 0 := by omega
  by_cases hseen : seenBefore b.undo e p.name f (SlotEdit.applyAll [writeEmpty "slot"] f) = []
  · rw [(hnil hseen).1] at hcommit
    cases hcommit
  · obtain ⟨_, base, _, hundo⟩ := hfull hseen
    have hnone :
        (b.slotSession "write" e p.name [writeEmpty "slot"]).2.undo.lastApplied? = none := by
      rw [hundo]
      unfold committedLog
      rw [hzero]
      exact UndoLog.lastApplied?_push_zero _ _
    rw [undoLast_of_none hnone] at hundone
    cases hundone

/-- What the log knows of a table that is empty now spoils the session that writes a
    slot of its first name. -/
theorem HasTable.not_known (h : b.HasTable e p .empty)
    (hlog : ∀ op ∈ b.undo.past, PathsNamed op.entries e p.name)
    (hall : ∀ label xs, (∀ x ∈ xs, SlotEdit.Sound x) →
      (b.slotSession label e p.name xs).1 = true →
        b.Reverts (b.slotSession label e p.name xs).2 e)
    (path : String) (s : String) : b.undo.lastKnown e p.name (some path) ≠ some (.value s) := by
  intro hknown
  have hpath := UndoLog.mem_knownPaths_of_lastKnown hknown
  obtain ⟨ns, hns, rfl⟩ := named_of_mem_knownPaths hlog hpath
  cases ns with
  | nil => exact hns.1 rfl
  | cons name rest =>
    have hname : Frame.ProperName name := hns.2 name List.mem_cons_self
    have hxs : ∀ x ∈ [writeEmpty name], x.Sound := by
      intro x hx
      rw [List.mem_singleton.mp hx]
      exact sound_writeEmpty name
    have hsingle : Frame.single name = SlotEdit.applyAll [writeEmpty name] .empty :=
      (apply_writeEmpty hname .empty).symm
    have hcommit := h.committed_writeEmpty hname "write"
    obtain ⟨hto, hfrom⟩ := (h.reverts_iff hxs hsingle rfl hcommit (h.limit_pos hall)).mp
      (hall "write" _ hxs hcommit)
    have htidy : (Frame.single name).Tidy := by
      rw [hsingle]
      exact (SlotEdit.tidy_applyAll hxs h.tidy h.readable).1
    -- The session takes the known value for what it has seen at the path.
    have hmem : (Frame.pathOf (name :: rest), Capture.value s) ∈
        seenBefore b.undo e p.name .empty (Frame.single name) := by
      unfold seenBefore
      rw [if_pos (show Frame.empty.isEmpty = true from rfl)]
      refine List.mem_map.mpr ⟨Frame.pathOf (name :: rest), ?_, ?_⟩
      · exact UndoLog.mem_sortPaths.mpr (List.mem_append_right _ hpath)
      · rw [hknown]
        rfl
    exact Frame.not_both_of_seen (unannounced_seenBefore htidy hlog) hns hmem hto hfrom

/-! ### Which sessions can be taken back -/

/-- Undo and redo of every session that follows a history restore the tables at its
    ends if and only if the log keeps operations, and the table is not empty or the
    log knows no value of its slots. -/
theorem slots_revert_iff (h : SlotHistory e p b) :
    (∀ label xs, (∀ x ∈ xs, SlotEdit.Sound x) → (b.slotSession label e p.name xs).1 = true →
      b.Reverts (b.slotSession label e p.name xs).2 e) ↔
    0 < b.config.undoLimit ∧ (b.table? e ≠ some .empty ∨
      ∀ path s, b.undo.lastKnown e p.name (some path) ≠ some (.value s)) := by
  obtain ⟨f, htable, hlog⟩ := h.exists_table
  constructor
  · intro hall
    refine ⟨htable.limit_pos hall, ?_⟩
    by_cases hempty : b.table? e = some .empty
    · right
      intro path s
      have hf : f = .empty := Option.some.inj (htable.table.symm.trans hempty)
      subst hf
      exact htable.not_known hlog hall path s
    · exact Or.inl hempty
  · intro hcond label xs hxs hcommit
    obtain ⟨hlimit, hcond⟩ := hcond
    obtain ⟨hg, hgr⟩ := SlotEdit.tidy_applyAll hxs htable.tidy htable.readable
    refine (htable.reverts_iff hxs rfl rfl hcommit hlimit).mpr ?_
    -- The table was announced leaf by leaf, or it was empty and the log has to do.
    cases hne : f.isEmpty with
    | false =>
      have hseen : seenBefore b.undo e p.name f (SlotEdit.applyAll xs f) =
          Frame.announced f (SlotEdit.applyAll xs f) := by
        unfold seenBefore
        rw [hne]
        rfl
      rw [hseen]
      exact ⟨Frame.undo_announced htable.tidy htable.readable hg hgr,
        Frame.redo_announced htable.tidy htable.readable hg hgr⟩
    | true =>
      have hf : f = .empty := Frame.isEmpty_iff.mp hne
      subst hf
      have hknown := hcond.resolve_left (not_not_intro htable.table)
      have habsent : ∀ x ∈ seenBefore b.undo e p.name .empty (SlotEdit.applyAll xs .empty),
          x.2 = .absent := by
        intro x hx
        exact absent_of_mem_seenBefore hknown hx
      have hun := unannounced_seenBefore hg hlog
      exact ⟨Frame.undo_unannounced hun hg habsent, Frame.redo_unannounced hun hg hgr habsent⟩

end History

/-! ### The slots of a node -/

section Nodes

open Bag

/-- The side-table of nodes as a parameter. -/
def nodeSlots : Param bags :=
  (Column.param .alpha { kind := .slots, name := "slots", compartment := "slots" }).val

/-- A book with a node whose table is empty. -/
def plain : Book bags := addNode (emptyBook 1) 1 2

/-- A session that changes one slot of the node. -/
def jot (b : Book bags) (x : SlotEdit) : Book bags := (b.slotSession "jot" (node 1) "slots" [x]).2

/-- A slot is written. -/
def jotted : Book bags := jot plain (.set "a" (.int64 1))

/-- The slot becomes a frame, and then the slot in it goes, and the frame with it. -/
def cleared : Book bags := jot (jot jotted (.set "a/b" (.int64 2))) (.delete "a/b")

/-- Another slot is written. -/
def resumed : Book bags := jot cleared (.set "c" (.int64 5))

theorem hasTable_plain : plain.HasTable (node 1) nodeSlots .empty where
  wellFormed := wellFormed_addNode (wellFormed_emptyBook 1) 1 2
  enabled := rfl
  param := rfl
  slots := rfl
  table := rfl
  tidy := trivial
  readable := Frame.readable_empty

theorem SlotHistory.jot {b : Book bags} (h : SlotHistory (node 1) nodeSlots b) {x : SlotEdit}
    (hx : x.Sound) : SlotHistory (node 1) nodeSlots (jot b x) := by
  refine h.session "jot" [x] ?_
  intro y hy
  rw [List.mem_singleton.mp hy]
  exact hx

theorem slotHistory_jotted : SlotHistory (node 1) nodeSlots jotted := by
  have hset : (SlotEdit.set "a" (.int64 1)).Sound := ⟨trivial, by decide +kernel⟩
  refine (SlotHistory.start plain .empty hasTable_plain ?_).jot hset
  intro op hop
  cases hop

theorem slotHistory_cleared : SlotHistory (node 1) nodeSlots cleared := by
  have hset : (SlotEdit.set "a/b" (.int64 2)).Sound := ⟨trivial, by decide +kernel⟩
  have hdelete : (SlotEdit.delete "a/b").Sound := trivial
  exact (slotHistory_jotted.jot hset).jot hdelete

/-- While its table holds a slot, all sessions on the node can be taken back; once the
    table has been cleared, some cannot. -/
theorem node_slots_revert :
    (SlotHistory (node 1) nodeSlots jotted ∧
      ∀ label xs, (∀ x ∈ xs, SlotEdit.Sound x) →
        (jotted.slotSession label (node 1) "slots" xs).1 = true →
          jotted.Reverts (jotted.slotSession label (node 1) "slots" xs).2 (node 1)) ∧
    (SlotHistory (node 1) nodeSlots cleared ∧
      ¬ ∀ label xs, (∀ x ∈ xs, SlotEdit.Sound x) →
        (cleared.slotSession label (node 1) "slots" xs).1 = true →
          cleared.Reverts (cleared.slotSession label (node 1) "slots" xs).2 (node 1)) := by
  refine ⟨⟨slotHistory_jotted, ?_⟩, ⟨slotHistory_cleared, ?_⟩⟩
  · refine (slots_revert_iff slotHistory_jotted).mpr ⟨by decide, Or.inl ?_⟩
    decide +kernel
  · intro hall
    obtain ⟨_, hcond⟩ := (slots_revert_iff slotHistory_cleared).mp hall
    have hempty : cleared.table? (node 1) = some .empty := by decide +kernel
    have hknown : cleared.undo.lastKnown (node 1) nodeSlots.name (some "a") =
        some (.value (Slot.frame (.cons "b" (.int64 2) .empty)).text) := by decide +kernel
    exact hcond.resolve_left (not_not_intro hempty) "a" _ hknown

/-- Undo of the session after that brings a slot back that was not there before it. -/
theorem resumed_not_reverted :
    SlotHistory (node 1) nodeSlots cleared ∧ (SlotEdit.set "c" (.int64 5)).Sound ∧
      cleared.slotSession "jot" (node 1) "slots" [.set "c" (.int64 5)] = (true, resumed) ∧
      cleared.table? (node 1) = some .empty ∧
      resumed.undoLast.2.table? (node 1) =
        some (.cons "a" (.frame (.cons "b" (.int64 2) .empty)) .empty) ∧
      ¬ cleared.Reverts resumed (node 1) := by
  have hcommit : (cleared.slotSession "jot" (node 1) "slots" [.set "c" (.int64 5)]).1 = true := by
    decide +kernel
  have hbefore : cleared.table? (node 1) = some .empty := by decide +kernel
  have hback : resumed.undoLast.2.table? (node 1) =
      some (.cons "a" (.frame (.cons "b" (.int64 2) .empty)) .empty) := by decide +kernel
  refine ⟨slotHistory_cleared, ⟨trivial, by decide +kernel⟩, ?_, hbefore, hback, ?_⟩
  · exact Prod.ext hcommit rfl
  · intro hr
    have heq := hr.before
    rw [hback, hbefore] at heq
    cases heq

end Nodes

end Book

end EntityBook
