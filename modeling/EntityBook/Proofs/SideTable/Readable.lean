import EntityBook.Proofs.Json.RoundTrip
import EntityBook.Proofs.SideTable.Leaves
import EntityBook.SideTable.Json

/-! # Slots read back

  A slot is readable if the texts of all its leaves read back. Then its own text
  reads back as well, or does not read at all because it is nested too deeply;
  it never reads as another slot. The other way round, a slot whose text reads
  back is readable.

  Doubles are the reason to ask for this: the reader of numerals is not exact,
  and a double that is not finite has no numeral.
-/

namespace EntityBook

open EntityBook.Frame (ProperName)

/-! ### Texts and trees -/

namespace Slot

theorem writable_tagged {type : String} {value : Json} (h : value.Writable) :
    (tagged type value).Writable := ⟨trivial, h, trivial⟩

theorem writable_toJson_double (x : Double) : x.toJson.Writable := by
  unfold Double.toJson
  split
  · next n r _ heq => exact Json.Numeral.proper_of_take heq
  · trivial

mutual

theorem writable_toJson (s : Slot) : s.toJson.Writable := by
  match s with
  | .int64 v => exact writable_tagged (Json.Numeral.proper_ofInt v.toInt)
  | .double v => exact writable_tagged (writable_toJson_double v)
  | .numeric v =>
    exact writable_tagged ⟨Json.Numeral.proper_ofInt v.num.toInt,
      Json.Numeral.proper_ofInt v.denom.toInt, trivial⟩
  | .string _ | .guid _ | .time _ => exact writable_tagged trivial
  | .frame f => exact writable_tagged ⟨writable_membersOf f, trivial⟩

theorem writable_membersOf (f : Frame) : Json.MembersWritable (membersOf f) := by
  match f with
  | .empty => trivial
  | .cons _ s rest => exact ⟨writable_toJson s, writable_membersOf rest⟩

end

/-- The text of a slot is read as its tree is decoded. -/
theorem parse_text_eq_ok {s t : Slot} :
    parse s.text = .ok t ↔ ofJson? Json.maxDepth false s.toJson = some t := by
  have hread : Json.parse? s.text = some s.toJson := Json.parse?_text (writable_toJson s)
  unfold parse
  rw [hread, Option.bind_some]
  cases ofJson? Json.maxDepth false s.toJson with
  | none =>
    constructor
    · intro h
      cases h
    · intro h
      cases h
  | some u => simp

/-! ### Decoding by the kind of slot -/

/-- What the decoder makes of the tree of a slot. -/
def reread (room : Nat) : Slot → Option Slot
  | int64 v => (Json.ofInt v.toInt).int64?.map int64
  | double v => v.toJson.double?.map double
  | numeric v => (Numeric.ofJson? room v.toJson).map numeric
  | string v => (Json.ofString v).string?.map string
  | guid v => (Guid.ofJson? v.toJson).map guid
  | time v => (Timestamp.ofJson? v.toJson).map time
  | frame f => (frameOfJson? room false f.toJson).map frame

/-- A tagged tree is decoded by its tag. -/
theorem ofJson?_tagged (room : Nat) (type : String) (value : Json) :
    ofJson? (room + 1) false (tagged type value) =
      match some type with
      | some "int64" => value.int64?.map int64
      | some "double" => value.double?.map double
      | some "numeric" => (Numeric.ofJson? room value).map numeric
      | some "string" => value.string?.map string
      | some "guid" => (Guid.ofJson? value).map guid
      | some "time" => (Timestamp.ofJson? value).map time
      | some "frame" => (frameOfJson? room false value).map frame
      | _ => none := by
  rw [ofJson?]
  rfl

theorem ofJson?_succ (room : Nat) (s : Slot) :
    ofJson? (room + 1) false s.toJson = s.reread room := by
  cases s with
  | int64 | double | numeric | string | guid | time | frame => exact ofJson?_tagged room _ _

theorem frameOfJson?_succ (room : Nat) (f : Frame) :
    frameOfJson? (room + 2) false f.toJson =
      collect (ofJson? room false) (membersOf f) .empty := by
  unfold Frame.toJson
  rw [frameOfJson?]
  rfl

/-- A frame that is decoded leaves room for its slots. -/
theorem exists_room {room : Nat} {f g : Frame} (h : frameOfJson? room false f.toJson = some g) :
    ∃ r, room = r + 2 ∧ collect (ofJson? r false) (membersOf f) .empty = some g := by
  match room with
  | 0 =>
    rw [frameOfJson?] at h
    cases h
  | 1 =>
    rw [frameOfJson?] at h
    cases h
  | r + 2 =>
    rw [frameOfJson?_succ] at h
    exact ⟨r, rfl, h⟩

/-- More room does not change what is made of a leaf. -/
theorem reread_mono {s t : Slot} (hs : s.isLeaf = true) {room room' : Nat} (hle : room ≤ room')
    (h : s.reread room = some t) : s.reread room' = some t := by
  cases s with
  | int64 | double | string | guid | time =>
    unfold reread at h ⊢
    exact h
  | numeric v =>
    rw [reread] at h ⊢
    unfold Numeric.ofJson? at h ⊢
    -- A numeric is a tree of its own, one level deep.
    by_cases hroom : room = 0
    · rw [if_pos hroom] at h
      cases h
    · rw [if_neg hroom] at h
      rw [if_neg (by omega)]
      exact h
  | frame f =>
    cases f with
    | empty =>
      rw [reread] at h ⊢
      obtain ⟨g, hg, hgt⟩ := Option.map_eq_some_iff.mp h
      obtain ⟨r, rfl, hr⟩ := exists_room hg
      obtain ⟨r', rfl⟩ : ∃ r', room' = r' + 2 := ⟨room' - 2, by omega⟩
      have hr' : collect (ofJson? r' false) (membersOf .empty) .empty = some g := hr
      rw [frameOfJson?_succ, hr', Option.map_some, hgt]
    | cons => cases hs

theorem ofJson?_mono {s t : Slot} (hs : s.isLeaf = true) {room room' : Nat} (hle : room ≤ room')
    (h : ofJson? room false s.toJson = some t) : ofJson? room' false s.toJson = some t := by
  cases room with
  | zero => cases h
  | succ room =>
    obtain ⟨r', rfl⟩ : ∃ r', room' = r' + 1 := ⟨room' - 1, by omega⟩
    rw [ofJson?_succ] at h ⊢
    exact reread_mono hs (by omega) h

/-! ### The slots of a frame, one by one -/

section Collect

variable {decode : Json → Option Slot}

theorem collect_cons {name : String} {s : Slot} {rest acc g : Frame}
    (h : collect decode (membersOf (.cons name s rest)) acc = some g) :
    ∃ t, decode s.toJson = some t ∧ collect decode (membersOf rest) (acc.insert name t) = some g := by
  have hmembers : membersOf (.cons name s rest) = (some name, s.toJson) :: membersOf rest := rfl
  rw [hmembers] at h
  unfold collect at h
  cases hd : decode s.toJson with
  | none =>
    rw [hd] at h
    cases h
  | some t =>
    rw [hd] at h
    exact ⟨t, rfl, h⟩

/-- What is collected holds the decoded slots and what was there under other names. -/
theorem find_collect {f acc g : Frame} (hf : f.Sorted)
    (h : collect decode (membersOf f) acc = some g) :
    (∀ n, f.find n = none → g.find n = acc.find n) ∧
      ∀ n s, f.find n = some s → ∃ t, decode s.toJson = some t ∧ g.find n = some t := by
  match f, hf with
  | .empty, _ =>
    cases h
    refine ⟨fun _ _ => rfl, ?_⟩
    intro n s hs
    cases hs
  | .cons m u rest, ⟨_, hlt, hrest⟩ =>
    obtain ⟨t, ht, hmore⟩ := collect_cons h
    obtain ⟨hother, hsome⟩ := find_collect hrest hmore
    -- The name does not occur again, so nothing later overrides its slot.
    have hm : rest.find m = none := by
      cases hfind : rest.find m with
      | none => rfl
      | some v => exact absurd (hlt m v hfind) (lt_irrefl _)
    constructor
    · intro n hn
      by_cases heq : m = n
      · subst heq
        simp [Frame.find] at hn
      · rw [Frame.find, if_neg heq] at hn
        rw [hother n hn, Frame.find_insert_of_ne (Ne.symm heq)]
    · intro n s hn
      by_cases heq : m = n
      · subst heq
        have hs : u = s := by simpa [Frame.find] using hn
        subst hs
        exact ⟨t, ht, by rw [hother m hm, Frame.find_insert_self]⟩
      · rw [Frame.find, if_neg heq] at hn
        exact hsome n s hn

theorem tidy_collect {f acc g : Frame} (hf : f.Tidy) (hacc : acc.Tidy)
    (hd : ∀ n s t, f.find n = some s → decode s.toJson = some t → t.Tidy)
    (h : collect decode (membersOf f) acc = some g) : g.Tidy := by
  match f, hf with
  | .empty, _ =>
    cases h
    exact hacc
  | .cons m u rest, ⟨hm, _, hlt, hrest⟩ =>
    obtain ⟨t, ht, hmore⟩ := collect_cons h
    refine tidy_collect hrest (hacc.insert hm (hd m u t (by simp [Frame.find]) ht)) ?_ hmore
    intro n s t' hn
    have hne : m ≠ n := by
      rintro rfl
      exact lt_irrefl _ (hlt m s hn)
    exact hd n s t' (by rw [Frame.find, if_neg hne]; exact hn)

end Collect

end Slot

/-- Tidy frames with the same slots are the same. -/
theorem Frame.eq_of_find {f g : Frame} (hf : f.Tidy) (hg : g.Tidy)
    (h : ∀ n, f.find n = g.find n) : f = g := by
  refine frame_ext hf hg ?_
  intro ns
  cases ns with
  | nil => rw [leafAt_nil, leafAt_nil]
  | cons n ks => rw [leafAt_cons_eq, leafAt_cons_eq, h]

/-! ### Readable slots -/

/-- The texts of all leaves read back. -/
def Frame.Readable (f : Frame) : Prop :=
  ∀ ns s, f.leafAt ns = some s → Slot.parse s.text = .ok s

/-- The texts of all leaves read back. -/
def Slot.Readable (s : Slot) : Prop :=
  ∀ ks v, s.leafAt ks = some v → parse v.text = .ok v

namespace Slot

theorem Readable.frame {f : Frame} (h : (frame f).Readable) : f.Readable := by
  intro ns s hs
  cases ns with
  | nil =>
    rw [Frame.leafAt_nil] at hs
    cases hs
  | cons n ks => exact h (n :: ks) s hs

theorem readable_of_find {f : Frame} (h : f.Readable) {n : String} {s : Slot}
    (hs : f.find n = some s) : s.Readable := by
  intro ks v hv
  refine h (n :: ks) v ?_
  rw [Frame.leafAt_cons_eq, hs]
  exact hv

/-- A leaf is readable if its text reads back. -/
theorem readable_of_isLeaf {s : Slot} (hs : s.isLeaf = true) (h : parse s.text = .ok s) :
    s.Readable := by
  intro ks v hv
  cases ks with
  | nil =>
    rw [leafAt, if_pos hs] at hv
    cases hv
    exact h
  | cons k ks =>
    rw [Frame.leafAt_of_isLeaf hs (by simp)] at hv
    cases hv

theorem parse_of_isLeaf {s : Slot} (hs : s.isLeaf = true) (h : s.Readable) :
    parse s.text = .ok s := by
  refine h [] s ?_
  rw [leafAt, if_pos hs]

mutual

/-- The tree of a readable slot is not decoded as another one. -/
theorem eq_of_ofJson? {s t : Slot} (hs : s.Tidy) (hr : s.Readable) {room : Nat}
    (hroom : room ≤ Json.maxDepth) (h : ofJson? room false s.toJson = some t) : t = s := by
  -- A leaf reads back with all the room there is, and more room changes nothing.
  have leaf {u : Slot} (hl : u.isLeaf = true) (hu : u.Readable)
      (h : ofJson? room false u.toJson = some t) : t = u := by
    have hfull := parse_text_eq_ok.mp (parse_of_isLeaf hl hu)
    exact Option.some.inj ((ofJson?_mono hl hroom h).symm.trans hfull)
  match s with
  | .frame (.cons n u rest) =>
    have hf : (Frame.cons n u rest).Tidy := hs
    cases room with
    | zero => cases h
    | succ room =>
      rw [ofJson?_succ] at h
      obtain ⟨g, hg, rfl⟩ := Option.map_eq_some_iff.mp h
      obtain ⟨r, rfl, hcollect⟩ := exists_room hg
      obtain ⟨hnone, hsome⟩ := find_collect hf.sorted hcollect
      -- The slots of the frame are decoded as themselves, by induction.
      have hsame : ∀ m v w, (Frame.cons n u rest).find m = some v →
          ofJson? r false v.toJson = some w → w = v := by
        intro m v w hv hw
        exact eq_of_ofJson?_find hv (hf.find hv).2 (readable_of_find hr.frame hv) (by omega) hw
      have htidy : g.Tidy := by
        refine tidy_collect hf (show Frame.Tidy .empty from trivial) ?_ hcollect
        intro m v w hv hw
        rw [hsame m v w hv hw]
        exact (hf.find hv).2
      refine congrArg Slot.frame (Frame.eq_of_find htidy hf ?_)
      intro m
      cases hm : (Frame.cons n u rest).find m with
      | none => rw [hnone m hm, Frame.find_empty]
      | some v =>
        obtain ⟨w, hw, hgm⟩ := hsome m v hm
        rw [hgm, hsame m v w hm hw]
  | .frame .empty => exact leaf rfl hr h
  | .int64 _ | .double _ | .numeric _ | .string _ | .guid _ | .time _ => exact leaf rfl hr h

theorem eq_of_ofJson?_find {f : Frame} {n : String} {s t : Slot} (hf : f.find n = some s)
    (hs : s.Tidy) (hr : s.Readable) {room : Nat} (hroom : room ≤ Json.maxDepth)
    (h : ofJson? room false s.toJson = some t) : t = s := by
  match f with
  | .empty => cases hf
  | .cons m u rest =>
    by_cases heq : m = n
    · have hu : u = s := by simpa [Frame.find, heq] using hf
      rw [← hu] at hs hr h ⊢
      exact eq_of_ofJson? hs hr hroom h
    · rw [Frame.find, if_neg heq] at hf
      exact eq_of_ofJson?_find hf hs hr hroom h

end

/-- The text of a readable slot is not read as another one. -/
theorem eq_of_parse_text {s t : Slot} (hs : s.Tidy) (hr : s.Readable)
    (h : parse s.text = .ok t) : t = s :=
  eq_of_ofJson? hs hr (Nat.le_refl _) (parse_text_eq_ok.mp h)

mutual

theorem readable_of_ofJson? {s : Slot} (hs : s.Tidy) {room : Nat} (hroom : room ≤ Json.maxDepth)
    (h : ofJson? room false s.toJson = some s) : s.Readable := by
  -- What a leaf is decoded as with less room is what its text is read as.
  have leaf {u : Slot} (hl : u.isLeaf = true) (h : ofJson? room false u.toJson = some u) :
      u.Readable := readable_of_isLeaf hl (parse_text_eq_ok.mpr (ofJson?_mono hl hroom h))
  match s with
  | .frame (.cons n u rest) =>
    have hf : (Frame.cons n u rest).Tidy := hs
    cases room with
    | zero => cases h
    | succ room =>
      rw [ofJson?_succ] at h
      obtain ⟨g, hg, heq⟩ := Option.map_eq_some_iff.mp h
      cases heq
      obtain ⟨r, rfl, hcollect⟩ := exists_room hg
      obtain ⟨_, hsome⟩ := find_collect hf.sorted hcollect
      intro ks v hv
      cases ks with
      | nil => cases hv
      | cons m ks =>
        have hv : (Frame.cons n u rest).leafAt (m :: ks) = some v := hv
        rw [Frame.leafAt_cons_eq] at hv
        obtain ⟨w, hw, hleaf⟩ := Option.bind_eq_some_iff.mp hv
        obtain ⟨w', hdecode, hfind⟩ := hsome m w hw
        cases hw.symm.trans hfind
        exact readable_of_ofJson?_find hw (hf.find hw).2 (by omega) hdecode ks v hleaf
  | .frame .empty => exact leaf rfl h
  | .int64 _ | .double _ | .numeric _ | .string _ | .guid _ | .time _ => exact leaf rfl h

theorem readable_of_ofJson?_find {f : Frame} {n : String} {s : Slot} (hf : f.find n = some s)
    (hs : s.Tidy) {room : Nat} (hroom : room ≤ Json.maxDepth)
    (h : ofJson? room false s.toJson = some s) : s.Readable := by
  match f with
  | .empty => cases hf
  | .cons m u rest =>
    by_cases heq : m = n
    · have hu : u = s := by simpa [Frame.find, heq] using hf
      rw [← hu] at hs h ⊢
      exact readable_of_ofJson? hs hroom h
    · rw [Frame.find, if_neg heq] at hf
      exact readable_of_ofJson?_find hf hs hroom h

end

/-- A slot whose text reads back is readable. -/
theorem readable_of_parse_text {s : Slot} (hs : s.Tidy) (h : parse s.text = .ok s) : s.Readable :=
  readable_of_ofJson? hs (Nat.le_refl _) (parse_text_eq_ok.mp h)

/-- The text of an empty frame reads back. -/
theorem parse_text_empty : parse (frame .empty).text = .ok (frame .empty) := by
  refine parse_text_eq_ok.mpr ?_
  show ofJson? (126 + 1) false (frame .empty).toJson = some (frame .empty)
  rw [ofJson?_succ, reread, frameOfJson?_succ]
  rfl

end Slot

/-! ### Readable tables -/

namespace Frame

/-- A slot of a table is as readable as the table. -/
theorem Readable.getAt {f : Frame} (h : f.Readable) {ns : List String} {s : Slot}
    (hs : f.getAt ns = some s) : s.Readable := by
  intro ks v hv
  rw [← leafAt_append hs] at hv
  exact h _ v hv

theorem readable_empty : empty.Readable := by
  intro ns s hs
  rw [leafAt_empty] at hs
  cases hs

theorem Readable.setAt {f : Frame} (h : f.Readable) {v : Slot} (hv : v.Readable)
    (ns : List String) : (f.setAt v ns).Readable := by
  by_cases hns : ns = []
  · rw [hns]
    exact h
  intro ms s hs
  -- A leaf is brought by the new slot, above it, or apart from it.
  by_cases hbelow : ns <+: ms
  · obtain ⟨ks, rfl⟩ := hbelow
    rw [leafAt_setAt_below v hns] at hs
    exact hv ks s hs
  · by_cases habove : ms <+: ns
    · have hne : ms ≠ ns := by
        rintro rfl
        exact hbelow (List.prefix_refl _)
      rw [leafAt_setAt_above v habove hne] at hs
      cases hs
    · rw [leafAt_setAt_apart v ⟨hbelow, habove⟩] at hs
      exact h ms s hs

theorem Readable.deleteAt {f : Frame} (h : f.Readable) (ns : List String) :
    (f.deleteAt ns).Readable := by
  intro ms s hs
  exact h ms s (leafAt_of_leafAt_deleteAt hs)

end Frame

end EntityBook
