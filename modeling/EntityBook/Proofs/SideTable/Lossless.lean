import EntityBook.Proofs.SideTable.Readable
import EntityBook.Proofs.Value.Text

/-! # Slots come back from their texts

  The text of a slot loses nothing: it reads back as the slot, however frames are
  nested and whatever their names are, as long as the reader has room for the
  nesting. Of the values in it only doubles and instants are written in a form that
  the reader understands by itself; they have to come back one by one.

  In contrast to a path, a text tells names apart that are empty or hold
  separators, so all that is asked of a frame is that its names increase.
-/

namespace EntityBook

/-! ### Nesting -/

namespace Json

mutual

/-- How deep the arrays and objects of a tree are nested. -/
def depth : Json → Nat
  | .array items => itemsDepth items + 1
  | .object members => membersDepth members + 1
  | _ => 0

/-- The depth of the deepest item. -/
def itemsDepth : List Json → Nat
  | [] => 0
  | j :: rest => max j.depth (itemsDepth rest)

/-- The depth of the deepest member. -/
def membersDepth : List (Option String × Json) → Nat
  | [] => 0
  | (_, j) :: rest => max j.depth (membersDepth rest)

end

@[simp] theorem depth_tagged (type : String) (value : Json) :
    (Slot.tagged type value).depth = value.depth + 1 := by
  simp [Slot.tagged, ofMembers, ofString, depth, membersDepth]

@[simp] theorem depth_ofString (s : String) : (ofString s).depth = 0 := rfl

@[simp] theorem depth_ofInt (n : Int) : (ofInt n).depth = 0 := rfl

/-! ### Values that always come back -/

theorem string?_ofString (s : String) : (ofString s).string? = some s := rfl

theorem int64?_ofInt (v : Int64) : (ofInt v.toInt).int64? = some v := by
  unfold int64? ofInt integerIn?
  dsimp only
  rw [Numeral.integer?_ofInt]
  dsimp only
  rw [decide_eq_true (Int64.minValue_le_toInt v), decide_eq_true (Int64.toInt_le v)]
  exact congrArg some (Int64.ofInt_toInt v)

end Json

theorem Numeric.ofJson?_toJson (room : Nat) (n : Numeric) :
    Numeric.ofJson? room n.toJson = if room = 0 then none else some n := by
  have hrecord : n.toJson.record? ["num", "denom"] =
      some [some (Json.ofInt n.num.toInt), some (Json.ofInt n.denom.toInt)] := rfl
  unfold Numeric.ofJson?
  rw [hrecord]
  simp [Json.int64?_ofInt]

theorem Numeric.depth_toJson (n : Numeric) : n.toJson.depth = 1 := rfl

namespace Guid

theorem readHyphenated_append {a b c d e : List Char} (ha : a.length = 8) (hb : b.length = 4)
    (hc : c.length = 4) (hd : d.length = 4) (he : e.length = 12) :
    readHyphenated (a ++ '-' :: b ++ '-' :: c ++ '-' :: d ++ '-' :: e) =
      readSimple (a ++ b ++ c ++ d ++ e) := by
  unfold readHyphenated
  simp [List.drop_append, List.drop_of_length_le, List.getElem?_append, ha, hb, hc, hd, he]

theorem readAnyForm_hyphenated (g : Guid) : readAnyForm g.hyphenated = some g := by
  have hlength : g.hyphenated.length = 36 := by simp [hyphenated]
  -- Without the hyphens the five groups are the digits again.
  have hgroups : readHyphenated g.hyphenated = readSimple g.hexChars := by
    have hjoin (i n : Nat) (cs : List Char) :
        cs.drop i = (cs.drop i).take n ++ cs.drop (i + n) := by
      rw [← List.drop_drop, List.take_append_drop]
    unfold hyphenated
    dsimp only
    rw [readHyphenated_append (by simp) (by simp) (by simp) (by simp) (by simp)]
    simp only [List.append_assoc, ← hjoin, List.take_append_drop]
  unfold readAnyForm
  rw [if_neg (by omega), if_pos hlength, hgroups]
  unfold readSimple
  rw [if_pos g.length_hexChars, readHex_hexChars, Option.map_some, ofNat_toNat]

theorem depth_toJson (g : Guid) : g.toJson.depth = 0 := rfl

theorem ofJson?_toJson (g : Guid) : ofJson? g.toJson = some g := by
  unfold ofJson? toJson
  simp [Json.ofString, Json.string?, readAnyForm_hyphenated]

end Guid

/-! ### Values that have to come back one by one -/

theorem Double.depth_toJson (x : Double) : x.toJson.depth = 0 := by
  unfold Double.toJson
  split <;> rfl

theorem Timestamp.depth_toJson (t : Timestamp) : t.toJson.depth = 0 := rfl

mutual

/-- The doubles and instants in a slot come back from their trees. A double that is
    not finite has none to come back from. -/
def Slot.Exact : Slot → Prop
  | .double x => x.toJson.double? = some x
  | .time t => Timestamp.ofJson? t.toJson = some t
  | .frame f => f.Exact
  | _ => True

/-- The doubles and instants in the slots of a frame come back from their trees. -/
def Frame.Exact : Frame → Prop
  | .empty => True
  | .cons _ slot rest => slot.Exact ∧ rest.Exact

end

/-! ### Frames -/

namespace Frame

theorem sorted_singleton {name : String} {s : Slot} (hs : s.Sorted) :
    (cons name s empty).Sorted := by
  refine ⟨hs, ?_, trivial⟩
  intro n t hn
  cases hn

/-- It is enough to compare a name with the next one. -/
theorem Sorted.cons {name next : String} {s t : Slot} {rest : Frame} (hs : s.Sorted)
    (hlt : name < next) (h : (Frame.cons next t rest).Sorted) :
    (Frame.cons name s (.cons next t rest)).Sorted := by
  refine ⟨hs, ?_, h⟩
  intro n u hn
  by_cases heq : next = n
  · exact heq ▸ hlt
  · rw [find, if_neg heq] at hn
    exact lt_trans hlt (h.2.1 n u hn)

/-- The slots of a frame and those of another one behind them. -/
def append : Frame → Frame → Frame
  | empty, g => g
  | cons name slot rest, g => cons name slot (rest.append g)

theorem append_empty (f : Frame) : f.append empty = f := by
  cases f with
  | empty => rfl
  | cons n t rest => exact congrArg (cons n t) (append_empty rest)

theorem append_cons (f g : Frame) (name : String) (s : Slot) :
    (f.append (cons name s empty)).append g = f.append (cons name s g) := by
  cases f with
  | empty => rfl
  | cons n t rest => exact congrArg (cons n t) (append_cons rest g name s)

theorem find_append_cons {f : Frame} {name n : String} {s t : Slot}
    (h : (f.append (cons name s empty)).find n = some t) : f.find n = some t ∨ n = name := by
  match f with
  | empty =>
    by_cases heq : name = n
    · exact .inr heq.symm
    · simp [append, find, heq] at h
  | cons m u rest =>
    by_cases heq : m = n
    · simp only [append, find, heq, if_true] at h ⊢
      exact .inl h
    · simp only [append, find, heq, if_false] at h ⊢
      exact find_append_cons h

/-- A name beyond all others goes to the end. -/
theorem insert_eq_append {f : Frame} {name : String} (s : Slot)
    (h : ∀ n t, f.find n = some t → n < name) : f.insert name s = f.append (cons name s empty) := by
  match f, h with
  | empty, _ => rfl
  | cons m u rest, h =>
    have hm : m < name := h m u (by simp [find])
    have hrest : ∀ n t, rest.find n = some t → n < name := by
      intro n t hn
      by_cases heq : m = n
      · exact heq ▸ hm
      · exact h n t (by rw [find, if_neg heq, hn])
    rw [insert, if_neg (ne_of_lt hm), if_neg (lt_asymm hm), insert_eq_append s hrest]
    rfl

end Frame

namespace Slot

section Collect

variable {decode : Json → Option Slot}

/-- Slots that are decoded as themselves are put behind those that were there. -/
theorem collect_append {f acc : Frame} (hf : f.Sorted)
    (hd : ∀ n s, f.find n = some s → decode s.toJson = some s)
    (hlt : ∀ n t m u, acc.find n = some t → f.find m = some u → n < m) :
    collect decode (membersOf f) acc = some (acc.append f) := by
  match f, hf with
  | .empty, _ => exact congrArg some acc.append_empty.symm
  | .cons m u rest, ⟨_, hless, hrest⟩ =>
    have hself : (Frame.cons m u rest).find m = some u := by simp [Frame.find]
    have hmore : ∀ n s, rest.find n = some s → (Frame.cons m u rest).find n = some s := by
      intro n s hn
      rw [Frame.find, if_neg (ne_of_lt (hless n s hn)), hn]
    have hinsert : acc.insert m u = acc.append (.cons m u .empty) :=
      Frame.insert_eq_append u fun n t hn => hlt n t m u hn hself
    have ih : collect decode (membersOf rest) (acc.append (.cons m u .empty)) =
        some ((acc.append (.cons m u .empty)).append rest) :=
      collect_append hrest (fun n s hn => hd n s (hmore n s hn)) ?_
    · have hmembers : membersOf (.cons m u rest) = (some m, u.toJson) :: membersOf rest := rfl
      rw [hmembers]
      unfold collect
      rw [hd m u hself]
      dsimp only
      rw [hinsert, ih, Frame.append_cons]
    · intro n t k v hn hk
      rcases Frame.find_append_cons hn with hn | rfl
      · exact hlt n t k v hn (hmore k v hk)
      · exact hless k v hk

/-- A frame is collected from its own slots if each is decoded as itself. -/
theorem collect_eq_some_iff {f : Frame} (hf : f.Sorted) :
    collect decode (membersOf f) .empty = some f ↔
      ∀ n s, f.find n = some s → decode s.toJson = some s := by
  constructor
  · intro h n s hn
    obtain ⟨t, ht, hft⟩ := (find_collect hf h).2 n s hn
    rw [ht, ← hft, hn]
  · intro h
    refine collect_append hf h ?_
    intro n t m u hn
    cases hn

end Collect

/-! ### Slots of any nesting -/

theorem depth_frame (f : Frame) :
    (frame f).toJson.depth = Json.membersDepth (membersOf f) + 3 := by
  unfold toJson
  simp [Json.ofMembers, Json.depth, Json.membersDepth]

mutual

/-- A slot is decoded as itself if there is room for it and its values come back. -/
theorem ofJson?_eq_some_iff {s : Slot} (hs : s.Sorted) (room : Nat) :
    ofJson? room false s.toJson = some s ↔ s.toJson.depth ≤ room ∧ s.Exact := by
  match room with
  | 0 =>
    have hdepth : 0 < s.toJson.depth := by cases s <;> simp [toJson]
    constructor
    · intro h
      cases h
    · rintro ⟨h, _⟩
      omega
  | room + 1 =>
    rw [ofJson?_succ]
    match s, hs with
    | .int64 v, _ => simp [reread, Json.int64?_ofInt, toJson, Exact]
    | .double x, _ => simp [reread, toJson, Exact, Double.depth_toJson]
    | .numeric v, _ =>
      simp [reread, Numeric.ofJson?_toJson, toJson, Exact, Numeric.depth_toJson,
        Nat.one_le_iff_ne_zero]
    | .string v, _ => simp [reread, Json.string?_ofString, toJson, Exact]
    | .guid v, _ => simp [reread, Guid.ofJson?_toJson, toJson, Exact, Guid.depth_toJson]
    | .time t, _ => simp [reread, toJson, Exact, Timestamp.depth_toJson]
    | .frame f, hf =>
      have hframe := find_iff hf
      constructor
      · intro h
        obtain ⟨g, hg, heq⟩ := Option.map_eq_some_iff.mp h
        cases heq
        obtain ⟨r, rfl, hcollect⟩ := exists_room hg
        obtain ⟨hdepth, hr⟩ := (hframe r).mp ((collect_eq_some_iff hf).mp hcollect)
        exact ⟨by rw [depth_frame]; omega, hr⟩
      · rintro ⟨hdepth, hr⟩
        rw [depth_frame] at hdepth
        obtain ⟨r, rfl⟩ : ∃ r, room = r + 2 := ⟨room - 2, by omega⟩
        have hcollect := (collect_eq_some_iff hf).mpr ((hframe r).mpr ⟨by omega, hr⟩)
        rw [reread, frameOfJson?_succ, hcollect]
        rfl

theorem find_iff {f : Frame} (hf : f.Sorted) (room : Nat) :
    (∀ n s, f.find n = some s → ofJson? room false s.toJson = some s) ↔
      Json.membersDepth (membersOf f) ≤ room ∧ f.Exact := by
  match f, hf with
  | .empty, _ => simp [membersOf, Json.membersDepth, Frame.Exact]
  | .cons m u rest, ⟨hu, hless, hrest⟩ =>
    have hfirst := ofJson?_eq_some_iff hu room
    have hothers := find_iff hrest room
    have hmembers : membersOf (.cons m u rest) = (some m, u.toJson) :: membersOf rest := rfl
    rw [hmembers, Json.membersDepth, Frame.Exact, max_le_iff]
    constructor
    · intro h
      obtain ⟨hdepth, hr⟩ := hfirst.mp (h m u (by simp [Frame.find]))
      obtain ⟨hdepths, hrs⟩ := hothers.mp fun n s hn => h n s (by
        rw [Frame.find, if_neg (ne_of_lt (hless n s hn)), hn])
      exact ⟨⟨hdepth, hdepths⟩, hr, hrs⟩
    · rintro ⟨⟨hdepth, hdepths⟩, hr, hrs⟩ n s hn
      by_cases heq : m = n
      · have hs : u = s := by simpa [Frame.find, heq] using hn
        rw [← hs]
        exact hfirst.mpr ⟨hdepth, hr⟩
      · rw [Frame.find, if_neg heq] at hn
        exact hothers.mpr ⟨hdepths, hrs⟩ n s hn

end

/-! ### Texts -/

/-- The text of a slot reads back as the slot exactly if it is not nested deeper
    than the reader goes and the doubles and instants in it come back. No two
    slots whose doubles and instants do so have the same text. -/
theorem text_is_lossless {s : Slot} (hs : s.Sorted) :
    (parse s.text = .ok s ↔ s.toJson.depth ≤ Json.maxDepth ∧ s.Exact) ∧
      (s.Exact → ∀ t : Slot, t.Sorted → t.Exact → (t.text = s.text ↔ t = s)) := by
  refine ⟨parse_text_eq_ok.trans (ofJson?_eq_some_iff hs Json.maxDepth), ?_⟩
  intro hr t ht htr
  constructor
  · intro h
    -- The text determines the tree, and with enough room the tree is decoded.
    have htree : t.toJson = s.toJson := by
      have hread := Json.parse?_text (writable_toJson t)
      rw [show t.toJson.text = s.toJson.text from h, Json.parse?_text (writable_toJson s)] at hread
      exact (Option.some.inj hread).symm
    have hown := (ofJson?_eq_some_iff hs s.toJson.depth).mpr ⟨Nat.le_refl _, hr⟩
    have hother := (ofJson?_eq_some_iff ht t.toJson.depth).mpr ⟨Nat.le_refl _, htr⟩
    rw [htree, hown] at hother
    exact (Option.some.inj hother).symm
  · intro h
    rw [h]

/-- A frame with names that no path can hold, a frame in it, and values of all
    kinds. -/
def assorted : Slot :=
  .frame
    (.cons "" (.string "tab\t and \u0001")
      (.cons "a/b" (.frame
        (.cons "\"" (.double ⟨0x3FF8000000000000⟩)
          (.cons "\\" (.frame .empty) .empty)))
        (.cons "n" (.numeric ⟨-7, 2⟩)
          (.cons "t" (.time Timestamp.epoch)
            (.cons "é" (.guid (.ofNat 0xabc))
              (.cons "∀" (.int64 (-9223372036854775808)) .empty))))))

theorem assorted_is_lossless :
    assorted.Sorted ∧ assorted.toJson.depth ≤ Json.maxDepth ∧ assorted.Exact ∧
      parse assorted.text = .ok assorted := by
  have hs : assorted.Sorted := by
    refine Frame.Sorted.cons trivial (by decide) ?_
    refine Frame.Sorted.cons ?_ (by decide) ?_
    · exact Frame.Sorted.cons trivial (by decide) (Frame.sorted_singleton trivial)
    · refine Frame.Sorted.cons trivial (by decide) ?_
      refine Frame.Sorted.cons trivial (by decide) ?_
      refine Frame.Sorted.cons trivial (by decide) ?_
      exact Frame.sorted_singleton trivial
  have hdepth : assorted.toJson.depth ≤ Json.maxDepth := by decide +kernel
  have hdouble : (Double.toJson ⟨0x3FF8000000000000⟩).double? = some ⟨0x3FF8000000000000⟩ := by
    decide +kernel
  have htime : Timestamp.ofJson? Timestamp.epoch.toJson = some Timestamp.epoch := by
    decide +kernel
  have hr : assorted.Exact :=
    ⟨trivial, ⟨hdouble, trivial, trivial⟩, trivial, htime, trivial, trivial, trivial⟩
  exact ⟨hs, hdepth, hr, (text_is_lossless hs).1.mpr ⟨hdepth, hr⟩⟩

end Slot

end EntityBook
