import EntityBook.Proofs.Double.RoundTrip
import EntityBook.Proofs.Instance.Access
import EntityBook.Proofs.Value.Text

/-! # Values read back from their texts

  A value is printable if it could have been read: a fraction has a positive
  denominator, a choice names a proper type, and of the doubles that are no
  numbers only the one that readers answer counts. The printable values are
  exactly those that read back from their texts, so a text tells them apart, and
  everything that is read is printable.

  Side-tables and instants are left out. The text of a side-table is a summary,
  and an instant does not keep all of its digits.
-/

namespace EntityBook

open Text (isBlank trimChars)

/-! ### Scalars -/

theorem Double.isBlank_chars {x : Double} {c : Char} (h : c ∈ x.chars) : isBlank c = false := by
  have hword {cs : List Char} (hcs : (cs.all fun c => !isBlank c) = true) (hc : c ∈ cs) :
      isBlank c = false := by simpa using List.all_eq_true.mp hcs c hc
  have hsign : c ∈ x.signChars → isBlank c = false := by
    unfold signChars
    split
    · exact hword rfl
    · exact hword rfl
  have hplain {whole fraction : List Char} (hp : Plain whole fraction)
      (hc : c ∈ plainChars whole fraction) : isBlank c = false := by
    rcases hp.mem_plainChars hc with rfl | hd
    · rfl
    · exact Text.isBlank_of_isDigit hd
  unfold chars at h
  split_ifs at h
  · exact hword rfl h
  · exact (List.mem_append.mp h).elim hsign (hword rfl)
  · exact (List.mem_append.mp h).elim hsign (hword rfl)
  · obtain ⟨whole, fraction, hp, hchars, _⟩ := exists_plain (x.shortest .up)
    rw [hchars] at h
    exact (List.mem_append.mp h).elim hsign (hplain hp)

theorem Double.trimChars_chars (x : Double) : trimChars x.chars = x.chars :=
  Text.trimChars_of_forall fun _ => isBlank_chars

namespace ScalarKind

/-- The scalar could have been read. -/
def Printable : (k : ScalarKind) → k.Value → Prop
  | double, x => x.isNaN = true → x = .nan
  | numeric, n => 0 < n.denom
  | _, _ => True

@[simp] theorem orUnreadable_some {α : Type} (kind : String) (cs : List Char) (v : α) :
    orUnreadable kind cs (some v) = .ok v := rfl

theorem eq_some_of_orUnreadable {α : Type} {kind : String} {cs : List Char} {r : Option α} {v : α}
    (h : orUnreadable kind cs r = .ok v) : r = some v := by
  cases r with
  | none => cases h
  | some w =>
    cases h
    rfl

theorem read_chars {k : ScalarKind} (hk : k ≠ time) {v : k.Value} (h : k.Printable v) :
    k.read (k.chars v) = .ok v := by
  cases k with
  | string => exact congrArg Except.ok String.ofList_toList
  | int32 => simp [read, chars, Text.readInt32_intChars]
  | int64 => simp [read, chars, Text.readInt64_intChars]
  | double => simp [read, chars, Double.trimChars_chars, Double.read_chars_iff.mpr h]
  | boolean => cases v <;> rfl
  | guid => exact Guid.read_hexChars v
  | time => exact absurd rfl hk
  | numeric => exact Numeric.read_chars h
  | char => rfl

/-- Whatever is read is printable. -/
theorem printable_of_read {k : ScalarKind} {cs : List Char} {v : k.Value}
    (h : k.read cs = .ok v) : k.Printable v := by
  cases k with
  | double => exact Double.eq_nan_of_read (eq_some_of_orUnreadable h)
  | numeric => exact Numeric.denom_pos_of_read h
  | string | int32 | int64 | boolean | guid | time | char => trivial

end ScalarKind

/-! ### Values of all kinds -/

namespace ParamValue

/-- The value could have been read. -/
def Printable : ParamValue → Prop
  | scalar k v => k.Printable v
  | choice (some e) => Entity.ProperTag e.typeTag
  | _ => True

theorem exists_ok_of_map {ε α β : Type} {f : α → β} {r : Except ε α} {b : β}
    (h : r.map f = .ok b) : ∃ a, r = .ok a ∧ f a = b := by
  cases r with
  | error e => cases h
  | ok a => exact ⟨a, rfl, Except.ok.inj h⟩

section ReadOptional

variable {α : Type} {read : List Char → Except ValueError α} {cs : List Char} {v : α}

theorem readOptional_eq_some (hne : cs ≠ []) (htrim : trimChars cs = cs) (h : read cs = .ok v) :
    readOptional read cs = .ok (some v) := by
  unfold readOptional
  rw [htrim]
  simp [hne, h, Except.map]

theorem exists_of_readOptional (h : readOptional read cs = .ok (some v)) :
    ∃ ds, read ds = .ok v := by
  unfold readOptional at h
  dsimp only at h
  split at h
  · cases h
  · obtain ⟨w, hw, heq⟩ := exists_ok_of_map h
    cases heq
    exact ⟨_, hw⟩

end ReadOptional

/-- A printable value reads back from its text. -/
theorem parse_text {k : ParamKind} (hs : k ≠ .slots) (ht : k ≠ .scalar .time) {v : ParamValue}
    (hk : v.HasKind k) (h : v.Printable) : parse k v.text = .ok v := by
  have hguid (g : Guid) : g.hexChars ≠ [] := List.ne_nil_of_length_eq_add_one g.length_hexChars
  have hread : read k v.chars = .ok v := by
    cases k with
    | slots => exact absurd rfl hs
    | scalar k =>
      cases v with
      | scalar l v =>
        obtain rfl : l = k := hk
        have hscalar := ScalarKind.read_chars (fun he => ht (congrArg ParamKind.scalar he)) h
        rw [read, chars, hscalar]
        rfl
      | _ => cases hk
    | reference target =>
      cases v with
      | reference r =>
        cases r with
        | none => rfl
        | some g =>
          rw [read, chars, readOptional_eq_some (hguid g) g.trimChars_hexChars g.read_hexChars]
          rfl
      | _ => cases hk
    | choice =>
      cases v with
      | choice r =>
        cases r with
        | none => rfl
        | some e =>
          have hne : e.text.toList ≠ [] := by simp [Entity.toList_text]
          rw [read, chars, readOptional_eq_some hne (Entity.trimChars_text h) (Entity.read_text h)]
          rfl
      | _ => cases hk
    | collection =>
      cases v with
      | collection gs =>
        rw [read, chars, readCollection_joinCommas]
        rfl
      | _ => cases hk
    | book =>
      cases v with
      | book g =>
        rw [read, chars, Guid.read_hexChars]
        rfl
      | _ => cases hk
  unfold parse text
  rw [String.toList_ofList]
  exact hread

/-- Whatever is read is printable. -/
theorem printable_of_parse {k : ParamKind} {s : String} {v : ParamValue}
    (h : parse k s = .ok v) : v.Printable := by
  have hk := hasKind_of_parse h
  unfold parse at h
  cases v with
  | scalar l v =>
    cases k with
    | scalar k =>
      obtain rfl : l = k := hk
      obtain ⟨w, hw, heq⟩ := exists_ok_of_map h
      cases heq
      exact ScalarKind.printable_of_read hw
    | _ => cases hk
  | choice r =>
    cases r with
    | none => trivial
    | some e =>
      cases k with
      | choice =>
        obtain ⟨w, hw, heq⟩ := exists_ok_of_map h
        cases heq
        obtain ⟨ds, hds⟩ := exists_of_readOptional hw
        exact Entity.properTag_of_read hds
      | _ => cases hk
  | slots | reference | collection | book => trivial

/-- For every kind but side-tables and instants: the printable values are those
    that read back from their texts, no two of them have the same text, and
    whatever a text is read as is one of them. -/
theorem texts_read_back {k : ParamKind} (hs : k ≠ .slots) (ht : k ≠ .scalar .time) :
    (∀ v : ParamValue, v.HasKind k → (parse k v.text = .ok v ↔ v.Printable)) ∧
      (∀ v w : ParamValue, v.HasKind k → w.HasKind k → v.Printable → w.Printable →
        v.text = w.text → v = w) ∧
      ∀ (s : String) (v : ParamValue), parse k s = .ok v →
        v.HasKind k ∧ v.Printable ∧ parse k v.text = .ok v := by
  refine ⟨?_, ?_, ?_⟩
  · intro v hk
    exact ⟨printable_of_parse, parse_text hs ht hk⟩
  · intro v w hv hw hpv hpw htext
    have hread := parse_text hs ht hv hpv
    rw [htext, parse_text hs ht hw hpw] at hread
    exact (Except.ok.inj hread).symm
  · intro s v h
    have hk := hasKind_of_parse h
    have hp := printable_of_parse h
    exact ⟨hk, hp, parse_text hs ht hk hp⟩

/-- A type with a colon in its name, and the smallest positive double. -/
theorem colon_and_smallest_double_read_back :
    parse .choice (choice (some ⟨"invoice: draft é", .ofNat 0xab⟩)).text =
        .ok (choice (some ⟨"invoice: draft é", .ofNat 0xab⟩)) ∧
      parse (.scalar .double) (scalar .double ⟨1⟩).text = .ok (scalar .double ⟨1⟩) := by
  have hchoice := (texts_read_back (k := .choice) (by decide) (by decide)).1
    (choice (some ⟨"invoice: draft é", .ofNat 0xab⟩)) trivial
  have hdouble := (texts_read_back (k := .scalar .double) (by decide) (by decide)).1
    (scalar .double ⟨1⟩) rfl
  have htag : Entity.ProperTag "invoice: draft é" := by decide
  have hnumber : Double.isNaN ⟨1⟩ = true → (⟨1⟩ : Double) = .nan := by decide
  exact ⟨hchoice.mpr htag, hdouble.mpr hnumber⟩

end ParamValue

end EntityBook
