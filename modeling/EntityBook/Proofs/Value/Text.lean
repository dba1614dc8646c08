import EntityBook.Value.Param
import Mathlib.Data.List.DropRight
import Mathlib.Data.List.TakeDrop

/-! # Texts of integers, identifiers and names of entities

  Each of them reads back from its text. Readers trim blanks and cut at
  separators, so what matters about a text is which characters it is made of.
-/

namespace EntityBook

/-! ### Characters -/

namespace Text

theorem isBlank_of_isDigit {c : Char} (h : isDigit c = true) : isBlank c = false := by
  simp only [isDigit, Bool.and_eq_true, decide_eq_true_eq] at h
  simp only [isBlank, Bool.or_eq_false_iff, Bool.and_eq_false_iff, decide_eq_false_iff_not,
    beq_eq_false_iff_ne]
  omega

/-- A text without blanks is left alone by trimming. -/
theorem trimChars_of_forall {cs : List Char} (h : ∀ c ∈ cs, isBlank c = false) :
    trimChars cs = cs := by
  refine trimChars_eq_self ?_ ?_
  · intro c hc
    exact h c (List.mem_of_mem_head? hc)
  · intro c hc
    exact h c (List.mem_of_getLast? hc)

/-- A trimmed text does not start with a blank. -/
theorem head?_trimChars {cs : List Char} {c : Char} (h : (trimChars cs).head? = some c) :
    isBlank c = false := by
  have hprefix : trimChars cs <+: cs.dropWhile isBlank := List.rdropWhile_prefix isBlank _
  obtain ⟨rest, hrest⟩ := hprefix
  have hhead : (cs.dropWhile isBlank).head? = some c := by
    rw [← hrest, List.head?_append, h]
    rfl
  have := List.head?_dropWhile_not isBlank cs
  rw [hhead] at this
  simpa using this

/-- Every character of a word is one of the sixteen digits. -/
theorem exists_hexChar {width n : Nat} {c : Char} (h : c ∈ hexDigits width n) :
    ∃ d, d < 16 ∧ c = hexChar d := by
  induction width generalizing n with
  | zero => cases h
  | succ width ih =>
    rw [hexDigits, List.mem_append, List.mem_singleton] at h
    rcases h with h | h
    · exact ih h
    · exact ⟨n % 16, Nat.mod_lt n (by omega), h⟩

/-- The digits of a word are neither blanks nor separators, and each is one byte. -/
theorem plain_hexChar {d : Nat} (h : d < 16) :
    isBlank (hexChar d) = false ∧ hexChar d ≠ ',' ∧ hexChar d ≠ ':' ∧
      (hexChar d).toNat ≤ 127 := by
  have all : ∀ d, d < 16 → isBlank (hexChar d) = false ∧ hexChar d ≠ ',' ∧ hexChar d ≠ ':' ∧
      (hexChar d).toNat ≤ 127 := by decide
  exact all d h

/-! ### Integers -/

theorem mem_intChars {n : Int} {c : Char} (h : c ∈ intChars n) : c = '-' ∨ isDigit c = true := by
  have digit (m : Nat) (hm : c ∈ natDigits m) : isDigit c = true :=
    List.all_eq_true.mp (all_isDigit_natDigits m) c hm
  cases n with
  | ofNat m => exact .inr (digit m h)
  | negSucc m =>
    rcases List.mem_cons.mp h with h | h
    · exact .inl h
    · exact .inr (digit (m + 1) h)

@[simp] theorem trimChars_intChars (n : Int) : trimChars (intChars n) = intChars n := by
  refine trimChars_of_forall ?_
  intro c hc
  rcases mem_intChars hc with rfl | hd
  · rfl
  · exact isBlank_of_isDigit hd

theorem readInt64_intChars (v : Int64) : readInt64 (intChars v.toInt) = some v := by
  unfold readInt64
  rw [readInt_intChars]
  dsimp only
  rw [decide_eq_true (Int64.minValue_le_toInt v), decide_eq_true (Int64.toInt_le v)]
  exact congrArg some (Int64.ofInt_toInt v)

theorem readInt32_intChars (v : Int32) : readInt32 (intChars v.toInt) = some v := by
  unfold readInt32
  rw [readInt_intChars]
  dsimp only
  rw [decide_eq_true (Int32.minValue_le_toInt v), decide_eq_true (Int32.toInt_le v)]
  exact congrArg some (Int32.ofInt_toInt v)

end Text

/-! ### Fractions -/

namespace Numeric

open Text (intChars isBlank trimChars mem_intChars)

theorem make_eq_ok {num denom : Int64} {n : Numeric} :
    make num denom = .ok n ↔ ¬ denom ≤ 0 ∧ n = ⟨num, denom⟩ := by
  unfold make
  by_cases h : denom ≤ 0
  · simp [h]
  · simp [h, eq_comm]

/-- A fraction with a positive denominator reads back from its text. -/
theorem read_chars {n : Numeric} (h : 0 < n.denom) : read n.chars = .ok n := by
  have htrim : trimChars n.chars = n.chars := by
    refine Text.trimChars_of_forall ?_
    intro c hc
    simp only [chars, List.mem_append, List.mem_cons] at hc
    rcases hc with hc | rfl | hc
    · rcases mem_intChars hc with rfl | hd
      · rfl
      · exact Text.isBlank_of_isDigit hd
    · rfl
    · rcases mem_intChars hc with rfl | hd
      · rfl
      · exact Text.isBlank_of_isDigit hd
  -- The slash is the first one, because no digit and no sign is a slash.
  have hspan : n.chars.span (· ≠ '/') = (intChars n.num.toInt, '/' :: intChars n.denom.toInt) := by
    have hnum : ∀ c ∈ intChars n.num.toInt, decide (c ≠ '/') = true := by
      intro c hc
      rcases mem_intChars hc with rfl | hd
      · rfl
      · rw [decide_eq_true_eq]
        rintro rfl
        cases hd
    rw [List.span_eq_takeWhile_dropWhile, chars, List.takeWhile_append_of_pos hnum,
      List.dropWhile_append_of_pos hnum]
    simp
  unfold read
  dsimp only
  rw [htrim, hspan]
  simp only [Text.trimChars_intChars, Text.readInt64_intChars]
  exact make_eq_ok.mpr ⟨Int64.not_le.mpr h, rfl⟩

/-- What is read has a positive denominator. -/
theorem denom_pos_of_read {cs : List Char} {n : Numeric} (h : read cs = .ok n) : 0 < n.denom := by
  unfold read at h
  dsimp only at h
  split at h
  · split at h
    · obtain ⟨hpos, rfl⟩ := make_eq_ok.mp h
      exact Int64.not_le.mp hpos
    · cases h
  · split at h
    · cases h
      show (0 : Int64) < 1
      decide
    · cases h

end Numeric

/-! ### Identifiers -/

namespace Guid

open Text (trimChars hexCodeValue)

@[simp] theorem length_hexChars (g : Guid) : g.hexChars.length = 32 := Text.length_hexDigits 32 _

theorem readHex_hexChars (g : Guid) : Text.readHex g.hexChars = some g.toNat :=
  Text.readHex_hexDigits g.value.isLt

@[simp] theorem ofNat_toNat (g : Guid) : ofNat g.toNat = g :=
  congrArg Guid.mk ((BitVec.ofNat_toNat 128 g.value).trans (BitVec.setWidth_eq g.value))

theorem exists_hexChar {g : Guid} {c : Char} (h : c ∈ g.hexChars) :
    ∃ d, d < 16 ∧ c = Text.hexChar d := Text.exists_hexChar h

theorem isBlank_hexChars {g : Guid} {c : Char} (h : c ∈ g.hexChars) : Text.isBlank c = false := by
  obtain ⟨d, hd, rfl⟩ := exists_hexChar h
  exact (Text.plain_hexChar hd).1

@[simp] theorem trimChars_hexChars (g : Guid) : trimChars g.hexChars = g.hexChars :=
  Text.trimChars_of_forall fun _ => isBlank_hexChars

/-- The bytes of a text that has one for each character. -/
theorem utf8_eq_map {cs : List Char} (h : ∀ c ∈ cs, c.toNat ≤ 127) :
    utf8 cs = cs.map Char.toNat := by
  induction cs with
  | nil => rfl
  | cons c r ih =>
    have hc : c.val.toNat ≤ 127 := h c List.mem_cons_self
    have hr := ih fun d hd => h d (List.mem_cons_of_mem c hd)
    have hone : String.utf8EncodeChar c = [UInt8.ofNat c.val.toNat] := by
      unfold String.utf8EncodeChar
      dsimp only
      rw [if_pos hc]
    have hvalue : (UInt8.ofNat c.val.toNat).toNat = c.toNat :=
      UInt8.toNat_ofNat_of_lt' (by unfold UInt8.size; omega)
    unfold utf8 at hr ⊢
    rw [List.flatMap_cons, hone, List.map_append, hr, List.map_cons, List.map_nil, hvalue]
    rfl

/-- An identifier reads back from its digits. -/
theorem read_hexChars (g : Guid) : read g.hexChars = .ok g := by
  have hutf8 : utf8 g.hexChars = g.hexChars.map Char.toNat := by
    refine utf8_eq_map ?_
    intro c hc
    obtain ⟨d, hd, rfl⟩ := exists_hexChar hc
    exact (Text.plain_hexChar hd).2.2.2
  have hlength : (utf8 g.hexChars).length = 32 := by rw [hutf8, List.length_map, length_hexChars]
  unfold read
  rw [trimChars_hexChars]
  dsimp only
  rw [if_neg (by omega)]
  split
  · next b i hfind =>
    -- No byte is found that is no digit.
    have hmem := List.fst_mem_of_mem_zipIdx (List.mem_of_find?_eq_some hfind)
    have hnone := List.find?_some hfind
    rw [hutf8] at hmem
    obtain ⟨c, hc, rfl⟩ := List.mem_map.mp hmem
    obtain ⟨d, hd, rfl⟩ := exists_hexChar hc
    have hvalue : hexCodeValue (Text.hexChar d).toNat = some d := Text.hexValue_hexChar hd
    simp [hvalue] at hnone
  · rw [if_pos hlength, readHex_hexChars, Option.getD_some, ofNat_toNat]

end Guid

/-! ### Names of entities -/

namespace Entity

open Text (isBlank trimChars)

/-- A type whose name can stand in front of an identifier: trimming leaves it
    alone and it is not missing. -/
def ProperTag (tag : TypeTag) : Prop := ∃ c, tag.toList.head? = some c ∧ isBlank c = false

instance (tag : TypeTag) : Decidable (ProperTag tag) :=
  match h : tag.toList.head? with
  | none => isFalse (by rintro ⟨c, hc, _⟩; simp [h] at hc)
  | some c => decidable_of_iff (isBlank c = false) (by simp [ProperTag, h])

theorem toList_text (e : Entity) : e.text.toList = e.typeTag.toList ++ ':' :: e.guid.hexChars := by
  simp [text, Guid.hex]

/-- The colon in front of an identifier is the last one. -/
theorem splitAtLastColon_append (tag : List Char) (g : Guid) :
    splitAtLastColon (tag ++ ':' :: g.hexChars) = some (tag, g.hexChars) := by
  have hdigit : ∀ c ∈ g.hexChars.reverse, decide (c ≠ ':') = true := by
    intro c hc
    obtain ⟨d, hd, rfl⟩ := Guid.exists_hexChar (List.mem_reverse.mp hc)
    exact decide_eq_true (Text.plain_hexChar hd).2.2.1
  have hreverse : (tag ++ ':' :: g.hexChars).reverse =
      g.hexChars.reverse ++ ':' :: tag.reverse := by simp
  unfold splitAtLastColon
  rw [hreverse, List.span_eq_takeWhile_dropWhile, List.takeWhile_append_of_pos hdigit,
    List.dropWhile_append_of_pos hdigit]
  simp

theorem eq_of_splitAtLastColon {cs tag rest : List Char}
    (h : splitAtLastColon cs = some (tag, rest)) : cs = tag ++ ':' :: rest := by
  unfold splitAtLastColon at h
  rw [List.span_eq_takeWhile_dropWhile] at h
  split at h
  · next after c before heq =>
    cases h
    obtain ⟨hafter, hbefore⟩ := Prod.mk.inj heq
    have hc : c = ':' := by
      have := List.head?_dropWhile_not (fun c : Char => decide (c ≠ ':')) cs.reverse
      rw [hbefore] at this
      simpa using this
    have hsplit : cs.reverse.takeWhile (fun c => decide (c ≠ ':')) ++
        cs.reverse.dropWhile (fun c => decide (c ≠ ':')) = cs.reverse :=
      List.takeWhile_append_dropWhile
    rw [hafter, hbefore, hc] at hsplit
    rw [← List.reverse_reverse cs, ← hsplit]
    simp
  · cases h

@[simp] theorem trimChars_text {e : Entity} (h : ProperTag e.typeTag) :
    trimChars e.text.toList = e.text.toList := by
  obtain ⟨c, hhead, hc⟩ := h
  rw [toList_text]
  refine Text.trimChars_eq_self ?_ ?_
  · intro d hd
    rw [List.head?_append, hhead] at hd
    cases hd
    exact hc
  · intro d hd
    have hne : e.guid.hexChars ≠ [] := List.ne_nil_of_length_eq_add_one e.guid.length_hexChars
    rw [List.getLast?_append, List.getLast?_cons_of_ne_nil hne] at hd
    have hd : e.guid.hexChars.getLast? = some d := by
      cases hlast : e.guid.hexChars.getLast? with
      | none => exact absurd (List.getLast?_eq_none_iff.mp hlast) hne
      | some x =>
        rw [hlast] at hd
        exact hd
    exact Guid.isBlank_hexChars (List.mem_of_getLast? hd)

/-- The name of an entity reads back from its text. -/
theorem read_text {e : Entity} (h : ProperTag e.typeTag) : read e.text.toList = .ok e := by
  have hne : e.typeTag.toList.isEmpty = false := by
    obtain ⟨c, hhead, _⟩ := h
    cases htag : e.typeTag.toList with
    | nil => simp [htag] at hhead
    | cons => rfl
  unfold read
  rw [trimChars_text h, toList_text, splitAtLastColon_append]
  simp [hne, Guid.read_hexChars]

/-- What is read names a proper type. -/
theorem properTag_of_read {cs : List Char} {e : Entity} (h : read cs = .ok e) :
    ProperTag e.typeTag := by
  unfold read at h
  split at h
  · next tag guid heq =>
    split at h
    · cases h
    · next hne =>
      split at h
      · cases h
        cases tag with
        | nil => exact absurd rfl hne
        | cons c r =>
          have hhead : (trimChars cs).head? = some c := by
            rw [eq_of_splitAtLastColon heq]
            rfl
          exact ⟨c, by simp, Text.head?_trimChars hhead⟩
      · cases h
  · cases h

end Entity

/-! ### Lists of identifiers -/

namespace ParamValue

open Text (isBlank trimChars)

theorem joinCommas_eq_intercalate (ls : List (List Char)) :
    joinCommas ls = [','].intercalate ls := by
  fun_induction joinCommas ls with
  | case1 => rfl
  | case2 cs => simp [List.intercalate]
  | case3 cs rest hne ih =>
    rw [ih]
    cases rest with
    | nil => exact absurd rfl hne
    | cons => simp [List.intercalate]

theorem mem_joinCommas {ls : List (List Char)} {c : Char} (h : c ∈ joinCommas ls) :
    c = ',' ∨ ∃ cs ∈ ls, c ∈ cs := by
  fun_induction joinCommas ls with
  | case1 => cases h
  | case2 cs => exact .inr ⟨cs, List.mem_singleton_self cs, h⟩
  | case3 cs rest _ ih =>
    rcases List.mem_append.mp h with h | h
    · exact .inr ⟨cs, List.mem_cons_self, h⟩
    · rcases List.mem_cons.mp h with h | h
      · exact .inl h
      · rcases ih h with h | ⟨ds, hds, hc⟩
        · exact .inl h
        · exact .inr ⟨ds, List.mem_cons_of_mem cs hds, hc⟩

theorem readAll_hexChars (gs : List Guid) : readAll (gs.map Guid.hexChars) = .ok gs := by
  induction gs with
  | nil => rfl
  | cons g gs ih => rw [List.map_cons, readAll, Guid.read_hexChars, ih]

/-- A list of identifiers reads back from its text. -/
theorem readCollection_joinCommas (gs : List Guid) :
    readCollection (joinCommas (gs.map Guid.hexChars)) = .ok gs := by
  cases gs with
  | nil => rfl
  | cons g rest =>
    have hblank : ∀ c ∈ joinCommas ((g :: rest).map Guid.hexChars), isBlank c = false := by
      intro c hc
      rcases mem_joinCommas hc with rfl | ⟨cs, hcs, hc⟩
      · rfl
      · obtain ⟨g', _, rfl⟩ := List.mem_map.mp hcs
        exact Guid.isBlank_hexChars hc
    have hne : joinCommas ((g :: rest).map Guid.hexChars) ≠ [] := by
      intro he
      have hdigits : g.hexChars ≠ [] := List.ne_nil_of_length_eq_add_one g.length_hexChars
      cases rest with
      | nil => exact hdigits he
      | cons => exact hdigits (List.append_eq_nil_iff.mp he).1
    have hcomma : ∀ cs ∈ (g :: rest).map Guid.hexChars, ',' ∉ cs := by
      intro cs hcs hmem
      obtain ⟨g', _, rfl⟩ := List.mem_map.mp hcs
      obtain ⟨d, hd, heq⟩ := Guid.exists_hexChar hmem
      exact (Text.plain_hexChar hd).2.1 heq.symm
    unfold readCollection
    rw [Text.trimChars_of_forall hblank]
    simp only [List.isEmpty_iff, hne, if_false]
    rw [joinCommas_eq_intercalate, List.splitOn_intercalate ',' hcomma (by simp),
      readAll_hexChars]

end ParamValue

end EntityBook
