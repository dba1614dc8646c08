import EntityBook.Double.Text
import EntityBook.Proofs.Double.Shortest
import EntityBook.Proofs.Json.Numeral

/-! # Doubles read back from their texts

  The plain text of a double consists of digits with at most one point among
  them, and stands for the value of the shortest decimal. Reading rounds that
  value, which gives the double again. This holds of every double that is a
  number; of the others only the one that readers answer has a text of its own.
-/

namespace EntityBook

open Text (isDigit natDigits digitsValue)
open Json.Numeral (takeWhile_digits dropWhile_digits)

/-! ### Rows of digits -/

namespace Text

theorem digitsValue_append (xs ys : List Char) :
    digitsValue (xs ++ ys) = digitsValue xs * 10 ^ ys.length + digitsValue ys := by
  induction ys using List.reverseRecOn with
  | nil => simp [digitsValue]
  | append_singleton ys c ih =>
    have hlast (zs : List Char) : digitsValue (zs ++ [c]) = digitsValue zs * 10 + digitValue c := by
      simp [digitsValue]
    rw [← List.append_assoc, hlast, hlast, ih, List.length_append, List.length_singleton, pow_succ]
    ring

@[simp] theorem digitsValue_zeros (n : Nat) : digitsValue (List.replicate n '0') = 0 := by
  induction n with
  | zero => rfl
  | succ n ih =>
    have hzero : digitsValue ['0'] = 0 := rfl
    rw [List.replicate_succ', digitsValue_append, ih, hzero, Nat.zero_mul]

theorem exists_digitChar {c : Char} (h : isDigit c = true) : ∃ d, d < 10 ∧ c = digitChar d := by
  simp only [isDigit, Bool.and_eq_true, decide_eq_true_eq] at h
  refine ⟨c.toNat - 48, by omega, ?_⟩
  unfold digitChar
  rw [Nat.add_sub_cancel' h.1, Char.ofNat_toNat]

/-- A digit has no case, is not a sign and begins no name of a value. -/
theorem plain_digitChar {d : Nat} (h : d < 10) :
    (digitChar d).toLower = digitChar d ∧ digitChar d ≠ 'i' ∧ digitChar d ≠ 'n' ∧
      digitChar d ≠ '-' ∧ digitChar d ≠ '+' := by
  have all : ∀ d, d < 10 → (digitChar d).toLower = digitChar d ∧ digitChar d ≠ 'i' ∧
      digitChar d ≠ 'n' ∧ digitChar d ≠ '-' ∧ digitChar d ≠ '+' := by decide
  exact all d h

end Text

namespace Double

/-! ### Writing -/

/-- A text of digits, with a point and further digits if there are any. -/
structure Plain (whole fraction : List Char) : Prop where
  /-- There is a digit before the point. -/
  whole_ne : whole ≠ []
  /-- Before the point there are only digits. -/
  whole : ∀ c ∈ whole, isDigit c = true
  /-- After the point there are only digits. -/
  fraction : ∀ c ∈ fraction, isDigit c = true

/-- The text with the given digits before and after the point. -/
def plainChars (whole fraction : List Char) : List Char :=
  whole ++ if fraction = [] then [] else '.' :: fraction

theorem isDigit_natDigits {n : Nat} {c : Char} (h : c ∈ natDigits n) : isDigit c = true :=
  List.all_eq_true.mp (Text.all_isDigit_natDigits n) c h

theorem mem_zeros {n : Nat} {c : Char} (h : c ∈ List.replicate n '0') : isDigit c = true := by
  rw [(List.mem_replicate.mp h).2]
  rfl

/-- Positional notation has a point or none, and stands for the decimal. -/
theorem exists_plain (d : Decimal) : ∃ whole fraction, Plain whole fraction ∧
    positional [] d = plainChars whole fraction ∧
    (digitsValue (whole ++ fraction) : ℚ) * 10 ^ (-(fraction.length : Int)) = d.value := by
  have hdigits : ∀ c ∈ d.digits, isDigit c = true := fun _ => isDigit_natDigits
  have hne : d.digits ≠ [] := Text.natDigits_ne_nil _
  have hvalue : digitsValue d.digits = d.coefficient := Text.digitsValue_natDigits _
  unfold positional Decimal.value
  by_cases hexp : 0 ≤ d.exponent
  · -- A whole number: zeros behind the digits.
    obtain ⟨n, hn⟩ := Int.eq_ofNat_of_zero_le hexp
    refine ⟨d.digits ++ List.replicate n '0', [], ⟨by simp [hne], ?_, by simp⟩, ?_, ?_⟩
    · intro c hc
      exact (List.mem_append.mp hc).elim (hdigits c) mem_zeros
    · simp [hn, plainChars]
    · rw [List.append_nil, Text.digitsValue_append, hvalue, Text.digitsValue_zeros, hn]
      simp
  · obtain ⟨places, hplaces⟩ : ∃ n : Nat, d.exponent = -(n : Int) := ⟨(-d.exponent).toNat, by omega⟩
    rw [if_neg hexp, hplaces, neg_neg, Int.toNat_natCast]
    dsimp only
    by_cases hcut : places < d.digits.length
    · -- The point cuts the digits.
      refine ⟨d.digits.take (d.digits.length - places), d.digits.drop (d.digits.length - places),
        ⟨?_, ?_, ?_⟩, ?_, ?_⟩
      · simp [hne]
        omega
      · intro c hc
        exact hdigits c (List.mem_of_mem_take hc)
      · intro c hc
        exact hdigits c (List.mem_of_mem_drop hc)
      · have hrest : d.digits.drop (d.digits.length - places) ≠ [] := by
          simp
          omega
        simp [hcut, plainChars, hrest]
      · have hlength : (d.digits.drop (d.digits.length - places)).length = places := by
          rw [List.length_drop]
          omega
        rw [List.take_append_drop, hvalue, hlength]
    · -- Zeros between the point and the digits.
      refine ⟨['0'], List.replicate (places - d.digits.length) '0' ++ d.digits,
        ⟨by simp, by simp [isDigit], ?_⟩, ?_, ?_⟩
      · intro c hc
        exact (List.mem_append.mp hc).elim mem_zeros (hdigits c)
      · simp [hcut, plainChars, hne]
      · have hlength : (List.replicate (places - d.digits.length) '0' ++ d.digits).length =
            places := by
          rw [List.length_append, List.length_replicate]
          omega
        have hfront : digitsValue (['0'] ++ List.replicate (places - d.digits.length) '0') = 0 :=
          Text.digitsValue_zeros (places - d.digits.length + 1)
        rw [hlength, ← List.append_assoc, Text.digitsValue_append, hfront, hvalue, Nat.zero_mul,
          Nat.zero_add]

/-! ### Reading digits -/

section Plain

variable {whole fraction : List Char} (h : Plain whole fraction) (negative : Bool)

include h

theorem readMagnitude_plainChars : readMagnitude negative (plainChars whole fraction) =
    some (ofDecimal negative (digitsValue (whole ++ fraction)) (-(fraction.length : Int))) := by
  have hend : Json.Numeral.NoDigit (if fraction = [] then [] else '.' :: fraction) := by
    intro c r hc
    by_cases hf : fraction = []
    · simp [hf] at hc
    · rw [if_neg hf] at hc
      cases hc
      rfl
  have hspan : spanDigits (plainChars whole fraction) =
      (whole, if fraction = [] then [] else '.' :: fraction) := by
    unfold spanDigits plainChars
    rw [takeWhile_digits h.whole hend, dropWhile_digits h.whole hend]
  unfold readMagnitude
  rw [hspan]
  by_cases hf : fraction = []
  · simp [hf, h.whole_ne]
  · have hfraction : spanDigits fraction = (fraction, []) := by
      have hnil : Json.Numeral.NoDigit [] := Json.Numeral.ends_nil.noDigit
      have htake := takeWhile_digits h.fraction hnil
      have hdrop := dropWhile_digits h.fraction hnil
      rw [List.append_nil] at htake hdrop
      unfold spanDigits
      rw [htake, hdrop]
    simp [hf, hfraction, h.whole_ne]

theorem Plain.mem_plainChars {c : Char} (hc : c ∈ plainChars whole fraction) :
    c = '.' ∨ isDigit c = true := by
  unfold plainChars at hc
  rcases List.mem_append.mp hc with hc | hc
  · exact .inr (h.whole c hc)
  · by_cases hf : fraction = []
    · simp [hf] at hc
    · rw [if_neg hf] at hc
      exact (List.mem_cons.mp hc).imp_right (h.fraction c)

theorem exists_plainChars_cons : ∃ c r, plainChars whole fraction = c :: r ∧ isDigit c = true := by
  cases hw : whole with
  | nil => exact absurd hw h.whole_ne
  | cons c r => exact ⟨c, _, rfl, h.whole c (by rw [hw]; exact List.mem_cons_self)⟩

theorem readUnsigned_plainChars : readUnsigned negative (plainChars whole fraction) =
    some (ofDecimal negative (digitsValue (whole ++ fraction)) (-(fraction.length : Int))) := by
  obtain ⟨c, r, hcons, hc⟩ := exists_plainChars_cons h
  obtain ⟨d, hd, rfl⟩ := Text.exists_digitChar hc
  obtain ⟨hlower, hi, hn, _⟩ := Text.plain_digitChar hd
  -- No name of a value begins with a digit.
  have hname : readName negative (plainChars whole fraction) = none := by
    unfold readName
    rw [hcons, List.map_cons, hlower]
    simp [hi, hn]
  unfold readUnsigned
  rw [hname]
  exact readMagnitude_plainChars h negative

end Plain

/-! ### Rounding decimals -/

/-- A decimal in the interval of a double is not so small that it is answered
    without computing the power. -/
theorem Near.log2_ge {x : Double} (hx : x.isZero = false) {c n : Nat}
    (h : Near x.mantissa x.exponent (c * 10 ^ (-(n : Int)))) :
    -decimalRange ≤ (c.log2 : Int) + 1 + -(n : Int) := by
  by_contra hsmall
  have hc : (c : ℚ) < 10 ^ (c.log2 + 1) := by
    have hlt : c < 10 ^ (c.log2 + 1) :=
      lt_of_lt_of_le Nat.lt_log2_self (Nat.pow_le_pow_left (by omega) _)
    exact_mod_cast hlt
  have hless : (c : ℚ) * 10 ^ (-(n : Int)) < 2 ^ (-1075 : Int) := by
    calc (c : ℚ) * 10 ^ (-(n : Int)) < 10 ^ (c.log2 + 1) * 10 ^ (-(n : Int)) := by gcongr
      _ = 10 ^ (((c.log2 + 1 : Nat) : Int) + -(n : Int)) := by
          rw [zpow_add₀ (by norm_num), zpow_natCast]
      _ ≤ 10 ^ (-401 : Int) := by
          refine zpow_le_zpow_right₀ (by norm_num) ?_
          unfold decimalRange at hsmall
          push_cast
          omega
      _ ≤ 2 ^ (-1075 : Int) := by
          have hpow : ((2 ^ 1075 : Nat) : ℚ) ≤ (10 ^ 401 : Nat) :=
            Nat.cast_le.mpr (by decide +kernel)
          rw [Nat.cast_pow, Nat.cast_pow, Nat.cast_ofNat, Nat.cast_ofNat] at hpow
          exact inv_anti₀ (by positivity) hpow
  exact absurd (h.ge (mantissa_ne_zero hx)) (not_le.mpr hless)

/-- A decimal in the interval of a finite double is read as that double. -/
theorem ofDecimal_eq {x : Double} (hfinite : x.isFinite = true) (hx : x.isZero = false) {c : Nat}
    {k : Int} (hk : k ≤ 0) (h : Near x.mantissa x.exponent (c * 10 ^ k)) (negative : Bool) :
    ofDecimal negative c k = ofMagnitude negative x.magnitude := by
  have hm := mantissa_ne_zero hx
  have hpos := h.pos hm
  have hc : c ≠ 0 := by
    rintro rfl
    simp at hpos
  have hrange : ¬ decimalRange < k := by
    unfold decimalRange
    omega
  unfold ofDecimal
  rw [if_neg hc, if_neg hrange]
  by_cases hneg : k < 0
  · obtain ⟨n, rfl⟩ : ∃ n : Nat, k = -(n : Int) := ⟨(-k).toNat, by omega⟩
    rw [if_pos hneg, if_neg (not_lt.mpr (h.log2_ge hx)), neg_neg, Int.toNat_natCast]
    refine ofRatio_eq hfinite hm (Nat.pow_pos (by omega)) ?_ negative
    rw [zpow_neg, zpow_natCast, ← div_eq_mul_inv] at h
    simpa using h
  · obtain rfl : k = 0 := by omega
    rw [if_neg hneg]
    refine ofRatio_eq hfinite hm Nat.one_pos ?_ negative
    simpa using h

/-! ### All doubles -/

theorem readUnsigned_inf (negative : Bool) :
    readUnsigned negative "inf".toList = some (infinity negative) := by
  cases negative <;> decide +kernel

/-- A sign is read off in front of anything that is not a sign itself. -/
theorem read_signChars {x : Double} {cs r : List Char} {c : Char} (hcs : cs = c :: r)
    (hminus : c ≠ '-') (hplus : c ≠ '+') :
    read (x.signChars ++ cs) = readUnsigned x.isNegative cs := by
  subst hcs
  unfold signChars
  cases x.isNegative with
  | true => rfl
  | false =>
    unfold read
    split
    · next heq => simp at heq; exact absurd heq.1 hminus
    · next heq => simp at heq; exact absurd heq.1 hplus
    · rfl

/-- Every double that is a number reads back from its plain text. -/
theorem read_chars {x : Double} (h : x.isNaN = false) : read x.chars = some x := by
  unfold chars
  rw [if_neg (by simp [h])]
  cases hinf : x.isInfinite with
  | true =>
    have hmagnitude : x.magnitude = infinityMagnitude := by simpa [isInfinite] using hinf
    have hname : "inf".toList = 'i' :: ['n', 'f'] := rfl
    rw [if_pos rfl, read_signChars hname (by decide) (by decide), readUnsigned_inf, infinity,
      ← hmagnitude, ofMagnitude_self]
  | false =>
    rw [if_neg (by decide)]
    cases hzero : x.isZero with
    | true =>
      have hmagnitude : x.magnitude = 0 := by simpa [isZero] using hzero
      have hplain : Plain ['0'] [] := ⟨by simp, by simp [isDigit], by simp⟩
      have hread : readUnsigned x.isNegative ['0'] = some (ofMagnitude x.isNegative 0) :=
        readUnsigned_plainChars hplain x.isNegative
      rw [if_pos rfl, read_signChars rfl (by decide) (by decide), hread, ← hmagnitude,
        ofMagnitude_self]
    | false =>
      have hfinite : x.isFinite = true := by
        simp only [isNaN, isInfinite, isFinite, decide_eq_false_iff_not, decide_eq_true_eq,
          beq_eq_false_iff_ne] at h hinf ⊢
        omega
      rw [if_neg (by decide)]
      obtain ⟨whole, fraction, hplain, hchars, hvalue⟩ := exists_plain (x.shortest .up)
      obtain ⟨c, r, hcons, hc⟩ := exists_plainChars_cons hplain
      obtain ⟨d, hd, rfl⟩ := Text.exists_digitChar hc
      obtain ⟨_, _, _, hminus, hplus⟩ := Text.plain_digitChar hd
      have hnear := near_shortest hfinite hzero .up
      rw [← hvalue] at hnear
      rw [hchars, read_signChars hcons hminus hplus, readUnsigned_plainChars hplain,
        ofDecimal_eq hfinite hzero (by omega) hnear, ofMagnitude_self]

/-! ### Doubles that are no numbers -/

theorem isNaN_ofMagnitude {negative : Bool} {n : Nat} (h : n ≤ infinityMagnitude) :
    (ofMagnitude negative n).isNaN = false := by
  have hlt : n < 2 ^ 63 := by
    unfold infinityMagnitude at h
    omega
  unfold isNaN
  rw [magnitude_ofMagnitude hlt]
  exact decide_eq_false (Nat.not_lt.mpr h)

theorem isNaN_infinity (negative : Bool) : (infinity negative).isNaN = false :=
  isNaN_ofMagnitude (Nat.le_refl _)

theorem isNaN_ofRatio (negative : Bool) (num den : Nat) :
    (ofRatio negative num den).isNaN = false := by
  unfold ofRatio
  split
  · exact isNaN_ofMagnitude (by decide)
  · exact isNaN_ofMagnitude (Nat.min_le_right _ _)

theorem isNaN_ofDecimal (negative : Bool) (c : Nat) (k : Int) :
    (ofDecimal negative c k).isNaN = false := by
  unfold ofDecimal
  split_ifs
  · exact isNaN_ofMagnitude (by decide)
  · exact isNaN_ofMagnitude (by decide)
  · exact isNaN_ofMagnitude (by decide)
  · exact isNaN_ofRatio _ _ _
  · exact isNaN_ofRatio _ _ _

theorem isNaN_of_readMagnitude {negative : Bool} {cs : List Char} {x : Double}
    (h : readMagnitude negative cs = some x) : x.isNaN = false := by
  unfold readMagnitude at h
  dsimp only at h
  -- With a point or without, a numeral is read as a decimal.
  split at h
  all_goals
    split at h
    · cases h
    · split at h
      · cases h
        exact isNaN_ofDecimal _ _ _
      · split at h
        · obtain ⟨e, _, rfl⟩ := Option.map_eq_some_iff.mp h
          exact isNaN_ofDecimal _ _ _
        · cases h

/-- Readers answer a single NaN. -/
theorem eq_nan_of_readUnsigned {negative : Bool} {cs : List Char} {x : Double}
    (h : readUnsigned negative cs = some x) (hx : x.isNaN = true) : x = nan := by
  unfold readUnsigned at h
  split at h
  · next y hname =>
    cases h
    unfold readName at hname
    dsimp only at hname
    split at hname
    · rw [← Option.some.inj hname, isNaN_infinity] at hx
      cases hx
    · split at hname
      · exact (Option.some.inj hname).symm
      · cases hname
  · rw [isNaN_of_readMagnitude h] at hx
    cases hx

theorem eq_nan_of_read {cs : List Char} {x : Double} (h : read cs = some x)
    (hx : x.isNaN = true) : x = nan := by
  unfold read at h
  split at h
  all_goals exact eq_nan_of_readUnsigned h hx

/-- A double reads back from its plain text unless it is a NaN that readers never
    answer. -/
theorem read_chars_iff {x : Double} : read x.chars = some x ↔ (x.isNaN = true → x = nan) := by
  constructor
  · exact eq_nan_of_read
  · intro h
    cases hx : x.isNaN with
    | false => exact read_chars hx
    | true =>
      rw [h hx]
      decide +kernel

end Double

end EntityBook
