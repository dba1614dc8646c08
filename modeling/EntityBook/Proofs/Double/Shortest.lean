import EntityBook.Double.Shortest
import EntityBook.Proofs.Double.Rounding

/-! # The shortest decimal lies in the interval of its double

  Whatever decimal the search settles on, its value is one of the fractions that
  round to the double. If a decimal is found because it was tested, the test says
  so. If none is found, seventeen digits are cut off, and the part that is cut
  off is smaller than the lower part of the interval.
-/

namespace EntityBook.Double

/-! ### Units of powers of ten -/

theorem pow_toNat_div {b : ℚ} (hb : b ≠ 0) (k : Int) : b ^ k.toNat / b ^ (-k).toNat = b ^ k := by
  rw [← zpow_natCast, ← zpow_natCast, ← zpow_sub₀ hb]
  congr 1
  omega

section Units

variable {a den c : Nat} (hd : 0 < den) (k : Int)

include hd

/-- An integer in units of `10 ^ k` and a fraction, over the same denominator. -/
theorem inUnits_le_iff :
    a * 10 ^ (-k).toNat ≤ c * (den * 10 ^ k.toNat) ↔ (a : ℚ) / den ≤ c * 10 ^ k := by
  have hdq : (0 : ℚ) < den := by exact_mod_cast hd
  have hdown : (0 : ℚ) < 10 ^ (-k).toNat := by positivity
  rw [← pow_toNat_div (by norm_num : (10 : ℚ) ≠ 0) k, mul_div_assoc',
    div_le_div_iff₀ hdq hdown, ← Nat.cast_le (α := ℚ)]
  push_cast
  rw [mul_assoc (c : ℚ), mul_comm (den : ℚ)]

theorem le_inUnits_iff :
    c * (den * 10 ^ k.toNat) ≤ a * 10 ^ (-k).toNat ↔ (c : ℚ) * 10 ^ k ≤ a / den := by
  have hdq : (0 : ℚ) < den := by exact_mod_cast hd
  have hdown : (0 : ℚ) < 10 ^ (-k).toNat := by positivity
  rw [← pow_toNat_div (by norm_num : (10 : ℚ) ≠ 0) k, mul_div_assoc',
    div_le_div_iff₀ hdown hdq, ← Nat.cast_le (α := ℚ)]
  push_cast
  rw [mul_assoc (c : ℚ), mul_comm (den : ℚ)]

theorem inUnits_lt_iff :
    a * 10 ^ (-k).toNat < c * (den * 10 ^ k.toNat) ↔ (a : ℚ) / den < c * 10 ^ k := by
  rw [← not_le, le_inUnits_iff hd, not_le]

theorem lt_inUnits_iff :
    c * (den * 10 ^ k.toNat) < a * 10 ^ (-k).toNat ↔ (c : ℚ) * 10 ^ k < a / den := by
  rw [← not_le, inUnits_le_iff hd, not_le]

end Units

/-! ### The interval -/

section Interval

variable {m : Nat} {e k : Int} {c : Nat}

theorem interval_den_pos : 0 < (interval m e).den := Nat.mul_pos (by omega) (Nat.pow_pos (by omega))

theorem interval_mid : ((interval m e).mid : ℚ) / (interval m e).den = m * 2 ^ e := by
  unfold interval
  dsimp only
  rw [← pow_toNat_div (by norm_num : (2 : ℚ) ≠ 0) e]
  simp only [Nat.pow_eq]
  push_cast
  field_simp

theorem interval_high : ((interval m e).high : ℚ) / (interval m e).den = (m + 1 / 2) * 2 ^ e := by
  unfold interval
  dsimp only
  rw [← pow_toNat_div (by norm_num : (2 : ℚ) ≠ 0) e]
  simp only [Nat.pow_eq]
  push_cast
  field_simp
  ring

theorem interval_low (hm : m ≠ 0) :
    ((interval m e).low : ℚ) / (interval m e).den = (m - lowGap m e) * 2 ^ e := by
  obtain ⟨gap, hgap, hle, hlow⟩ : ∃ gap : Nat, (gap : ℚ) = 4 * lowGap m e ∧ gap ≤ 4 * m ∧
      (interval m e).low = (4 * m - gap) * 2 ^ e.toNat := by
    refine ⟨if m = Nat.pow 2 52 && -1074 < e then 1 else 2, ?_, ?_, rfl⟩
    · simp only [lowGap, Nat.pow_eq, Bool.and_eq_true, decide_eq_true_eq]
      split <;> norm_num
    · split <;> omega
  rw [hlow, ← pow_toNat_div (by norm_num : (2 : ℚ) ≠ 0) e]
  unfold interval
  simp only [Nat.pow_eq]
  push_cast [Nat.cast_sub hle]
  rw [hgap]
  field_simp

/-- A decimal that is tested successfully rounds to the double. -/
theorem near_of_contains (hm : m ≠ 0) (h : ((interval m e).inUnits k).contains c = true) :
    Near m e (c * 10 ^ k) := by
  have hden := interval_den_pos (m := m) (e := e)
  have hclosed : (interval m e).closed = decide (m % 2 = 0) := rfl
  unfold Interval.contains Interval.inUnits at h
  simp only [Nat.pow_eq, hclosed, decide_eq_true_eq] at h
  by_cases heven : m % 2 = 0
  · rw [if_pos heven, Bool.and_eq_true, decide_eq_true_eq, decide_eq_true_eq,
      inUnits_le_iff hden, le_inUnits_iff hden, interval_low hm, interval_high] at h
    exact ⟨h.1, h.2, fun hodd => by omega⟩
  · rw [if_neg heven, Bool.and_eq_true, decide_eq_true_eq, decide_eq_true_eq,
      inUnits_lt_iff hden, lt_inUnits_iff hden, interval_low hm, interval_high] at h
    exact ⟨h.1.le, h.2.le, fun _ => h⟩

theorem contains_of_nearest? {i : Interval} {tie : Tie} (h : i.nearest? tie = some c) :
    i.contains c = true := by
  unfold Interval.nearest? at h
  dsimp only at h
  split at h
  · cases h
  · next hc _ =>
    cases h
    exact hc
  · next _ hc =>
    cases h
    exact hc
  · next hc hc' =>
    -- Both neighbours read back; the answer is one of them.
    have hone : c = i.mid / i.den ∨ c = i.mid / i.den + 1 := by
      cases tie
      · grind
      · grind
    rcases hone with rfl | rfl
    · exact hc
    · exact hc'

end Interval

/-! ### The search -/

namespace Decimal

/-- The fraction that a decimal stands for. -/
def value (d : Decimal) : ℚ := d.coefficient * 10 ^ d.exponent

theorem value_strip (c : Nat) (k : Int) : (strip c k).value = c * 10 ^ k := by
  fun_induction strip c k with
  | case1 c k h ih =>
    have hc : c = c / 10 * 10 := by omega
    rw [ih, zpow_add₀ (by norm_num), zpow_one]
    nth_rewrite 2 [hc]
    push_cast
    ring
  | case2 c k h => rfl

end Decimal

section Search

variable {m : Nat} {e : Int} {tie : Tie}

/-- Cutting digits off is harmless once a unit is a quarter of the last bit. -/
theorem near_floor {k : Int} (hk : (10 : ℚ) ^ k ≤ 2 ^ e / 4) :
    Near m e
      ((((interval m e).inUnits k).mid / ((interval m e).inUnits k).den : Nat) * 10 ^ k) := by
  have hden := interval_den_pos (m := m) (e := e)
  set c := ((interval m e).inUnits k).mid / ((interval m e).inUnits k).den with hc
  have hunits : 0 < (interval m e).den * 10 ^ k.toNat := Nat.mul_pos hden (by positivity)
  have hbelow : (c : ℚ) * 10 ^ k ≤ m * 2 ^ e := by
    rw [← interval_mid, ← le_inUnits_iff hden]
    exact Nat.div_mul_le_self _ _
  have habove : (m : ℚ) * 2 ^ e < c * 10 ^ k + 10 ^ k := by
    have hnext : (m : ℚ) * 2 ^ e < (c + 1 : Nat) * 10 ^ k := by
      rw [← interval_mid, ← inUnits_lt_iff hden]
      exact Nat.lt_mul_of_div_lt (Nat.lt_succ_self c) hunits
    push_cast at hnext
    linarith
  have hpow : (0 : ℚ) < 2 ^ e := by positivity
  have hgap : 1 / 4 * (2 : ℚ) ^ e ≤ lowGap m e * 2 ^ e := by
    exact mul_le_mul_of_nonneg_right (le_lowGap m e) hpow.le
  have hlow : (m - lowGap m e) * 2 ^ e < (c : ℚ) * 10 ^ k := by linarith
  have hhigh : (c : ℚ) * 10 ^ k < (m + 1 / 2) * 2 ^ e := by linarith
  exact ⟨hlow.le, hhigh.le, fun _ => ⟨hlow, hhigh⟩⟩

/-- Whatever the search finds rounds to the double. -/
theorem near_searchDigits (hm : m ≠ 0) {fuel : Nat} {k : Int}
    (hk : (10 : ℚ) ^ (k - fuel) ≤ 2 ^ e / 4) :
    Near m e (searchDigits tie (interval m e) fuel k).value := by
  induction fuel generalizing k with
  | zero =>
    rw [searchDigits, Decimal.value_strip]
    exact near_floor (by simpa using hk)
  | succ fuel ih =>
    rw [searchDigits]
    cases hc : ((interval m e).inUnits k).nearest? tie with
    | some c =>
      dsimp only
      rw [Decimal.value_strip]
      exact near_of_contains hm (contains_of_nearest? hc)
    | none =>
      refine ih ?_
      have hstep : k - 1 - (fuel : Int) = k - (fuel + 1 : Nat) := by
        push_cast
        ring
      rwa [hstep]

end Search

/-! ### The decimal point -/

/-- Among the exponents of finite doubles, the approximate decimal logarithm gives
    a power of ten that is not above the power of two. -/
theorem ten_zpow_le_two_zpow {b : Int} (hlow : -1074 ≤ b) (hhigh : b ≤ 1023) :
    (10 : ℚ) ^ (b * 30103).fdiv 100000 ≤ 2 ^ b := by
  rw [Int.fdiv_eq_ediv_of_nonneg _ (by omega)]
  rcases Int.le_total 0 b with h | h
  · obtain ⟨n, rfl⟩ := Int.eq_ofNat_of_zero_le h
    have all : ∀ n < 1024, 10 ^ (n * 30103 / 100000) ≤ 2 ^ n := by decide +kernel
    have hn : ((10 ^ (n * 30103 / 100000) : Nat) : ℚ) ≤ (2 ^ n : Nat) :=
      Nat.cast_le.mpr (all n (by omega))
    have hfloor : (n * 30103 : Int) / 100000 = (n * 30103 / 100000 : Nat) := by omega
    rw [hfloor, zpow_natCast, zpow_natCast]
    exact_mod_cast hn
  · obtain ⟨n, rfl⟩ : ∃ n : Nat, b = -(n : Int) := ⟨(-b).toNat, by omega⟩
    have all : ∀ n < 1075, 2 ^ n ≤ 10 ^ ((n * 30103 + 99999) / 100000) := by decide +kernel
    have hn : ((2 ^ n : Nat) : ℚ) ≤ (10 ^ ((n * 30103 + 99999) / 100000) : Nat) :=
      Nat.cast_le.mpr (all n (by omega))
    have hfloor : -(n : Int) * 30103 / 100000 = -((n * 30103 + 99999) / 100000 : Nat) := by omega
    rw [hfloor, zpow_neg, zpow_neg, zpow_natCast, zpow_natCast]
    refine inv_anti₀ (by positivity) ?_
    exact_mod_cast hn

section DecimalPoint

variable {m : Nat} {e : Int}

theorem ten_zpow_decimalPoint_le (hm : m ≠ 0) (hmant : m < 2 ^ 53) (hlow : -1074 ≤ e)
    (hhigh : e ≤ 971) : (10 : ℚ) ^ (decimalPoint m e - 1) ≤ m * 2 ^ e := by
  have hden := interval_den_pos (m := m) (e := e)
  set k : Int := (((m.log2 : Int) + e) * 30103).fdiv 100000 with hk
  have hpoint : decimalPoint m e =
      if ((interval m e).inUnits (k + 1)).den ≤ ((interval m e).inUnits (k + 1)).mid then k + 2
      else k + 1 := rfl
  rw [hpoint]
  split
  · next h =>
    -- The larger of the two candidates was compared with the value.
    have hunit : ((1 : Nat) : ℚ) * 10 ^ (k + 1) ≤ (interval m e).mid / (interval m e).den := by
      rw [← le_inUnits_iff hden, one_mul]
      exact h
    rw [interval_mid, Nat.cast_one, one_mul] at hunit
    rwa [show k + 2 - 1 = k + 1 by ring]
  · have hlog : m.log2 < 53 := (Nat.log2_lt hm).mpr hmant
    have hself : ((2 ^ m.log2 : Nat) : ℚ) ≤ m := Nat.cast_le.mpr (Nat.log2_self_le hm)
    calc (10 : ℚ) ^ (k + 1 - 1) = 10 ^ k := by rw [add_sub_cancel_right]
      _ ≤ 2 ^ ((m.log2 : Int) + e) := ten_zpow_le_two_zpow (by omega) (by omega)
      _ = 2 ^ m.log2 * 2 ^ e := by rw [zpow_add₀ (by norm_num), zpow_natCast]
      _ ≤ m * 2 ^ e := by
          refine mul_le_mul_of_nonneg_right ?_ (by positivity)
          exact_mod_cast hself

end DecimalPoint

/-! ### Finite doubles -/

theorem exponent_le {x : Double} (h : x.isFinite = true) : x.exponent ≤ 971 := by
  have hmagnitude : x.magnitude < 0x7FF0000000000000 := of_decide_eq_true h
  unfold exponent
  simp only [Nat.pow_eq, Nat.reducePow]
  split <;> omega

theorem mantissa_ne_zero {x : Double} (h : x.isZero = false) : x.mantissa ≠ 0 := by
  simp only [isZero, beq_eq_false_iff_ne] at h
  unfold mantissa
  simp only [Nat.pow_eq, Nat.reducePow]
  split <;> omega

/-- The shortest decimal of a finite double rounds to it. -/
theorem near_shortest {x : Double} (hfinite : x.isFinite = true) (hx : x.isZero = false)
    (tie : Tie) : Near x.mantissa x.exponent (x.shortest tie).value := by
  have hm := mantissa_ne_zero hx
  refine near_searchDigits hm ?_
  -- Seventeen digits down from the first one, a unit is small enough.
  have hpoint := ten_zpow_decimalPoint_le hm x.mantissa_lt x.exponent_ge (exponent_le hfinite)
  have hmant : (x.mantissa : ℚ) ≤ 2 ^ 53 := by exact_mod_cast x.mantissa_lt.le
  have hpow : (0 : ℚ) < 2 ^ x.exponent := by positivity
  calc (10 : ℚ) ^ (decimalPoint x.mantissa x.exponent - 1 - (17 : Nat))
      = 10 ^ (decimalPoint x.mantissa x.exponent - 1) / 10 ^ 17 := by
        rw [zpow_sub₀ (by norm_num), zpow_natCast]
    _ ≤ 2 ^ 53 * 2 ^ x.exponent / 10 ^ 17 := by
        gcongr
        exact le_trans hpoint (mul_le_mul_of_nonneg_right hmant hpow.le)
    _ ≤ 2 ^ x.exponent / 4 := by linarith

end EntityBook.Double
