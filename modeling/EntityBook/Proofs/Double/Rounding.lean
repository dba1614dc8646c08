import EntityBook.Double.Round
import Mathlib.Algebra.Order.Field.Power
import Mathlib.Algebra.Order.Field.Rat
import Mathlib.Tactic.FieldSimp
import Mathlib.Tactic.Linarith
import Mathlib.Tactic.Positivity
import Mathlib.Tactic.Ring

/-! # Fractions that round to a double

  The fractions nearer to a finite double than to any other one form an
  interval around its value, with the ends if the mantissa is even. `ofRatio`
  takes every fraction of the interval to that double.

  Below a power of two the doubles lie twice as close. A fraction there has the
  smaller exponent, and rounds up to a mantissa of 53 bits and a carry.
-/

namespace EntityBook.Double

/-! ### Fields -/

theorem magnitude_lt (x : Double) : x.magnitude < 2 ^ 63 := Nat.mod_lt _ (by decide)

theorem ofMagnitude_toNat {negative : Bool} {n : Nat} (h : n < 2 ^ 63) :
    (ofMagnitude negative n).bits.toNat = (if negative then 2 ^ 63 else 0) + n := by
  unfold ofMagnitude
  rw [BitVec.toNat_ofNat]
  refine Nat.mod_eq_of_lt ?_
  cases negative <;> simp <;> omega

@[simp] theorem magnitude_ofMagnitude {negative : Bool} {n : Nat} (h : n < 2 ^ 63) :
    (ofMagnitude negative n).magnitude = n := by
  unfold magnitude
  rw [ofMagnitude_toNat h]
  cases negative <;> simp <;> omega

/-- A double is its sign and its magnitude. -/
theorem ofMagnitude_self (x : Double) : ofMagnitude x.isNegative x.magnitude = x := by
  have hlt := x.magnitude_lt
  have hbits : (ofMagnitude x.isNegative x.magnitude).bits.toNat = x.bits.toNat := by
    rw [ofMagnitude_toNat hlt]
    have hbound := x.bits.isLt
    unfold isNegative magnitude
    rw [BitVec.msb_eq_decide]
    simp only [decide_eq_true_eq, Nat.pow_eq, Nat.reducePow, Nat.add_one_sub_one]
    split <;> omega
  obtain ⟨bits⟩ := x
  exact congrArg Double.mk (BitVec.eq_of_toNat_eq hbits)

theorem mantissa_lt (x : Double) : x.mantissa < 2 ^ 53 := by
  unfold mantissa
  simp only [Nat.pow_eq, Nat.reducePow]
  split <;> omega

theorem exponent_ge (x : Double) : -1074 ≤ x.exponent := by
  unfold exponent
  simp only [Nat.pow_eq, Nat.reducePow]
  split <;> omega

/-- Above the smallest exponent the leading bit of the mantissa is set. -/
theorem mantissa_ge {x : Double} (h : -1074 < x.exponent) : 2 ^ 52 ≤ x.mantissa := by
  unfold exponent at h
  unfold mantissa
  split at h
  · omega
  · next hn =>
    rw [if_neg hn]
    simp

/-- Counting all doubles of one sign upwards: each exponent has `2 ^ 52` of them. -/
theorem magnitude_eq (x : Double) :
    x.magnitude = (x.exponent + 1074).toNat * 2 ^ 52 + x.mantissa := by
  unfold exponent mantissa
  simp only [Nat.pow_eq, Nat.reducePow]
  split <;> omega

/-! ### Scaling and rounding of fractions -/

theorem two_zpow_add (e : Int) (k : Nat) : (2 : ℚ) ^ (e + k) = 2 ^ k * 2 ^ e := by
  rw [zpow_add₀ (by norm_num), zpow_natCast, mul_comm]

theorem scaleByTwo_den_pos {den : Nat} (hd : 0 < den) (num : Nat) (e : Int) :
    0 < (scaleByTwo num den e).2 := by
  unfold scaleByTwo
  split
  · exact hd
  · exact Nat.mul_pos hd (Nat.pow_pos (by omega))

theorem scaleByTwo_eq (num den : Nat) (e : Int) :
    ((scaleByTwo num den e).1 : ℚ) / (scaleByTwo num den e).2 = num / den * 2 ^ e := by
  unfold scaleByTwo
  by_cases h : 0 ≤ e
  · obtain ⟨n, rfl⟩ := Int.eq_ofNat_of_zero_le h
    simp
    ring
  · obtain ⟨n, rfl⟩ : ∃ n : Nat, e = -(n : Int) := ⟨(-e).toNat, by omega⟩
    rw [if_neg h]
    simp
    field_simp

/-- The logarithms of the two parts of a fraction leave two powers of two to choose
    from. -/
theorem log2_sub_bounds {num den : Nat} (hn : 0 < num) (hd : 0 < den) :
    (2 : ℚ) ^ ((num.log2 : Int) - den.log2 - 1) ≤ num / den ∧
      (num : ℚ) / den < 2 ^ ((num.log2 : Int) - den.log2 + 1) := by
  have hdq : (0 : ℚ) < den := by exact_mod_cast hd
  have hnum : (2 : ℚ) ^ num.log2 ≤ num := by exact_mod_cast Nat.log2_self_le (by omega)
  have hnum' : (num : ℚ) < 2 ^ (num.log2 + 1) := by exact_mod_cast Nat.lt_log2_self
  have hden : (2 : ℚ) ^ den.log2 ≤ den := by exact_mod_cast Nat.log2_self_le (by omega)
  have hden' : (den : ℚ) ≤ 2 ^ (den.log2 + 1) := by exact_mod_cast Nat.lt_log2_self.le
  have hpow (a b c : Int) (h : a + b = c) : (2 : ℚ) ^ a * 2 ^ b = 2 ^ c := by
    rw [← zpow_add₀ (by norm_num), h]
  simp only [← zpow_natCast] at hnum hnum' hden hden'
  push_cast at hnum' hden'
  constructor
  · rw [le_div_iff₀ hdq]
    calc (2 : ℚ) ^ ((num.log2 : Int) - den.log2 - 1) * den
        ≤ 2 ^ ((num.log2 : Int) - den.log2 - 1) * 2 ^ ((den.log2 : Int) + 1) := by gcongr
      _ = 2 ^ (num.log2 : Int) := hpow _ _ _ (by ring)
      _ ≤ num := hnum
  · rw [div_lt_iff₀ hdq]
    calc (num : ℚ) < 2 ^ ((num.log2 : Int) + 1) := hnum'
      _ = 2 ^ ((num.log2 : Int) - den.log2 + 1) * 2 ^ (den.log2 : Int) :=
          (hpow _ _ _ (by ring)).symm
      _ ≤ 2 ^ ((num.log2 : Int) - den.log2 + 1) * den := by gcongr

/-- The binary logarithm is the exponent of the power of two below a fraction. -/
theorem log2Ratio_bounds {num den : Nat} (hn : 0 < num) (hd : 0 < den) :
    (2 : ℚ) ^ log2Ratio num den ≤ num / den ∧ (num : ℚ) / den < 2 ^ (log2Ratio num den + 1) := by
  obtain ⟨hbelow, habove⟩ := log2_sub_bounds hn hd
  set e : Int := (num.log2 : Int) - den.log2 with he
  have hlog : log2Ratio num den =
      if (scaleByTwo num den (-e)).2 ≤ (scaleByTwo num den (-e)).1 then e else e - 1 := rfl
  have hpos : (0 : ℚ) < (scaleByTwo num den (-e)).2 := by
    exact_mod_cast scaleByTwo_den_pos hd num (-e)
  -- The scaled fraction is compared with one, which decides between the two.
  have htest : (scaleByTwo num den (-e)).2 ≤ (scaleByTwo num den (-e)).1 ↔
      (2 : ℚ) ^ e ≤ num / den := by
    have hone : (1 : ℚ) ≤ num / den * 2 ^ (-e) ↔ (2 : ℚ) ^ e ≤ num / den := by
      rw [zpow_neg, ← div_eq_mul_inv, one_le_div (by positivity)]
    rw [← hone, ← scaleByTwo_eq, one_le_div hpos, Nat.cast_le]
  rw [hlog]
  by_cases h : (2 : ℚ) ^ e ≤ num / den
  · rw [if_pos (htest.mpr h)]
    exact ⟨h, habove⟩
  · rw [if_neg (fun ht => h (htest.mp ht)), sub_add_cancel]
    exact ⟨hbelow, not_le.mp h⟩

/-- A quotient within one half of an integer is rounded to it, a tie only if the
    integer is even. -/
theorem roundDiv_eq {num den c : Nat} (hd : 0 < den) (hlow : (c : ℚ) - 1 / 2 ≤ num / den)
    (hhigh : (num : ℚ) / den ≤ c + 1 / 2)
    (hodd : c % 2 = 1 → (c : ℚ) - 1 / 2 < num / den ∧ (num : ℚ) / den < c + 1 / 2) :
    roundDiv num den = c := by
  have hdq : (0 : ℚ) < den := by exact_mod_cast hd
  rw [le_div_iff₀ hdq] at hlow
  rw [div_le_iff₀ hdq] at hhigh
  rw [lt_div_iff₀ hdq, div_lt_iff₀ hdq] at hodd
  have hlow' : 2 * (c * den) ≤ 2 * num + den := by
    have : (2 * (c * den) : ℚ) ≤ 2 * num + den := by linarith
    exact_mod_cast this
  have hhigh' : 2 * num ≤ 2 * (c * den) + den := by
    have : (2 * num : ℚ) ≤ 2 * (c * den) + den := by linarith
    exact_mod_cast this
  have hodd' : c % 2 = 1 → 2 * (c * den) < 2 * num + den ∧ 2 * num < 2 * (c * den) + den := by
    intro hc
    obtain ⟨h1, h2⟩ := hodd hc
    have h1 : (2 * (c * den) : ℚ) < 2 * num + den := by linarith
    have h2 : (2 * num : ℚ) < 2 * (c * den) + den := by linarith
    exact ⟨by exact_mod_cast h1, by exact_mod_cast h2⟩
  -- The quotient is the integer or the one below it.
  have hdivmod := Nat.div_add_mod num den
  have hmod := Nat.mod_lt num hd
  have hq : num / den = c ∨ num / den + 1 = c := by
    have hle : num / den ≤ c := by
      rw [← Nat.lt_add_one_iff, Nat.div_lt_iff_lt_mul hd]
      nlinarith
    have hge : c ≤ num / den + 1 := by
      by_contra hc
      have : (num / den + 2) * den ≤ c * den := Nat.mul_le_mul_right den (by omega)
      nlinarith
    omega
  unfold roundDiv
  dsimp only
  rcases hq with hq | hq
  · have hrest : c * den + num % den = num := by rw [← hq, Nat.mul_comm, hdivmod]
    rw [hq]
    split_ifs <;> omega
  · have hrest : c * den + num % den = num + den := by
      rw [← hq, Nat.add_mul, Nat.one_mul, Nat.mul_comm]
      omega
    split_ifs <;> omega

/-! ### The interval of a double -/

/-- How far the interval of `mantissa * 2 ^ exponent` reaches down, in units of the
    power of two. -/
def lowGap (mantissa : Nat) (exponent : Int) : ℚ :=
  if mantissa = 2 ^ 52 ∧ -1074 < exponent then 1 / 4 else 1 / 2

theorem lowGap_le (m : Nat) (e : Int) : lowGap m e ≤ 1 / 2 := by
  unfold lowGap
  split <;> norm_num

theorem le_lowGap (m : Nat) (e : Int) : 1 / 4 ≤ lowGap m e := by
  unfold lowGap
  split <;> norm_num

/-- The fraction lies in the interval of `mantissa * 2 ^ exponent`. -/
structure Near (mantissa : Nat) (exponent : Int) (r : ℚ) : Prop where
  /-- It is not below the interval. -/
  low : (mantissa - lowGap mantissa exponent) * 2 ^ exponent ≤ r
  /-- It is not above the interval. -/
  high : r ≤ (mantissa + 1 / 2) * 2 ^ exponent
  /-- The ends belong to the interval of an even mantissa only. -/
  odd : mantissa % 2 = 1 → (mantissa - lowGap mantissa exponent) * 2 ^ exponent < r ∧
    r < (mantissa + 1 / 2) * 2 ^ exponent

section Near

variable {x : Double} {num den : Nat} {r : ℚ}

/-- No fraction of the interval needs a larger exponent. -/
theorem Near.log2_lt (h : Near x.mantissa x.exponent r) {l : Int} (hl : (2 : ℚ) ^ l ≤ r) :
    l < x.exponent + 53 := by
  have hm : (x.mantissa : ℚ) ≤ 2 ^ 53 - 1 := by
    have hlt := x.mantissa_lt
    have : x.mantissa + 1 ≤ 2 ^ 53 := hlt
    have : ((x.mantissa + 1 : Nat) : ℚ) ≤ ((2 ^ 53 : Nat) : ℚ) := Nat.cast_le.mpr this
    push_cast at this
    linarith
  have hpow : (0 : ℚ) < 2 ^ x.exponent := by positivity
  rw [← zpow_lt_zpow_iff_right₀ (show (1 : ℚ) < 2 by norm_num)]
  calc (2 : ℚ) ^ l ≤ r := hl
    _ ≤ (x.mantissa + 1 / 2) * 2 ^ x.exponent := h.high
    _ < 2 ^ 53 * 2 ^ x.exponent := by
        refine mul_lt_mul_of_pos_right ?_ hpow
        linarith
    _ = 2 ^ (x.exponent + 53) := (two_zpow_add x.exponent 53).symm

/-- Half the smallest positive double bounds the intervals from below. -/
theorem Near.ge (h : Near x.mantissa x.exponent r) (hx : x.mantissa ≠ 0) :
    (2 : ℚ) ^ (-1075 : Int) ≤ r := by
  have hm : (1 : ℚ) ≤ x.mantissa := by exact_mod_cast Nat.one_le_iff_ne_zero.mpr hx
  have hgap := lowGap_le x.mantissa x.exponent
  calc (2 : ℚ) ^ (-1075 : Int) = 1 / 2 * 2 ^ (-1074 : Int) := by
        rw [show (-1075 : Int) = -1074 - 1 by norm_num, zpow_sub_one₀ (by norm_num)]
        ring
    _ ≤ (x.mantissa - lowGap x.mantissa x.exponent) * 2 ^ x.exponent := by
        gcongr
        · linarith
        · linarith
        · norm_num
        · exact x.exponent_ge
    _ ≤ r := h.low

theorem Near.pos (h : Near x.mantissa x.exponent r) (hx : x.mantissa ≠ 0) : 0 < r :=
  lt_of_lt_of_le (by positivity) (h.ge hx)

/-- A fraction below the binade of its double: the mantissa is the least one with
    53 bits, and the fraction lies in the upper half of the binade below. -/
theorem Near.below_binade (h : Near x.mantissa x.exponent r) (he : -1074 < x.exponent)
    (hr : r < 2 ^ (x.exponent + 52)) :
    x.mantissa = 2 ^ 52 ∧ (2 ^ 52 - 1 / 4) * 2 ^ x.exponent ≤ r := by
  have hpow : (0 : ℚ) < 2 ^ x.exponent := by positivity
  have hsplit : (2 : ℚ) ^ (x.exponent + 52) = 2 ^ 52 * 2 ^ x.exponent :=
    two_zpow_add x.exponent 52
  have hgap := lowGap_le x.mantissa x.exponent
  have hm : x.mantissa = 2 ^ 52 := by
    by_contra hne
    have hge : 2 ^ 52 + 1 ≤ x.mantissa := by
      have := mantissa_ge he
      omega
    have hge : ((2 ^ 52 + 1 : Nat) : ℚ) ≤ x.mantissa := Nat.cast_le.mpr hge
    push_cast at hge
    have hlow : (2 : ℚ) ^ 52 * 2 ^ x.exponent ≤ r := by
      refine le_trans ?_ h.low
      refine mul_le_mul_of_nonneg_right ?_ hpow.le
      linarith
    linarith
  refine ⟨hm, ?_⟩
  have hlow := h.low
  have hquarter : lowGap x.mantissa x.exponent = 1 / 4 := if_pos ⟨hm, he⟩
  rw [hquarter, hm] at hlow
  exact_mod_cast hlow

/-- Within the binade of its double a fraction has the exponent of the double. -/
theorem Near.ratioExponent_eq (h : Near x.mantissa x.exponent (num / den)) (hn : 0 < num)
    (hd : 0 < den) (hr : x.exponent = -1074 ∨ (2 : ℚ) ^ (x.exponent + 52) ≤ num / den) :
    ratioExponent num den = x.exponent := by
  obtain ⟨hbelow, habove⟩ := log2Ratio_bounds hn hd
  have hlog := h.log2_lt hbelow
  have hmin := x.exponent_ge
  unfold ratioExponent
  rcases hr with hr | hr
  · omega
  · have := (zpow_lt_zpow_iff_right₀ (show (1 : ℚ) < 2 by norm_num)).mp (lt_of_le_of_lt hr habove)
    omega

/-- Below the binade of its double a fraction has the next smaller exponent. -/
theorem Near.ratioExponent_below (h : Near x.mantissa x.exponent (num / den)) (hn : 0 < num)
    (hd : 0 < den) (he : -1074 < x.exponent) (hr : (num : ℚ) / den < 2 ^ (x.exponent + 52)) :
    ratioExponent num den = x.exponent - 1 := by
  obtain ⟨hbelow, habove⟩ := log2Ratio_bounds hn hd
  have hupper := (zpow_lt_zpow_iff_right₀ (show (1 : ℚ) < 2 by norm_num)).mp
    (lt_of_le_of_lt hbelow hr)
  have hlower : (2 : ℚ) ^ (x.exponent + 51) < 2 ^ (log2Ratio num den + 1) := by
    have hpow : (0 : ℚ) < 2 ^ x.exponent := by positivity
    calc (2 : ℚ) ^ (x.exponent + 51) = 2 ^ 51 * 2 ^ x.exponent := two_zpow_add x.exponent 51
      _ ≤ (2 ^ 52 - 1 / 4) * 2 ^ x.exponent := by
          refine mul_le_mul_of_nonneg_right ?_ hpow.le
          norm_num
      _ ≤ num / den := (h.below_binade he hr).2
      _ < 2 ^ (log2Ratio num den + 1) := habove
  have := (zpow_lt_zpow_iff_right₀ (show (1 : ℚ) < 2 by norm_num)).mp hlower
  unfold ratioExponent
  omega

/-- Rounding, once the exponent of a fraction is known. -/
theorem ofRatio_eq_of_scaled {q : Int} {c : Nat} (hn : 0 < num) (hd : 0 < den)
    (hq : ratioExponent num den = q) (hlow : (c : ℚ) - 1 / 2 ≤ num / den * 2 ^ (-q))
    (hhigh : (num : ℚ) / den * 2 ^ (-q) ≤ c + 1 / 2)
    (hodd : c % 2 = 1 → (c : ℚ) - 1 / 2 < num / den * 2 ^ (-q) ∧
      (num : ℚ) / den * 2 ^ (-q) < c + 1 / 2) (negative : Bool) :
    ofRatio negative num den =
      ofMagnitude negative (min ((q + 1074).toNat * 2 ^ 52 + c) infinityMagnitude) := by
  have hround : ofRatio negative num den = ofMagnitude negative
      (min ((q + 1074).toNat * 2 ^ 52 +
        roundDiv (scaleByTwo num den (-q)).1 (scaleByTwo num den (-q)).2) infinityMagnitude) := by
    unfold ofRatio
    rw [if_neg (by omega), hq]
    rfl
  rw [← scaleByTwo_eq] at hlow hhigh hodd
  rw [hround, roundDiv_eq (scaleByTwo_den_pos hd num (-q)) hlow hhigh hodd]

theorem min_infinityMagnitude (h : x.isFinite = true) :
    min x.magnitude infinityMagnitude = x.magnitude := by
  have hlt : x.magnitude < infinityMagnitude := of_decide_eq_true h
  exact min_eq_left hlt.le

theorem Near.num_pos (h : Near x.mantissa x.exponent (num / den)) (hx : x.mantissa ≠ 0) :
    0 < num := by
  have hpos := h.pos hx
  by_contra hn
  rw [Nat.eq_zero_of_not_pos hn] at hpos
  simp at hpos

/-- Within the binade, a fraction is within one half of the mantissa. -/
theorem Near.ofRatio_of_binade (h : Near x.mantissa x.exponent (num / den))
    (hfinite : x.isFinite = true) (hx : x.mantissa ≠ 0) (hd : 0 < den)
    (hr : x.exponent = -1074 ∨ (2 : ℚ) ^ (x.exponent + 52) ≤ num / den) (negative : Bool) :
    ofRatio negative num den = ofMagnitude negative x.magnitude := by
  have hn := h.num_pos hx
  have hpow : (0 : ℚ) < 2 ^ x.exponent := by positivity
  have hgap := lowGap_le x.mantissa x.exponent
  have hunits : (num : ℚ) / den = num / den * 2 ^ (-x.exponent) * 2 ^ x.exponent := by
    rw [mul_assoc, ← zpow_add₀ (by norm_num), neg_add_cancel, zpow_zero, mul_one]
  have hlow := h.low
  have hhigh := h.high
  have hodd := h.odd
  rw [hunits] at hlow hhigh hodd
  rw [mul_le_mul_iff_left₀ hpow] at hlow hhigh
  rw [mul_lt_mul_iff_left₀ hpow, mul_lt_mul_iff_left₀ hpow] at hodd
  rw [ofRatio_eq_of_scaled hn hd (h.ratioExponent_eq hn hd hr) (by linarith) hhigh
    (fun hm => ⟨by linarith [(hodd hm).1], (hodd hm).2⟩), ← x.magnitude_eq,
    min_infinityMagnitude hfinite]

/-- Below the binade, a fraction is just under `2 ^ 53` in units of the smaller
    exponent. That is even, and carries into the binade. -/
theorem Near.ofRatio_below (h : Near x.mantissa x.exponent (num / den))
    (hfinite : x.isFinite = true) (hx : x.mantissa ≠ 0) (hd : 0 < den)
    (he : -1074 < x.exponent) (hr : (num : ℚ) / den < 2 ^ (x.exponent + 52)) (negative : Bool) :
    ofRatio negative num den = ofMagnitude negative x.magnitude := by
  have hn := h.num_pos hx
  have hpow : (0 : ℚ) < 2 ^ x.exponent := by positivity
  obtain ⟨hm, hlow⟩ := h.below_binade he hr
  have hhigh : (num : ℚ) / den < 2 ^ 52 * 2 ^ x.exponent :=
    lt_of_lt_of_eq hr (two_zpow_add x.exponent 52)
  have hunits : (num : ℚ) / den * 2 ^ (-(x.exponent - 1)) * 2 ^ x.exponent =
      2 * (num / den) := by
    rw [mul_assoc, ← zpow_add₀ (by norm_num), neg_sub, sub_add_cancel, zpow_one, mul_comm]
  have hunitsLow : ((2 ^ 53 : Nat) : ℚ) - 1 / 2 ≤ num / den * 2 ^ (-(x.exponent - 1)) := by
    rw [← mul_le_mul_iff_left₀ hpow, hunits]
    push_cast
    linarith
  have hunitsHigh : (num : ℚ) / den * 2 ^ (-(x.exponent - 1)) ≤ ((2 ^ 53 : Nat) : ℚ) + 1 / 2 := by
    rw [← mul_le_mul_iff_left₀ hpow, hunits]
    push_cast
    linarith
  have hcarry : (x.exponent - 1 + 1074).toNat * 2 ^ 52 + 2 ^ 53 = x.magnitude := by
    rw [x.magnitude_eq, hm]
    omega
  rw [ofRatio_eq_of_scaled hn hd (h.ratioExponent_below hn hd he hr) hunitsLow hunitsHigh
    (fun hc => by simp at hc), hcarry, min_infinityMagnitude hfinite]

/-- A fraction of the interval of a finite double rounds to that double. -/
theorem ofRatio_eq (hfinite : x.isFinite = true) (hx : x.mantissa ≠ 0) (hd : 0 < den)
    (h : Near x.mantissa x.exponent (num / den)) (negative : Bool) :
    ofRatio negative num den = ofMagnitude negative x.magnitude := by
  by_cases hr : x.exponent = -1074 ∨ (2 : ℚ) ^ (x.exponent + 52) ≤ num / den
  · exact h.ofRatio_of_binade hfinite hx hd hr negative
  · obtain ⟨hmin, hr⟩ := not_or.mp hr
    have he : -1074 < x.exponent := lt_of_le_of_ne x.exponent_ge (Ne.symm hmin)
    exact h.ofRatio_below hfinite hx hd he (not_le.mp hr) negative

end Near

end EntityBook.Double
