import EntityBook.Value.Numeric
import Mathlib.Data.Int.GCD
import Mathlib.RingTheory.Coprime.Lemmas
import Mathlib.Tactic.Linarith
import Mathlib.Tactic.Ring

/-! # Lowest terms

  Fractions are compared by their lowest terms. Both parts are 64-bit integers, and
  reducing them works on machine words: remainders of their sizes, which are words
  without a sign, give the divisor, and two divisions of integers follow. The one
  size that is no integer is that of the least one; as an integer it is the least
  one itself. It divides both parts all the same, since then each of them is the
  least integer or zero.

  So no step fails, the fraction keeps its value, and with positive denominators equal
  lowest terms mean equal cross products.
-/

namespace EntityBook.Numeric

/-! ### Word by word -/

/-- The size of an integer, as a word without a sign. -/
def magnitude (x : Int64) : UInt64 := UInt64.ofNat x.toInt.natAbs

/-- Takes remainders until one is zero; the last word that is not is left. -/
def remainderLoop (a b : UInt64) : UInt64 :=
  if b = 0 then a else remainderLoop b (a % b)
termination_by b.toNat
decreasing_by
  next h =>
    rw [UInt64.toNat_mod]
    apply Nat.mod_lt
    apply Nat.pos_of_ne_zero
    intro hb
    exact h (UInt64.toNat_inj.mp hb)

/-- The quotient of two integers, rounded towards zero. There is none by zero, and none
    that is out of range. -/
def quotient? (a b : Int64) : Option Int64 :=
  let q := a.toInt.tdiv b.toInt
  if b = 0 then none
  else if q < -2 ^ 63 ∨ 2 ^ 63 ≤ q then none
  else some (Int64.ofInt q)

/-- The fraction in lowest terms, if no division fails on the way. -/
def reduce? (n : Numeric) : Option Numeric :=
  let g := remainderLoop (magnitude n.num) (magnitude n.denom)
  if g ≤ 1 then some n
  else do some ⟨← quotient? n.num g.toInt64, ← quotient? n.denom g.toInt64⟩

theorem natAbs_le (x : Int64) : x.toInt.natAbs ≤ 2 ^ 63 := by
  have hlow := x.le_toInt
  have hhigh := x.toInt_lt
  omega

theorem toNat_magnitude (x : Int64) : (magnitude x).toNat = x.toInt.natAbs := by
  have hle := natAbs_le x
  apply UInt64.toNat_ofNat_of_lt'
  simp only [UInt64.size]
  omega

/-- The loop finds the greatest common divisor. -/
theorem toNat_remainderLoop (a b : UInt64) :
    (remainderLoop a b).toNat = Nat.gcd a.toNat b.toNat := by
  fun_induction remainderLoop a b with
  | case1 a => simp
  | case2 a b hb ih =>
    rw [ih, UInt64.toNat_mod, Nat.gcd_comm a.toNat, Nat.gcd_rec b.toNat a.toNat, Nat.gcd_comm]

/-! ### The divisor -/

/-- The greatest common divisor of the sizes of both parts. -/
def common (n : Numeric) : Nat := Int.gcd n.num.toInt n.denom.toInt

/-- What both parts are divided by. -/
def divisor (n : Numeric) : Int64 := if n.common ≤ 1 then 1 else Int64.ofNat n.common

theorem reduce_eq (n : Numeric) : n.reduce = ⟨n.num / n.divisor, n.denom / n.divisor⟩ := by
  unfold divisor
  by_cases h : n.common ≤ 1
  · have hsame : n.reduce = n := if_pos h
    rw [if_pos h, hsame]
    simp
  · rw [if_neg h]
    exact if_neg h

section Divisor

variable (n : Numeric)

theorem common_le : n.common ≤ 2 ^ 63 := by
  have hnum := natAbs_le n.num
  have hdenom := natAbs_le n.denom
  -- It divides both sizes, of which one is positive unless it is zero itself.
  by_cases h : n.num.toInt = 0
  · have hcommon : n.common = n.denom.toInt.natAbs := by simp [common, h]
    omega
  · have hle : n.common ≤ n.num.toInt.natAbs := Int.gcd_le_natAbs_left _ h
    omega

/-- The divisor is what both sizes have in common, but for the sign. -/
theorem natAbs_divisor : n.divisor.toInt.natAbs = max 1 n.common := by
  have hle := n.common_le
  unfold divisor
  split
  · next h =>
    rw [max_eq_left h]
    rfl
  · next h =>
    rw [max_eq_right (by omega)]
    -- The greatest size of all is read as the least integer.
    by_cases hlt : n.common < 2 ^ 63
    · simp [Int64.toInt_ofNat_of_lt hlt]
    · have heq : n.common = 2 ^ 63 := by omega
      rw [heq]
      rfl

theorem divisor_ne_zero : n.divisor.toInt ≠ 0 := by
  have h := n.natAbs_divisor
  omega

/-- The one divisor by which a quotient can be out of range does not occur. -/
theorem divisor_ne_neg_one : n.divisor ≠ -1 := by
  intro h
  unfold divisor at h
  split at h
  · cases h
  · next hlarge =>
    have hone : n.divisor.toInt.natAbs = 1 := by
      unfold divisor
      rw [if_neg hlarge, h]
      rfl
    have habs := n.natAbs_divisor
    omega

theorem divisor_dvd_num : n.divisor.toInt ∣ n.num.toInt := by
  rw [← Int.natAbs_dvd_natAbs, natAbs_divisor]
  by_cases h : n.common ≤ 1
  · rw [max_eq_left h]
    exact Nat.one_dvd _
  · rw [max_eq_right (by omega)]
    exact Nat.gcd_dvd_left _ _

theorem divisor_dvd_denom : n.divisor.toInt ∣ n.denom.toInt := by
  rw [← Int.natAbs_dvd_natAbs, natAbs_divisor]
  by_cases h : n.common ≤ 1
  · rw [max_eq_left h]
    exact Nat.one_dvd _
  · rw [max_eq_right (by omega)]
    exact Nat.gcd_dvd_right _ _

end Divisor

/-! ### Quotients by the divisor -/

/-- Only by zero, or at the least integer by minus one, there is no quotient. -/
theorem quotient?_eq {a d : Int64} (hzero : d.toInt ≠ 0) (hone : d ≠ -1) :
    quotient? a d = some (a / d) := by
  have hd : d ≠ 0 := by
    rintro rfl
    exact hzero rfl
  have hlow := (a / d).le_toInt
  have hhigh := (a / d).toInt_lt
  unfold quotient?
  rw [← Int64.toInt_div_of_ne_right a d hone, if_neg hd, if_neg (by omega), Int64.ofInt_toInt]

theorem mul_toInt_div {a d : Int64} (hone : d ≠ -1) (h : d.toInt ∣ a.toInt) :
    d.toInt * (a / d).toInt = a.toInt := by
  rw [Int64.toInt_div_of_ne_right a d hone]
  exact Int.mul_tdiv_cancel' h

/-- The words find the divisor, and neither division fails. -/
theorem reduce?_eq (n : Numeric) : n.reduce? = some n.reduce := by
  have hloop : (remainderLoop (magnitude n.num) (magnitude n.denom)).toNat = n.common := by
    rw [toNat_remainderLoop, toNat_magnitude, toNat_magnitude]
    rfl
  have hword : (remainderLoop (magnitude n.num) (magnitude n.denom)).toInt64 =
      Int64.ofNat n.common := by
    rw [← hloop, ← UInt64.toInt64_ofNat', UInt64.ofNat_toNat]
  have hsmall : remainderLoop (magnitude n.num) (magnitude n.denom) ≤ 1 ↔ n.common ≤ 1 := by
    rw [UInt64.le_iff_toNat_le, hloop]
    rfl
  unfold reduce?
  by_cases h : n.common ≤ 1
  · have hsame : n.reduce = n := if_pos h
    simp only [hsmall, if_pos h, hsame]
  · have hdivisor : n.divisor = Int64.ofNat n.common := if_neg h
    simp only [hsmall, if_neg h, hword, ← hdivisor,
      quotient?_eq n.divisor_ne_zero n.divisor_ne_neg_one]
    rw [reduce_eq]
    rfl

/-! ### Lowest terms -/

section Reduce

variable (n : Numeric)

theorem divisor_mul_num : n.divisor.toInt * n.reduce.num.toInt = n.num.toInt := by
  rw [reduce_eq]
  exact mul_toInt_div n.divisor_ne_neg_one n.divisor_dvd_num

theorem divisor_mul_denom : n.divisor.toInt * n.reduce.denom.toInt = n.denom.toInt := by
  rw [reduce_eq]
  exact mul_toInt_div n.divisor_ne_neg_one n.divisor_dvd_denom

/-- Reducing keeps the value. -/
theorem cross_reduce :
    n.num.toInt * n.reduce.denom.toInt = n.reduce.num.toInt * n.denom.toInt := by
  calc n.num.toInt * n.reduce.denom.toInt
      = n.divisor.toInt * n.reduce.num.toInt * n.reduce.denom.toInt := by rw [divisor_mul_num]
    _ = n.reduce.num.toInt * (n.divisor.toInt * n.reduce.denom.toInt) := by ring
    _ = n.reduce.num.toInt * n.denom.toInt := by rw [divisor_mul_denom]

end Reduce

/-- Cross products compare what the divisors leave. -/
theorem cross_iff (a b : Numeric) :
    a.num.toInt * b.denom.toInt = b.num.toInt * a.denom.toInt ↔
      a.reduce.num.toInt * b.reduce.denom.toInt = b.reduce.num.toInt * a.reduce.denom.toInt := by
  have hne : a.divisor.toInt * b.divisor.toInt ≠ 0 :=
    mul_ne_zero a.divisor_ne_zero b.divisor_ne_zero
  rw [← a.divisor_mul_num, ← a.divisor_mul_denom, ← b.divisor_mul_num, ← b.divisor_mul_denom]
  rw [← mul_right_inj' hne (b := a.reduce.num.toInt * b.reduce.denom.toInt)]
  constructor
  · intro h
    linarith
  · intro h
    linarith

section Positive

variable {n : Numeric}

theorem common_pos (h : 0 < n.denom) : 0 < n.common := by
  have hdenom : 0 < n.denom.toInt := Int64.lt_iff_toInt_lt.mp h
  apply Int.gcd_pos_of_ne_zero_right
  omega

theorem divisor_pos (h : 0 < n.denom) : 0 < n.divisor.toInt := by
  have hdenom : 0 < n.denom.toInt := Int64.lt_iff_toInt_lt.mp h
  have hhigh := n.denom.toInt_lt
  have hle : n.common ≤ n.denom.toInt.natAbs := Int.gcd_le_natAbs_right _ (by omega)
  unfold divisor
  split
  · decide
  · rw [Int64.toInt_ofNat_of_lt (by omega)]
    omega

theorem denom_reduce_pos (h : 0 < n.denom) : 0 < n.reduce.denom := by
  have hdenom : 0 < n.denom.toInt := Int64.lt_iff_toInt_lt.mp h
  rw [← n.divisor_mul_denom] at hdenom
  apply Int64.lt_iff_toInt_lt.mpr
  exact pos_of_mul_pos_right hdenom (divisor_pos h).le

/-- Nothing is left to divide by. -/
theorem common_reduce (h : 0 < n.denom) : n.reduce.common = 1 := by
  have hpos := common_pos h
  have hsplit : n.common = n.common * n.reduce.common := by
    calc n.common
        = Int.gcd (n.divisor.toInt * n.reduce.num.toInt)
            (n.divisor.toInt * n.reduce.denom.toInt) := by
          rw [divisor_mul_num, divisor_mul_denom, common]
      _ = n.divisor.toInt.natAbs * n.reduce.common := Int.gcd_mul_left _ _ _
      _ = n.common * n.reduce.common := by rw [natAbs_divisor, max_eq_right (by omega)]
  exact (Nat.mul_eq_left (by omega)).mp hsplit.symm

theorem reduce_of_common {n : Numeric} (h : n.common = 1) : n.reduce = n :=
  if_pos (le_of_eq h)

end Positive

/-- Lowest terms are unique: fractions with the same cross products are the same. -/
theorem eq_of_cross {a b : Numeric} (ha : 0 < a.denom) (hb : 0 < b.denom) (hac : a.common = 1)
    (hbc : b.common = 1) (h : a.num.toInt * b.denom.toInt = b.num.toInt * a.denom.toInt) :
    a = b := by
  have hapos : 0 < a.denom.toInt := Int64.lt_iff_toInt_lt.mp ha
  have hbpos : 0 < b.denom.toInt := Int64.lt_iff_toInt_lt.mp hb
  -- Each denominator divides the other one, since neither has a factor of its numerator.
  have hab : a.denom.toInt ∣ b.denom.toInt := by
    apply (Int.isCoprime_iff_gcd_eq_one.mpr hac).symm.dvd_of_dvd_mul_left
    exact ⟨b.num.toInt, by rw [h, mul_comm]⟩
  have hba : b.denom.toInt ∣ a.denom.toInt := by
    apply (Int.isCoprime_iff_gcd_eq_one.mpr hbc).symm.dvd_of_dvd_mul_left
    exact ⟨a.num.toInt, by rw [← h, mul_comm]⟩
  have hdenom : a.denom.toInt = b.denom.toInt := Int.dvd_antisymm hapos.le hbpos.le hab hba
  rw [hdenom] at h
  have hnum : a.num.toInt = b.num.toInt := mul_right_cancel₀ hbpos.ne' h
  cases a
  cases b
  rw [Numeric.mk.injEq]
  exact ⟨Int64.toInt_inj.mp hnum, Int64.toInt_inj.mp hdenom⟩

/-- Reducing never fails and keeps the value, whatever the two parts. With positive
    denominators it leads to lowest terms, and fractions have the same lowest terms just
    if their cross products are equal. -/
theorem comparison_is_exact (n : Numeric) :
    n.reduce? = some n.reduce ∧
    n.num.toInt * n.reduce.denom.toInt = n.reduce.num.toInt * n.denom.toInt ∧
    (0 < n.denom →
      0 < n.reduce.denom ∧ IsCoprime n.reduce.num.toInt n.reduce.denom.toInt ∧
      n.reduce.reduce = n.reduce ∧
      ∀ m : Numeric, 0 < m.denom →
        (n.sameValue m = true ↔ n.num.toInt * m.denom.toInt = m.num.toInt * n.denom.toInt)) := by
  refine ⟨n.reduce?_eq, n.cross_reduce, ?_⟩
  intro hn
  have hlowest := common_reduce hn
  refine ⟨denom_reduce_pos hn, Int.isCoprime_iff_gcd_eq_one.mpr hlowest,
    reduce_of_common hlowest, ?_⟩
  intro m hm
  rw [cross_iff, sameValue, beq_iff_eq]
  constructor
  · intro h
    rw [h]
  · intro h
    exact eq_of_cross (denom_reduce_pos hn) (denom_reduce_pos hm) hlowest (common_reduce hm) h

/-- The least integer over 2⁶² has the value of minus two, and over itself that of one,
    although its size is no integer. -/
theorem least_integer_reduced :
    (⟨Int64.minValue, Int64.minValue⟩ : Numeric).reduce? = some ⟨1, 1⟩ ∧
    (⟨Int64.minValue, 4611686018427387904⟩ : Numeric).reduce? = some ⟨-2, 1⟩ ∧
    (⟨Int64.minValue, 4611686018427387904⟩ : Numeric).sameValue ⟨-4, 2⟩ = true := by
  obtain ⟨hleast, -, -⟩ := comparison_is_exact ⟨Int64.minValue, Int64.minValue⟩
  obtain ⟨hpower, -, hexact⟩ := comparison_is_exact ⟨Int64.minValue, 4611686018427387904⟩
  obtain ⟨-, -, -, hsame⟩ := hexact (by decide)
  exact ⟨hleast, hpower, (hsame ⟨-4, 2⟩ (by decide)).mpr (by decide)⟩

end EntityBook.Numeric
