import EntityBook.Calendar.Date
import Mathlib.Order.SuccPred.IntervalSucc
import Mathlib.Tactic.Common

/-! # Dates and day numbers agree

  Every day number has a date that the calendar has, and every such date is found again
  from its number. Years are counted by `yearStart`, which grows by the length of each
  year; the guess of `yearOfDay` is off by one at most, because the mean length of a year
  misses the start of one by less than two days.
-/

namespace EntityBook.Calendar

/-! ### Years -/

theorem yearStart_eq (y : Int) : yearStart y =
    365 * (y - 1) + (y - 1) / 4 - (y - 1) / 100 + (y - 1) / 400 - 719162 := rfl

/-- A year has 365 days, a leap year one more. -/
theorem yearStart_succ (y : Int) :
    yearStart (y + 1) = yearStart y + 365 + (if isLeap y = true then 1 else 0) := by
  rw [yearStart_eq, yearStart_eq]
  simp only [isLeap, Bool.and_eq_true, Bool.or_eq_true, decide_eq_true_eq]
  split <;> omega

theorem yearStart_lt_succ (y : Int) : yearStart y < yearStart (y + 1) := by
  have h := yearStart_succ y
  split at h <;> omega

/-- Later years start later. -/
theorem yearStart_lt_iff {y z : Int} : yearStart y < yearStart z ↔ y < z :=
  (strictMono_int_of_lt_succ yearStart_lt_succ).lt_iff_lt

/-- The year of a day is the one in which it lies. -/
theorem yearOfDay_spec (n : Int) :
    yearStart (yearOfDay n) ≤ n ∧ n < yearStart (yearOfDay n + 1) := by
  unfold yearOfDay
  dsimp only
  generalize hg : (n + 719162) * 400 / 146097 + 1 = g
  have hlow : yearStart (g - 1) ≤ n := by
    rw [yearStart_eq]
    omega
  have hhigh : n < yearStart (g + 1 + 1) := by
    rw [yearStart_eq]
    omega
  split
  · next h => exact ⟨hlow, by rwa [Int.sub_add_cancel]⟩
  · next h =>
    split
    · next h' => exact ⟨h', hhigh⟩
    · next h' => exact ⟨by omega, by omega⟩

/-- A day lies in a year or later just if the year has started. -/
theorem le_yearOfDay_iff {y n : Int} : y ≤ yearOfDay n ↔ yearStart y ≤ n := by
  obtain ⟨hlow, hhigh⟩ := yearOfDay_spec n
  constructor
  · intro h
    have hnot := mt yearStart_lt_iff.mp (show ¬ yearOfDay n < y by omega)
    omega
  · intro h
    have hlt : y < yearOfDay n + 1 := yearStart_lt_iff.mp (by omega)
    omega

/-- Only one year holds a day. -/
theorem yearOfDay_unique {n y : Int} (hlow : yearStart y ≤ n) (hhigh : n < yearStart (y + 1)) :
    yearOfDay n = y := by
  have hle : y ≤ yearOfDay n := le_yearOfDay_iff.mpr hlow
  have hnot : ¬ y + 1 ≤ yearOfDay n := mt le_yearOfDay_iff.mp (by omega)
  omega

/-! ### Months -/

/-- A year is as long as its months. -/
theorem yearStart_succ_eq (y : Int) :
    yearStart (y + 1) = yearStart y + monthStart (isLeap y) 13 := by
  rw [yearStart_succ]
  cases isLeap y <;> simp [monthStart]
  omega

/-- The days of a year, from zero on, divide into its months. -/
theorem monthOfDay_spec {leap : Bool} {n : Nat} (h : n < monthStart leap 13) :
    1 ≤ monthOfDay leap n ∧ monthOfDay leap n ≤ 12 ∧
      monthStart leap (monthOfDay leap n) ≤ n ∧ n < monthStart leap (monthOfDay leap n + 1) := by
  have hfirst : monthStart leap 1 = 0 := by cases leap <;> rfl
  suffices hall : ∀ holds : Nat → Prop,
      (∀ m, 1 ≤ m ∧ m ≤ 12 ∧ monthStart leap m ≤ n ∧ n < monthStart leap (m + 1) → holds m) →
        holds (monthOfDay leap n) from hall _ fun _ hm => hm
  intro holds hm
  -- Each test fails for the months before, so it finds the first that ends after the day.
  iterate 11 refine iteInduction (fun _ => hm _ (by simp only [Nat.reduceAdd]; omega)) fun _ => ?_
  exact hm 12 (by simp only [Nat.reduceAdd]; omega)

/-- Later months start later. -/
theorem monthStart_mono (leap : Bool) {m k : Nat} (hk : k ≤ 13) (h : m ≤ k) :
    monthStart leap m ≤ monthStart leap k := by
  have all : ∀ leap, ∀ k < 14, ∀ m ≤ k, monthStart leap m ≤ monthStart leap k := by decide
  exact all leap k (by omega) m h

/-- Only one month holds a day of the year. -/
theorem monthOfDay_unique {leap : Bool} {n m : Nat} (hm : m ≤ 12) (hlow : monthStart leap m ≤ n)
    (hhigh : n < monthStart leap (m + 1)) : monthOfDay leap n = m := by
  have hend := monthStart_mono leap (Nat.le_refl 13) (show m + 1 ≤ 13 by omega)
  obtain ⟨_, hle, hl, hh⟩ := monthOfDay_spec (show n < monthStart leap 13 by omega)
  rcases Nat.lt_trichotomy (monthOfDay leap n) m with hlt | heq | hlt
  · have := monthStart_mono leap (show m ≤ 13 by omega) (show monthOfDay leap n + 1 ≤ m from hlt)
    omega
  · exact heq
  · have := monthStart_mono leap (show monthOfDay leap n ≤ 13 by omega)
      (show m + 1 ≤ monthOfDay leap n from hlt)
    omega

theorem daysInMonth_le (y : Int) {m : Nat} (h : m ≤ 12) : daysInMonth y m ≤ 31 := by
  have all : ∀ leap, ∀ m ≤ 12, monthStart leap (m + 1) - monthStart leap m ≤ 31 := by decide
  exact all (isLeap y) m h

/-! ### Dates -/

namespace Date

theorem isValid_iff {d : Date} : d.isValid = true ↔
    1 ≤ d.month ∧ d.month ≤ 12 ∧ 1 ≤ d.day ∧ d.day ≤ daysInMonth d.year d.month := by
  simp [isValid, and_assoc]

/-- A day of the year, from zero on, lies in it. -/
theorem dayOfYear_lt {d : Date} (h : d.isValid = true) :
    monthStart (isLeap d.year) d.month + (d.day - 1) < monthStart (isLeap d.year) 13 := by
  obtain ⟨_, hm, _, hd⟩ := isValid_iff.mp h
  have hend := monthStart_mono (isLeap d.year) (Nat.le_refl 13) (show d.month + 1 ≤ 13 by omega)
  unfold daysInMonth at hd
  omega

theorem toDays_eq {d : Date} (h : d.isValid = true) :
    d.toDays = yearStart d.year + (monthStart (isLeap d.year) d.month + (d.day - 1) : Nat) := by
  obtain ⟨_, _, hd, _⟩ := isValid_iff.mp h
  unfold toDays
  omega

/-- A date lies in its year. -/
theorem toDays_bounds {d : Date} (h : d.isValid = true) :
    yearStart d.year ≤ d.toDays ∧ d.toDays < yearStart (d.year + 1) := by
  have hlt := dayOfYear_lt h
  rw [toDays_eq h, yearStart_succ_eq]
  omega

/-- Every day number has a date that the calendar has. -/
theorem ofDays_spec (n : Int) : (ofDays n).isValid = true ∧ (ofDays n).toDays = n := by
  obtain ⟨hlow, hhigh⟩ := yearOfDay_spec n
  rw [yearStart_succ_eq] at hhigh
  have hday : (n - yearStart (yearOfDay n)).toNat < monthStart (isLeap (yearOfDay n)) 13 := by
    omega
  obtain ⟨hm1, hm12, hml, hmh⟩ := monthOfDay_spec hday
  have hvalid : (ofDays n).isValid = true := by
    rw [isValid_iff]
    unfold ofDays daysInMonth
    dsimp only
    omega
  refine ⟨hvalid, ?_⟩
  rw [toDays_eq hvalid]
  unfold ofDays
  dsimp only
  omega

/-- A date that the calendar has is found from its day number. -/
theorem ofDays_toDays {d : Date} (h : d.isValid = true) : ofDays d.toDays = d := by
  obtain ⟨hlow, hhigh⟩ := toDays_bounds h
  obtain ⟨_, hm12, hd1, hd⟩ := isValid_iff.mp h
  have hyear : yearOfDay d.toDays = d.year := yearOfDay_unique hlow hhigh
  have hrest : (d.toDays - yearStart d.year).toNat =
      monthStart (isLeap d.year) d.month + (d.day - 1) := by
    rw [toDays_eq h]
    omega
  unfold daysInMonth at hd
  have hmonth : monthOfDay (isLeap d.year)
      (monthStart (isLeap d.year) d.month + (d.day - 1)) = d.month :=
    monthOfDay_unique hm12 (by omega) (by omega)
  unfold ofDays
  dsimp only
  rw [hyear, hrest, hmonth]
  have hday : monthStart (isLeap d.year) d.month + (d.day - 1) -
      monthStart (isLeap d.year) d.month + 1 = d.day := by omega
  rw [hday]

end Date

end EntityBook.Calendar
