/-! # Decimal integers

  Integers are written with an optional minus sign and ASCII digits, and read
  with an optional sign of either kind. A reader takes the whole text or
  nothing, and refuses a number outside its range.

  `readNat_natDigits` says that what is written reads back.
-/

namespace EntityBook.Text

/-! ### Digits -/

/-- The character of a digit below ten. -/
def digitChar (d : Nat) : Char := Char.ofNat (48 + d)

/-- Recognises the ten ASCII digits. -/
def isDigit (c : Char) : Bool := 48 ≤ c.toNat && c.toNat ≤ 57

/-- The value of an ASCII digit. -/
def digitValue (c : Char) : Nat := c.toNat - 48

theorem isDigit_digitChar {d : Nat} (h : d < 10) : isDigit (digitChar d) = true := by
  have all : ∀ d, d < 10 → isDigit (digitChar d) = true := by decide
  exact all d h

theorem digitValue_digitChar {d : Nat} (h : d < 10) : digitValue (digitChar d) = d := by
  have all : ∀ d, d < 10 → digitValue (digitChar d) = d := by decide
  exact all d h

/-- The number that a row of digits stands for, most significant digit first. -/
def digitsValue (cs : List Char) : Nat :=
  cs.foldl (fun n c => n * 10 + digitValue c) 0

/-! ### Natural numbers -/

/-- The decimal digits of a number, most significant first, at least one. -/
def natDigits (n : Nat) : List Char :=
  if n < 10 then [digitChar n] else natDigits (n / 10) ++ [digitChar (n % 10)]
termination_by n

/-- Reads a non-empty row of digits. -/
def readNat (cs : List Char) : Option Nat :=
  if !cs.isEmpty && cs.all isDigit then some (digitsValue cs) else none

theorem natDigits_ne_nil (n : Nat) : natDigits n ≠ [] := by
  rw [natDigits]; split <;> simp

theorem all_isDigit_natDigits (n : Nat) : (natDigits n).all isDigit = true := by
  fun_induction natDigits n with
  | case1 n h => simp [isDigit_digitChar h]
  | case2 n _ ih => simp [ih, isDigit_digitChar (Nat.mod_lt n (by omega : 0 < 10))]

theorem digitsValue_natDigits (n : Nat) : digitsValue (natDigits n) = n := by
  fun_induction natDigits n with
  | case1 n h => simp [digitsValue, digitValue_digitChar h]
  | case2 n _ ih =>
    unfold digitsValue at ih ⊢
    rw [List.foldl_append, ih]
    simp [digitValue_digitChar (Nat.mod_lt n (by omega : 0 < 10))]
    omega

/-- What is written reads back. -/
theorem readNat_natDigits (n : Nat) : readNat (natDigits n) = some n := by
  simp [readNat, natDigits_ne_nil, all_isDigit_natDigits, digitsValue_natDigits]

/-! ### Integers -/

/-- The decimal form of an integer. -/
def intChars : Int → List Char
  | .ofNat n => natDigits n
  | .negSucc n => '-' :: natDigits (n + 1)

/-- The decimal form of an integer, as a text. -/
def intText (n : Int) : String := String.ofList (intChars n)

/-- The decimal form of a natural number, as a text. -/
def natText (n : Nat) : String := String.ofList (natDigits n)

/-- Reads digits with an optional sign in front. -/
def readInt : List Char → Option Int
  | '-' :: r => (readNat r).map fun n => -(n : Int)
  | '+' :: r => (readNat r).map fun n => (n : Int)
  | cs => (readNat cs).map fun n => (n : Int)

/-- Reads a 64-bit integer. -/
def readInt64 (cs : List Char) : Option Int64 :=
  match readInt cs with
  | some n =>
    if Int64.minValue.toInt ≤ n && n ≤ Int64.maxValue.toInt then some (Int64.ofInt n) else none
  | none => none

/-- Reads a 32-bit integer. -/
def readInt32 (cs : List Char) : Option Int32 :=
  match readInt cs with
  | some n =>
    if Int32.minValue.toInt ≤ n && n ≤ Int32.maxValue.toInt then some (Int32.ofInt n) else none
  | none => none

theorem readInt_intChars (n : Int) : readInt (intChars n) = some n := by
  cases n with
  | negSucc n =>
    show (readNat (natDigits (n + 1))).map (fun m => -(m : Int)) = some (Int.negSucc n)
    rw [readNat_natDigits]
    rfl
  | ofNat n =>
    have hd := all_isDigit_natDigits n
    have hr := readNat_natDigits n
    show readInt (natDigits n) = some (n : Int)
    cases h : natDigits n with
    | nil => exact absurd h (natDigits_ne_nil n)
    | cons c r =>
      rw [h] at hd hr
      have hc : isDigit c = true := by simp at hd; exact hd.1
      unfold readInt
      split
      · next heq => simp at heq; rw [heq.1] at hc; simp [isDigit] at hc
      · next heq => simp at heq; rw [heq.1] at hc; simp [isDigit] at hc
      · rw [hr]; rfl

end EntityBook.Text
