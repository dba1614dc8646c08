/-! # Hexadecimal text

  A word of fixed width is written as that many lower-case digits. Readers
  accept both cases.
-/

namespace EntityBook.Text

/-- The lower-case character of a digit below sixteen. -/
def hexChar (d : Nat) : Char :=
  if d < 10 then Char.ofNat (48 + d) else Char.ofNat (87 + d)

/-- The value of a hexadecimal digit of either case, given by its code. -/
def hexCodeValue (n : Nat) : Option Nat :=
  if 48 ≤ n && n ≤ 57 then some (n - 48)
  else if 97 ≤ n && n ≤ 102 then some (n - 87)
  else if 65 ≤ n && n ≤ 70 then some (n - 55)
  else none

/-- The value of a hexadecimal digit of either case. -/
def hexValue (c : Char) : Option Nat := hexCodeValue c.toNat

theorem hexValue_hexChar {d : Nat} (h : d < 16) : hexValue (hexChar d) = some d := by
  have all : ∀ d, d < 16 → hexValue (hexChar d) = some d := by decide
  exact all d h

/-- The last `width` digits of a number, most significant first. -/
def hexDigits : (width : Nat) → (n : Nat) → List Char
  | 0, _ => []
  | width + 1, n => hexDigits width (n / 16) ++ [hexChar (n % 16)]

/-- The digits of a number without leading zeros. -/
def hexNat (n : Nat) : List Char :=
  if n < 16 then [hexChar n] else hexNat (n / 16) ++ [hexChar (n % 16)]
termination_by n

/-- Reads a row of digits onto what was read before. -/
def readHexFrom (n : Nat) : List Char → Option Nat
  | [] => some n
  | c :: r =>
    match hexValue c with
    | some d => readHexFrom (n * 16 + d) r
    | none => none

/-- Reads a row of digits. -/
def readHex (cs : List Char) : Option Nat := readHexFrom 0 cs

@[simp] theorem length_hexDigits (width n : Nat) : (hexDigits width n).length = width := by
  induction width generalizing n with
  | zero => rfl
  | succ width ih => simp [hexDigits, ih]

theorem readHexFrom_append (n : Nat) (xs ys : List Char) :
    readHexFrom n (xs ++ ys) = (readHexFrom n xs).bind fun m => readHexFrom m ys := by
  induction xs generalizing n with
  | nil => rfl
  | cons c r ih =>
    simp only [List.cons_append, readHexFrom]
    cases hexValue c with
    | none => rfl
    | some d => exact ih _

theorem readHex_hexDigits {width n : Nat} (h : n < Nat.pow 16 width) :
    readHex (hexDigits width n) = some n := by
  unfold readHex
  induction width generalizing n with
  | zero =>
    have hn : n = 0 := Nat.lt_one_iff.1 h
    subst hn
    rfl
  | succ width ih =>
    have hq : n / 16 < Nat.pow 16 width := Nat.div_lt_of_lt_mul (Nat.mul_comm _ 16 ▸ h)
    rw [hexDigits, readHexFrom_append, ih hq]
    simp only [Option.bind_some, readHexFrom,
      hexValue_hexChar (Nat.mod_lt n (by omega : 0 < 16))]
    congr 1; omega

end EntityBook.Text
