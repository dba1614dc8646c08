import EntityBook.Json.Numeral

/-! # Numerals read back

  A numeral is proper if its parts are rows of digits as the grammar has them.
  Whatever is taken off a text is proper, and a proper numeral is taken off its
  own text again, as long as what follows does not continue it.
-/

namespace EntityBook

open Text (isDigit natDigits)

namespace Json.Numeral

/-! ### Rows of digits -/

/-- A text that does not begin with a digit. -/
def NoDigit (cs : List Char) : Prop := ∀ c r, cs = c :: r → isDigit c = false

theorem takeWhile_digits {ds rest : List Char} (hd : ∀ c ∈ ds, isDigit c = true)
    (hr : NoDigit rest) : (ds ++ rest).takeWhile isDigit = ds := by
  rw [List.takeWhile_append_of_pos hd]
  cases rest with
  | nil => simp
  | cons c r =>
    have hc := hr c r rfl
    rw [List.takeWhile_cons_of_neg (by simp [hc]), List.append_nil]

theorem dropWhile_digits {ds rest : List Char} (hd : ∀ c ∈ ds, isDigit c = true)
    (hr : NoDigit rest) : (ds ++ rest).dropWhile isDigit = rest := by
  rw [List.dropWhile_append_of_pos hd]
  cases rest with
  | nil => rfl
  | cons c r =>
    have hc := hr c r rfl
    rw [List.dropWhile_cons_of_neg (by simp [hc])]

theorem isDigit_of_mem_takeWhile {cs : List Char} {c : Char} (h : c ∈ cs.takeWhile isDigit) :
    isDigit c = true := by
  have hall := List.all_takeWhile (l := cs) (p := isDigit)
  exact List.all_eq_true.mp hall c h

/-! ### Proper numerals -/

/-- The parts of a numeral are as the grammar has them. -/
structure Proper (n : Numeral) : Prop where
  whole : n.whole ≠ []
  digits : ∀ c ∈ n.whole, isDigit c = true
  /-- A zero in front stands alone. -/
  zero : ∀ r, n.whole = '0' :: r → r = []
  fraction : ∀ c ∈ n.fraction, isDigit c = true
  exponent : ∀ negative ds, n.exponent = some (negative, ds) →
    ds ≠ [] ∧ ∀ c ∈ ds, isDigit c = true

/-- A text that does not continue a numeral. -/
def Ends (cs : List Char) : Prop :=
  ∀ c r, cs = c :: r → isDigit c = false ∧ c ≠ '.' ∧ c ≠ 'e' ∧ c ≠ 'E'

theorem ends_nil : Ends [] := by
  intro c r h
  cases h

theorem Ends.noDigit {cs : List Char} (h : Ends cs) : NoDigit cs := fun c r hc => (h c r hc).1

/-! ### Taking the parts off their texts -/

theorem takeWhole_append {n : Numeral} (h : n.Proper) {rest : List Char} (hr : NoDigit rest) :
    takeWhole (n.whole ++ rest) = some (n.whole, rest) := by
  cases hw : n.whole with
  | nil => exact absurd hw h.whole
  | cons c r =>
    have hall := h.digits
    rw [hw] at hall
    have hc : isDigit c = true := hall c List.mem_cons_self
    have hrest : ∀ d ∈ r, isDigit d = true := by
      intro d hd
      exact hall d (List.mem_cons_of_mem c hd)
    -- A leading zero is the whole part by itself; any other digit takes all that follow it.
    by_cases hz : c = '0'
    · subst hz
      have hnil := h.zero r hw
      subst hnil
      cases rest with
      | nil => rfl
      | cons d ds =>
        have hd := hr d ds rfl
        simp [takeWhole, hc, hd]
    · rw [List.cons_append]
      simp [takeWhole, hc, hz, takeWhile_digits hrest hr, dropWhile_digits hrest hr]

theorem takeFraction_append {ds : List Char} (h : ∀ c ∈ ds, isDigit c = true) {rest : List Char}
    (hr : NoDigit rest) (hp : ∀ r, rest ≠ '.' :: r) :
    takeFraction ((if ds.isEmpty then [] else '.' :: ds) ++ rest) = some (ds, rest) := by
  cases hds : ds with
  | nil =>
    -- No point is written, and the rest does not start with one.
    unfold takeFraction
    split
    · next r heq => exact absurd heq (hp r)
    · rfl
  | cons d rest' =>
    rw [hds] at h
    have ht := takeWhile_digits h hr
    have hd := dropWhile_digits h hr
    show (if ((d :: rest' ++ rest).takeWhile isDigit).isEmpty then none
      else some ((d :: rest' ++ rest).takeWhile isDigit, (d :: rest' ++ rest).dropWhile isDigit)) = _
    rw [ht, hd]
    rfl

theorem takeExponentDigits_append {ds : List Char} (hne : ds ≠ [])
    (h : ∀ c ∈ ds, isDigit c = true) {rest : List Char} (hr : NoDigit rest) (negative : Bool) :
    takeExponentDigits negative (ds ++ rest) = some (some (negative, ds), rest) := by
  unfold takeExponentDigits
  rw [takeWhile_digits h hr, dropWhile_digits h hr]
  cases ds with
  | nil => exact absurd rfl hne
  | cons d ds => rfl

/-- The text of an exponent. -/
def exponentChars : Option (Bool × List Char) → List Char
  | none => []
  | some (negative, ds) => 'e' :: (if negative then '-' else '+') :: ds

theorem takeExponent_append {x : Option (Bool × List Char)}
    (h : ∀ negative ds, x = some (negative, ds) → ds ≠ [] ∧ ∀ c ∈ ds, isDigit c = true)
    {rest : List Char} (hr : Ends rest) :
    takeExponent (exponentChars x ++ rest) = some (x, rest) := by
  cases x with
  | none =>
    cases rest with
    | nil => rfl
    | cons c r =>
      obtain ⟨_, _, he, hE⟩ := hr c r rfl
      simp [exponentChars, takeExponent, he, hE]
  | some x =>
    obtain ⟨negative, ds⟩ := x
    obtain ⟨hne, hds⟩ := h negative ds rfl
    have hdigits := takeExponentDigits_append hne hds hr.noDigit negative
    cases negative with
    | true => simpa [exponentChars, takeExponent] using hdigits
    | false => simpa [exponentChars, takeExponent] using hdigits

theorem chars_eq (n : Numeral) :
    n.chars = (if n.negative then ['-'] else []) ++ (n.whole ++
      ((if n.fraction.isEmpty then [] else '.' :: n.fraction) ++ exponentChars n.exponent)) := by
  unfold chars
  rw [List.append_assoc, List.append_assoc]
  cases n.exponent <;> rfl

/-- The first character of a numeral is its sign or a digit. -/
theorem exists_chars_cons {n : Numeral} (h : n.Proper) :
    ∃ c r, n.chars = c :: r ∧ (c = '-' ∨ isDigit c = true) := by
  rw [chars_eq]
  cases hw : n.whole with
  | nil => exact absurd hw h.whole
  | cons c r =>
    have hc : isDigit c = true := h.digits c (hw ▸ List.mem_cons_self)
    cases n.negative with
    | true => exact ⟨_, _, rfl, Or.inl rfl⟩
    | false => exact ⟨_, _, rfl, Or.inr hc⟩

/-- What follows the whole part does not continue it. -/
theorem noDigit_tail {n : Numeral} {rest : List Char} (hr : Ends rest) :
    NoDigit ((if n.fraction.isEmpty then [] else '.' :: n.fraction) ++
      (exponentChars n.exponent ++ rest)) ∧ NoDigit (exponentChars n.exponent ++ rest) ∧
      ∀ r, exponentChars n.exponent ++ rest ≠ '.' :: r := by
  -- An exponent starts with its letter; without one the rest comes next.
  have hexp : NoDigit (exponentChars n.exponent ++ rest) := by
    intro c r hc
    cases hx : n.exponent with
    | none =>
      rw [hx] at hc
      exact hr.noDigit c r hc
    | some x =>
      rw [hx] at hc
      cases hc
      rfl
  refine ⟨?_, hexp, ?_⟩
  · intro c r hc
    by_cases hf : n.fraction.isEmpty = true
    · rw [if_pos hf] at hc
      exact hexp c r hc
    · rw [if_neg hf] at hc
      cases hc
      rfl
  · intro r hc
    cases hx : n.exponent with
    | none =>
      rw [hx] at hc
      exact (hr '.' r hc).2.1 rfl
    | some x =>
      rw [hx] at hc
      cases hc

/-- A proper numeral is taken off its own text. -/
theorem take_chars {n : Numeral} (h : n.Proper) {rest : List Char} (hr : Ends rest) :
    take (n.chars ++ rest) = some (n, rest) := by
  obtain ⟨htail, hexp, hpoint⟩ := noDigit_tail (n := n) hr
  -- A digit comes first after the sign, so a missing sign is not mistaken for one.
  have hsign (cs : List Char) (hw : ∃ c r, cs = c :: r ∧ isDigit c = true) :
      takeSign ((if n.negative then ['-'] else []) ++ cs) = (n.negative, cs) := by
    obtain ⟨c, r, rfl, hc⟩ := hw
    cases n.negative with
    | true => rfl
    | false =>
      unfold takeSign
      split
      · next heq =>
        cases heq
        cases hc
      · rfl
  have hfirst : ∃ c r, n.whole ++ ((if n.fraction.isEmpty then [] else '.' :: n.fraction) ++
      (exponentChars n.exponent ++ rest)) = c :: r ∧ isDigit c = true := by
    cases hw : n.whole with
    | nil => exact absurd hw h.whole
    | cons c r => exact ⟨c, _, rfl, h.digits c (hw ▸ List.mem_cons_self)⟩
  unfold take
  rw [chars_eq, List.append_assoc, List.append_assoc, List.append_assoc, hsign _ hfirst]
  dsimp only
  rw [takeWhole_append h htail]
  dsimp only [Option.bind_eq_bind, Option.bind_some]
  rw [takeFraction_append h.fraction hexp hpoint]
  dsimp only [Option.bind_eq_bind, Option.bind_some]
  rw [takeExponent_append h.exponent hr]
  rfl

/-! ### What is proper -/

theorem proper_whole {cs ds r : List Char} (h : takeWhole cs = some (ds, r)) :
    ds ≠ [] ∧ (∀ c ∈ ds, isDigit c = true) ∧ ∀ r, ds = '0' :: r → r = [] := by
  cases cs with
  | nil => cases h
  | cons c cs =>
    simp only [takeWhole] at h
    split at h
    · cases h
    · next hc =>
      have hc : isDigit c = true := by simpa using hc
      split at h
      · next hz =>
        have hds : ds = ['0'] := by
          split at h
          · split at h
            · cases h
            · cases h
              rfl
          · cases h
            rfl
        subst hds
        refine ⟨by simp, ?_, ?_⟩
        · intro d hd
          rw [List.mem_singleton.mp hd]
          rfl
        · intro r hr
          cases hr
          rfl
      · next hz =>
        cases h
        refine ⟨by simp, ?_, ?_⟩
        · intro d hd
          rcases List.mem_cons.mp hd with rfl | hd
          · exact hc
          · exact isDigit_of_mem_takeWhile hd
        · intro r hr
          cases hr
          exact absurd rfl hz

theorem proper_fraction {cs ds r : List Char} (h : takeFraction cs = some (ds, r)) :
    ∀ c ∈ ds, isDigit c = true := by
  unfold takeFraction at h
  split at h
  · dsimp only at h
    split at h
    · cases h
    · cases h
      intro c hc
      exact isDigit_of_mem_takeWhile hc
  · cases h
    intro c hc
    cases hc

theorem proper_exponent {cs r : List Char} {x : Option (Bool × List Char)}
    (h : takeExponent cs = some (x, r)) :
    ∀ negative ds, x = some (negative, ds) → ds ≠ [] ∧ ∀ c ∈ ds, isDigit c = true := by
  -- The sign, if there is one, is followed by the same digits in all three cases.
  have hdigits {negative : Bool} {cs : List Char}
      (h : takeExponentDigits negative cs = some (x, r)) :
      ∀ negative ds, x = some (negative, ds) → ds ≠ [] ∧ ∀ c ∈ ds, isDigit c = true := by
    intro negative' ds hx
    unfold takeExponentDigits at h
    dsimp only at h
    split at h
    · cases h
    · next hne =>
      cases h
      cases hx
      refine ⟨?_, fun c hc => isDigit_of_mem_takeWhile hc⟩
      intro hnil
      exact hne (by rw [hnil]; rfl)
  unfold takeExponent at h
  split at h
  · cases h
    intro _ _ hx
    cases hx
  · split at h
    · split at h
      · exact hdigits h
      · exact hdigits h
      · exact hdigits h
    · cases h
      intro _ _ hx
      cases hx

/-- What is taken off a text is proper. -/
theorem proper_of_take {cs r : List Char} {n : Numeral} (h : take cs = some (n, r)) :
    n.Proper := by
  unfold take at h
  obtain ⟨⟨whole, r₁⟩, hwhole, h⟩ := Option.bind_eq_some_iff.mp h
  obtain ⟨⟨fraction, r₂⟩, hfraction, h⟩ := Option.bind_eq_some_iff.mp h
  obtain ⟨⟨exponent, r₃⟩, hexponent, h⟩ := Option.bind_eq_some_iff.mp h
  cases h
  obtain ⟨hne, hdigits, hzero⟩ := proper_whole hwhole
  exact ⟨hne, hdigits, hzero, proper_fraction hfraction, proper_exponent hexponent⟩

/-- The first digit of a positive number is not zero. -/
theorem natDigits_zero {n : Nat} {r : List Char} (h : natDigits n = '0' :: r) : r = [] := by
  fun_induction natDigits n generalizing r with
  | case1 n hn => exact (List.cons.inj h).2.symm
  | case2 n hn ih =>
    cases hq : natDigits (n / 10) with
    | nil => exact absurd hq (Text.natDigits_ne_nil _)
    | cons c rest =>
      rw [hq] at h
      cases h
      have hnil := ih hq
      subst hnil
      -- A number whose only digit is zero is zero.
      have hval := Text.digitsValue_natDigits (n / 10)
      rw [hq] at hval
      have hzero : Text.digitsValue ['0'] = 0 := by decide
      omega

theorem proper_ofInt (n : Int) : (ofInt n).Proper where
  whole := Text.natDigits_ne_nil _
  digits := List.all_eq_true.mp (Text.all_isDigit_natDigits _)
  zero := fun _ h => natDigits_zero h
  fraction := by
    intro c hc
    cases hc
  exponent := by
    intro _ _ h
    cases h

/-- The numeral of an integer denotes the integer. -/
theorem integer?_ofInt (n : Int) : (ofInt n).integer? = some n := by
  have hval : Text.digitsValue (ofInt n).whole = n.natAbs := Text.digitsValue_natDigits n.natAbs
  have hsign : (ofInt n).negative = decide (n < 0) := rfl
  -- The numeral of zero has no sign.
  have hinteger : ((ofInt n).fraction.isEmpty && (ofInt n).exponent.isNone &&
      !((ofInt n).negative && n.natAbs == 0)) = true := by
    show (!(decide (n < 0) && n.natAbs == 0)) = true
    by_cases hzero : n = 0
    · subst hzero
      rfl
    · have habs : (n.natAbs == 0) = false := by
        rw [beq_eq_false_iff_ne]
        omega
      rw [habs, Bool.and_false]
      rfl
  unfold integer?
  dsimp only
  rw [hval, if_pos hinteger, hsign]
  by_cases hneg : n < 0
  · have habs : -(n.natAbs : Int) = n := by omega
    rw [if_pos (decide_eq_true hneg), habs]
  · have habs : (n.natAbs : Int) = n := by omega
    rw [if_neg (by simp [hneg]), habs]

end Json.Numeral

end EntityBook
