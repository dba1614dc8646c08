import EntityBook.Calendar.Rfc3339
import EntityBook.Proofs.Calendar.Date
import EntityBook.Proofs.Double.RoundTrip
import EntityBook.Proofs.Json.Numeral
import EntityBook.Proofs.Value.Text

/-! # Instants and their texts

  The fields of an instant in UTC name it again, and the fields of the years 0000 to 9999
  are read off the text. All other years are written with a sign in front, which the
  strict grammar does not know, so exactly those years do not read back.

  A text is read with its own zone. Its year has four digits, but the instant may lie in
  another year in UTC: that can happen on the first and on the last day only.
-/

namespace EntityBook

open Calendar (Date yearStart yearOfDay le_yearOfDay_iff)
open Text (isBlank isDigit natDigits digitsValue trimChars)

/-! ### Rows of digits -/

namespace Text

theorem length_natDigits_le {width n : Nat} (hw : 0 < width) (h : n < 10 ^ width) :
    (natDigits n).length ≤ width := by
  fun_induction natDigits n generalizing width with
  | case1 n _ => simpa using Nat.succ_le_of_lt hw
  | case2 n hn ih =>
    obtain ⟨w, rfl⟩ : ∃ w, width = w + 1 := ⟨width - 1, by omega⟩
    have hpos : 0 < w := by
      by_contra hzero
      obtain rfl : w = 0 := by omega
      omega
    have hquot : n / 10 < 10 ^ w := by
      rw [pow_succ] at h
      omega
    have := ih hpos hquot
    simpa using this

theorem digitsValue_lt {cs : List Char} (h : cs.all isDigit = true) :
    digitsValue cs < 10 ^ cs.length := by
  induction cs using List.reverseRecOn with
  | nil => simp [digitsValue]
  | append_singleton cs c ih =>
    rw [List.all_append, Bool.and_eq_true] at h
    obtain ⟨d, hd, rfl⟩ := exists_digitChar (c := c) (by simpa using h.2)
    have hlast : digitsValue [digitChar d] = d := by simp [digitsValue, digitValue_digitChar hd]
    have := ih h.1
    rw [digitsValue_append, hlast, List.length_append, List.length_singleton, pow_succ]
    omega

end Text

namespace Timestamp

section Padded

variable {width n : Nat}

theorem all_isDigit_padded (width n : Nat) : (padded width n).all isDigit = true := by
  unfold padded
  rw [List.all_append, Text.all_isDigit_natDigits, Bool.and_true, List.all_replicate]
  simp
  right
  decide

theorem digitsValue_padded (width n : Nat) : digitsValue (padded width n) = n := by
  unfold padded
  rw [Text.digitsValue_append, Text.digitsValue_zeros, Text.digitsValue_natDigits, Nat.zero_mul,
    Nat.zero_add]

theorem length_padded (hw : 0 < width) (h : n < 10 ^ width) : (padded width n).length = width := by
  have := Text.length_natDigits_le hw h
  unfold padded
  rw [List.length_append, List.length_replicate]
  omega

/-- A number that was written with leading zeros is read with them. -/
theorem takeDigits_padded (hw : 0 < width) (h : n < 10 ^ width) (rest : List Char) :
    takeDigits width (padded width n ++ rest) = some (n, rest) := by
  have hlength := length_padded hw h
  have htake : (padded width n ++ rest).take width = padded width n := List.take_left' hlength
  have hdrop : (padded width n ++ rest).drop width = rest := List.drop_left' hlength
  unfold takeDigits
  dsimp only
  rw [htake, hdrop, hlength, all_isDigit_padded, digitsValue_padded]
  simp

/-- Nine digits are the nanoseconds themselves. -/
theorem takeFraction_padded (h : n < 10 ^ 9) (zone : List Char) :
    takeFraction ('.' :: (padded 9 n ++ 'Z' :: zone)) = some (n, 'Z' :: zone) := by
  have hdigits : ∀ c ∈ padded 9 n, isDigit c = true :=
    List.all_eq_true.mp (all_isDigit_padded 9 n)
  have hend : Json.Numeral.NoDigit ('Z' :: zone) := by
    intro c r hc
    cases hc
    rfl
  have hlength := length_padded (by decide) h
  have hfraction : fractionNanos (padded 9 n) = n := by
    unfold fractionNanos
    dsimp only
    rw [List.take_of_length_le hlength.le, hlength, digitsValue_padded]
    exact Nat.mul_one n
  have hne : (padded 9 n).isEmpty = false := by
    rw [List.isEmpty_eq_false_iff, ← List.length_pos_iff, hlength]
    decide
  simp only [takeFraction]
  rw [Json.Numeral.takeWhile_digits hdigits hend, Json.Numeral.dropWhile_digits hdigits hend,
    hfraction, hne]
  rfl

end Padded

/-! ### Fields and their text -/

/-- Fields that the strict grammar can spell: a year of four digits, two digits for
    everything else, and the zone of UTC. -/
structure Fields.Spelled (f : Fields) : Prop where
  year : 0 ≤ f.date.year ∧ f.date.year ≤ 9999
  month : f.date.month < 10 ^ 2
  day : f.date.day < 10 ^ 2
  hour : f.hour < 10 ^ 2
  minute : f.minute < 10 ^ 2
  second : f.second < 10 ^ 2
  nanos : f.nanos < 10 ^ 9
  offset : f.offset = 0

theorem takeChar_self (c : Char) (cs : List Char) : takeChar c (c :: cs) = some cs := by
  simp [takeChar]

theorem takeSeparator_T (cs : List Char) : takeSeparator ('T' :: cs) = some cs := rfl

/-- What can be spelled is read back. -/
theorem readFields_clockChars {f : Fields} (h : f.Spelled) :
    readFields (clockChars f ++ '.' :: padded 9 f.nanos ++ ['Z']) = some f := by
  obtain ⟨hlow, hhigh⟩ := h.year
  have hyear : yearChars f.date.year = padded 4 f.date.year.toNat := by
    unfold yearChars
    rw [if_pos (by simp [hlow, hhigh])]
  have four (rest : List Char) := takeDigits_padded (show 0 < 4 by decide)
    (show f.date.year.toNat < 10 ^ 4 by omega) rest
  have two {n : Nat} (hn : n < 10 ^ 2) (rest : List Char) :=
    takeDigits_padded (show 0 < 2 by decide) hn rest
  unfold clockChars readFields
  rw [hyear]
  -- Every part is taken off in its turn.
  simp only [List.append_assoc, List.cons_append]
  refine Option.bind_eq_some_iff.mpr ⟨_, four _, ?_⟩
  refine Option.bind_eq_some_iff.mpr ⟨_, takeChar_self _ _, ?_⟩
  refine Option.bind_eq_some_iff.mpr ⟨_, two h.month _, ?_⟩
  refine Option.bind_eq_some_iff.mpr ⟨_, takeChar_self _ _, ?_⟩
  refine Option.bind_eq_some_iff.mpr ⟨_, two h.day _, ?_⟩
  refine Option.bind_eq_some_iff.mpr ⟨_, takeSeparator_T _, ?_⟩
  refine Option.bind_eq_some_iff.mpr ⟨_, two h.hour _, ?_⟩
  refine Option.bind_eq_some_iff.mpr ⟨_, takeChar_self _ _, ?_⟩
  refine Option.bind_eq_some_iff.mpr ⟨_, two h.minute _, ?_⟩
  refine Option.bind_eq_some_iff.mpr ⟨_, takeChar_self _ _, ?_⟩
  refine Option.bind_eq_some_iff.mpr ⟨_, two h.second _, ?_⟩
  refine Option.bind_eq_some_iff.mpr ⟨_, takeFraction_padded h.nanos _, ?_⟩
  refine Option.bind_eq_some_iff.mpr ⟨(0, []), rfl, ?_⟩
  dsimp only
  rw [List.isEmpty_nil, if_pos rfl, Int.toNat_of_nonneg hlow, ← h.offset]

/-! ### Instants and their fields -/

variable {t : Timestamp}

theorem isSupported_iff {seconds : Int} {nanos : Nat} : isSupported seconds nanos = true ↔
    firstSecond ≤ seconds ∧ seconds ≤ lastSecond ∧
      (nanos < nanosPerSecond ∨ nanos < 2 * nanosPerSecond ∧ seconds % 60 = 59) := by
  simp [isSupported, and_assoc]

/-- An instant lies in a year or later just if its second does. -/
theorem le_year_iff {y : Int} : y ≤ t.fields.date.year ↔ yearStart y * 86400 ≤ t.seconds := by
  have hyear : t.fields.date.year = yearOfDay (t.seconds / 86400) := rfl
  rw [hyear, le_yearOfDay_iff]
  omega

theorem ofUnix?_self (t : Timestamp) : ofUnix? t.seconds t.nanos = some t := by
  unfold ofUnix?
  rw [dif_pos t.supported]

theorem seconds_of_ofUnix? {seconds : Int} {nanos : Nat} (h : ofUnix? seconds nanos = some t) :
    t.seconds = seconds := by
  unfold ofUnix? at h
  split at h
  · cases h
    rfl
  · cases h

/-- A leap second is the sixtieth of its minute and keeps what it has above a billion
    nanoseconds. -/
theorem second_cases (t : Timestamp) :
    (t.nanos < nanosPerSecond ∧ t.fields.second = (t.seconds % 60).toNat ∧
        t.fields.nanos = t.nanos) ∨
      (t.seconds % 60 = 59 ∧ t.fields.second = 60 ∧ t.fields.nanos < nanosPerSecond ∧
        nanosPerSecond + t.fields.nanos = t.nanos) := by
  obtain ⟨_, _, hnanos⟩ := isSupported_iff.mp t.supported
  unfold fields
  dsimp only
  by_cases hleap : nanosPerSecond ≤ t.nanos
  · right
    simp only [if_pos hleap]
    omega
  · left
    simp only [if_neg hleap, and_true]
    omega

/-- The clock of an instant counts from midnight. -/
theorem fields_clock (t : Timestamp) : t.fields.hour < 24 ∧ t.fields.minute < 60 ∧
    t.fields.second ≤ 60 ∧ t.fields.nanos < nanosPerSecond ∧
    t.fields.hour * 3600 + t.fields.minute * 60 + min t.fields.second 59 =
      (t.seconds % 86400).toNat := by
  have hhour : t.fields.hour = (t.seconds % 86400).toNat / 3600 := rfl
  have hminute : t.fields.minute = (t.seconds % 86400).toNat / 60 % 60 := rfl
  rcases second_cases t with ⟨hnanos, hsecond, hkept⟩ | ⟨hlast, hsecond, hnanos, _⟩ <;> omega

/-- The fields of an instant name it. -/
theorem ofFields?_fields (t : Timestamp) : ofFields? t.fields = some t := by
  obtain ⟨hfirst, hlast, _⟩ := isSupported_iff.mp t.supported
  obtain ⟨hvalid, hdays⟩ := Date.ofDays_spec (t.seconds / 86400)
  obtain ⟨hhour, hminute, hsecond, _, hclock⟩ := fields_clock t
  have hlow : firstYear ≤ t.fields.date.year := le_year_iff.mpr hfirst
  have hhigh : t.fields.date.year ≤ lastYear := by
    have hnext : ¬ lastYear + 1 ≤ t.fields.date.year := by
      rw [le_year_iff]
      have : yearStart (lastYear + 1) * 86400 = lastSecond + 1 := by decide
      omega
    omega
  have hdate : Date.ofDays (t.seconds / 86400) = t.fields.date := rfl
  rw [hdate] at hvalid hdays
  have hoffset : t.fields.offset = 0 := rfl
  have htime : t.fields.date.toDays * 86400 + t.fields.hour * 3600 + t.fields.minute * 60 +
      (min t.fields.second 59 : Nat) - t.fields.offset = t.seconds := by
    rw [hdays, hoffset]
    omega
  have hnanos : (if t.fields.second = 60 then nanosPerSecond + t.fields.nanos
      else t.fields.nanos) = t.nanos := by
    rcases second_cases t with ⟨_, hsecond, hkept⟩ | ⟨_, hsecond, _, hkept⟩
    · rw [if_neg (by omega), hkept]
    · rw [if_pos hsecond, hkept]
  unfold ofFields?
  rw [if_pos (by simp [hlow, hhigh, hvalid, hhour, hminute, hsecond, hoffset])]
  dsimp only
  rw [hnanos, htime]
  exact ofUnix?_self t

/-! ### Instants and their texts -/

/-- The instants whose year in UTC has four digits. -/
def InFourDigitYears (t : Timestamp) : Prop :=
  0 ≤ t.fields.date.year ∧ t.fields.date.year ≤ 9999

/-- From 0000-01-01 up to the last second of 9999-12-31. -/
theorem inFourDigitYears_iff :
    t.InFourDigitYears ↔ -62167219200 ≤ t.seconds ∧ t.seconds < 253402300800 := by
  have hfirst : yearStart 0 * 86400 = -62167219200 := by decide
  have hend : yearStart 10000 * 86400 = 253402300800 := by decide
  have hlow : 0 ≤ t.fields.date.year ↔ -62167219200 ≤ t.seconds := by rw [le_year_iff, hfirst]
  have hhigh : 10000 ≤ t.fields.date.year ↔ 253402300800 ≤ t.seconds := by rw [le_year_iff, hend]
  unfold InFourDigitYears
  omega

theorem spelled_fields (h : t.InFourDigitYears) : t.fields.Spelled := by
  obtain ⟨hhour, hminute, hsecond, hnanos, _⟩ := fields_clock t
  have hvalid : t.fields.date.isValid = true := (Date.ofDays_spec (t.seconds / 86400)).1
  obtain ⟨_, hmonth, _, hday⟩ := Date.isValid_iff.mp hvalid
  have hlength := Calendar.daysInMonth_le t.fields.date.year hmonth
  exact ⟨h, by omega, by omega, by omega, by omega, by omega, hnanos, rfl⟩

/-- The characters of a text are digits, signs, separators and the letters of UTC, none
    of them a blank. -/
theorem isBlank_chars {c : Char} (h : c ∈ t.chars) : isBlank c = false := by
  have digit (width n : Nat) (hc : c ∈ padded width n) : isBlank c = false :=
    Text.isBlank_of_isDigit (List.all_eq_true.mp (all_isDigit_padded width n) c hc)
  have year (hc : c ∈ yearChars t.fields.date.year) : isBlank c = false := by
    unfold yearChars at hc
    split at hc
    · exact digit _ _ hc
    · rcases List.mem_cons.mp hc with rfl | hc
      · split <;> rfl
      · exact digit _ _ hc
  simp only [chars, clockChars, List.mem_append, List.mem_cons, List.not_mem_nil, or_false] at h
  rcases h with (((((((hy | rfl | hm) | rfl | hd) | rfl | hh) | rfl | hmin) | rfl | hs) | rfl | hn)
    | rfl)
  all_goals first | rfl | exact year ‹_› | exact digit _ _ ‹_›

theorem read_chars_eq (t : Timestamp) : read t.chars = (readFields t.chars).bind ofFields? := by
  unfold read
  rw [Text.trimChars_of_forall fun c hc => isBlank_chars hc]

/-- A text with a sign in front has no year for the grammar. -/
theorem readFields_sign {c : Char} (h : isDigit c = false) (cs : List Char) :
    readFields (c :: cs) = none := by
  have htake : takeDigits 4 (c :: cs) = none := by
    simp [takeDigits, h]
  unfold readFields
  rw [htake]
  rfl

/-- An instant reads back from its text if its year has four digits. Any other year has a
    sign, and then its text is no text of the grammar at all. -/
theorem read_chars_cases (t : Timestamp) :
    (t.InFourDigitYears ∧ read t.chars = some t) ∨
      (¬ t.InFourDigitYears ∧ read t.chars = none) := by
  rw [read_chars_eq]
  by_cases h : t.InFourDigitYears
  · have hfields : readFields t.chars = some t.fields := readFields_clockChars (spelled_fields h)
    rw [hfields]
    exact .inl ⟨h, ofFields?_fields t⟩
  · right
    have hyear : ¬ ((decide (0 ≤ t.fields.date.year) &&
        decide (t.fields.date.year ≤ 9999)) = true) := by
      simpa [InFourDigitYears] using h
    refine ⟨h, ?_⟩
    unfold chars clockChars yearChars
    rw [if_neg hyear]
    simp only [List.cons_append]
    rw [readFields_sign (by split <;> rfl)]
    rfl

/-! ### Texts and their zones -/

theorem lt_of_takeDigits {n k : Nat} {cs rest : List Char} (h : takeDigits n cs = some (k, rest)) :
    k < 10 ^ n := by
  unfold takeDigits at h
  dsimp only at h
  split at h
  · next hds =>
    rw [Bool.and_eq_true, decide_eq_true_eq] at hds
    obtain ⟨hlength, hdigits⟩ := hds
    cases h
    have hlt := Text.digitsValue_lt hdigits
    rwa [hlength] at hlt
  · cases h

/-- The year of a text has four digits. -/
theorem year_of_readFields {cs : List Char} {f : Fields} (h : readFields cs = some f) :
    0 ≤ f.date.year ∧ f.date.year < 10000 := by
  unfold readFields at h
  obtain ⟨⟨year, rest⟩, hyear, h⟩ := Option.bind_eq_some_iff.mp h
  have hlt := lt_of_takeDigits hyear
  -- The parts that follow do not change it.
  iterate 12 obtain ⟨_, _, h⟩ := Option.bind_eq_some_iff.mp h
  dsimp only at h
  split at h
  · cases h
    dsimp only
    omega
  · cases h

/-- The seconds since midnight that a clock shows; a leap second counts as the one before. -/
def Fields.clock (f : Fields) : Nat := f.hour * 3600 + f.minute * 60 + min f.second 59

/-- The instant of fields lies as far from the local midnight as the clock shows, less the
    zone. -/
theorem ofFields?_cases {f : Fields} (h : ofFields? f = some t) :
    f.date.isValid = true ∧ f.clock < 86400 ∧ -86400 < f.offset ∧ f.offset < 86400 ∧
      t.seconds = f.date.toDays * 86400 + f.clock - f.offset := by
  unfold ofFields? at h
  split at h
  · next hf =>
    simp only [Bool.and_eq_true, decide_eq_true_eq] at hf
    obtain ⟨⟨⟨⟨⟨⟨⟨_, _⟩, hvalid⟩, hhour⟩, hminute⟩, hsecond⟩, hlow⟩, hhigh⟩ := hf
    have hseconds := seconds_of_ofUnix? h
    unfold Fields.clock
    exact ⟨hvalid, by omega, hlow, hhigh, by omega⟩
  · cases h

/-- The instant of a text with a year of four digits lies in another year in UTC just if
    its zone takes it over the first or the last midnight. -/
theorem inFourDigitYears_iff_zone {f : Fields} (hyear : 0 ≤ f.date.year ∧ f.date.year < 10000)
    (h : ofFields? f = some t) : t.InFourDigitYears ↔
      (f.date = ⟨0, 1, 1⟩ → f.offset ≤ f.clock) ∧
        (f.date = ⟨9999, 12, 31⟩ → f.clock < 86400 + f.offset) := by
  obtain ⟨hvalid, hclock, hlow, hhigh, hseconds⟩ := ofFields?_cases h
  obtain ⟨hstart, hend⟩ := Date.toDays_bounds hvalid
  -- A date is the one with its day number.
  have day {d : Date} (hd : d.isValid = true) : f.date = d ↔ f.date.toDays = d.toDays := by
    constructor
    · intro heq
      rw [heq]
    · intro heq
      rw [← Date.ofDays_toDays hvalid, heq, Date.ofDays_toDays hd]
  have hfirst : (⟨0, 1, 1⟩ : Date).toDays = -719528 := by decide
  have hlast : (⟨9999, 12, 31⟩ : Date).toDays = 2932896 := by decide
  have hleast : -719528 ≤ f.date.toDays := by
    have hnot := mt Calendar.yearStart_lt_iff.mp (show ¬ f.date.year < 0 by omega)
    have : yearStart 0 = -719528 := by decide
    omega
  have hmost : f.date.toDays ≤ 2932896 := by
    have hnot := mt Calendar.yearStart_lt_iff.mp (show ¬ 10000 < f.date.year + 1 by omega)
    have : yearStart 10000 = 2932897 := by decide
    omega
  rw [inFourDigitYears_iff, day (by decide), day (by decide), hfirst, hlast]
  omega

end Timestamp

end EntityBook
