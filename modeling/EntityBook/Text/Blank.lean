/-! # Blank characters

  Texts that people type come with blanks around them. Every reader of this
  library that is lenient about them uses `trimChars`, which drops the characters
  with Unicode's `White_Space` property from both ends and nothing else.
-/

namespace EntityBook.Text

/-- The characters with the `White_Space` property: 25 code points. -/
def isBlank (c : Char) : Bool :=
  let n := c.toNat
  (9 ≤ n && n ≤ 13) || n == 0x20 || n == 0x85 || n == 0xA0 || n == 0x1680 ||
    (0x2000 ≤ n && n ≤ 0x200A) || n == 0x2028 || n == 0x2029 || n == 0x202F ||
    n == 0x205F || n == 0x3000

/-- Drops the blanks at both ends of a list of characters. -/
def trimChars (cs : List Char) : List Char :=
  ((cs.dropWhile isBlank).reverse.dropWhile isBlank).reverse

/-- A text with no blank at either end is left alone. -/
theorem trimChars_eq_self {cs : List Char} (hfirst : ∀ c ∈ cs.head?, isBlank c = false)
    (hlast : ∀ c ∈ cs.getLast?, isBlank c = false) : trimChars cs = cs := by
  have drop : ∀ xs : List Char, (∀ c ∈ xs.head?, isBlank c = false) →
      xs.dropWhile isBlank = xs := by
    intro xs hx
    cases xs with
    | nil => rfl
    | cons c r => simp [hx c (by simp)]
  unfold trimChars
  rw [drop cs hfirst, drop cs.reverse (by simpa [List.head?_reverse] using hlast),
    List.reverse_reverse]

end EntityBook.Text
