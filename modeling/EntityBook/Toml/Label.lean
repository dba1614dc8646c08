import EntityBook.Text.Hex

/-! # Writing TOML strings

  A string is written in the plainest style that can hold it: between double
  quotes where it has neither quotes nor backslashes nor line ends, between
  single quotes where those are the only trouble, and with escapes only where it
  holds control characters. A text with line ends is written over several lines,
  behind a newline of its own.

  This is how the package toml chooses between the styles when it writes settings.
-/

namespace EntityBook.Toml

/-- A control character that has to be escaped everywhere. -/
def needsEscape (c : Char) : Bool :=
  (c.toNat < 0x20 && c ≠ '\t' && c ≠ '\n') || c.toNat = 0x7F

/-- The length of the longest row of a character. -/
def longestRow (q : Char) (cs : List Char) : Nat :=
  let step := fun (acc : Nat × Nat) (c : Char) =>
    let row := if c = q then acc.1 + 1 else 0
    (row, max acc.2 row)
  (cs.foldl step (0, 0)).2

/-- The ways to write a string. -/
inductive Style where
  /-- Double quotes on one line. -/
  | basic
  /-- Single quotes on one line. -/
  | literal
  /-- Three double quotes. -/
  | longBasic
  /-- Three single quotes. -/
  | longLiteral
  deriving DecidableEq, Repr

/-- The style for a text. -/
def styleOf (cs : List Char) : Style :=
  let escapes := cs.any needsEscape
  let lines := cs.contains '\n'
  let backslash := cs.contains '\\'
  if !escapes && !lines && !backslash && !cs.contains '"' then .basic
  else if !escapes && !lines && !cs.contains '\'' then .literal
  else if !escapes && !backslash && longestRow '"' cs ≤ 2 then .longBasic
  else if !escapes && longestRow '\'' cs ≤ 2 then .longLiteral
  else if lines then .longBasic
  else .basic

/-- A character as a short escape or by its code point. -/
def escaped (c : Char) : List Char :=
  if c = '\x08' then ['\\', 'b']
  else if c = '\t' then ['\\', 't']
  else if c = '\n' then ['\\', 'n']
  else if c = '\x0c' then ['\\', 'f']
  else if c = '\r' then ['\\', 'r']
  else if c = '"' then ['\\', '"']
  else if c = '\\' then ['\\', '\\']
  else if needsEscape c then '\\' :: 'u' :: (Text.hexDigits 4 c.toNat).map Char.toUpper
  else [c]

/-- The body of a long basic string: line ends stand for themselves, and of three
    quotes in a row the third is escaped. `row` counts the quotes just written. -/
def longBody : (row : Nat) → List Char → List Char
  | _, [] => []
  | row, c :: r =>
    if c = '\n' then '\n' :: longBody 0 r
    else if c = '"' then
      if row < 2 then '"' :: longBody (row + 1) r else '\\' :: '"' :: longBody 0 r
    else escaped c ++ longBody 0 r

/-- Three quotes, and a newline if the text has one. -/
def longOpening (q : Char) (cs : List Char) : List Char :=
  [q, q, q] ++ if cs.contains '\n' then ['\n'] else []

/-- A text as a TOML string. -/
def stringChars (cs : List Char) : List Char :=
  match styleOf cs with
  | .basic => '"' :: cs.flatMap escaped ++ ['"']
  | .literal => '\'' :: cs ++ ['\'']
  | .longBasic => longOpening '"' cs ++ longBody 0 cs ++ ['"', '"', '"']
  | .longLiteral => longOpening '\'' cs ++ cs ++ ['\'', '\'', '\'']

end EntityBook.Toml
