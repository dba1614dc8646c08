import EntityBook.Json.Basic
import EntityBook.Text.Hex

/-! # Reading JSON

  The reader takes the JSON grammar and nothing more: four blanks, numerals
  without leading zeros, no comma before a closing bracket, no raw control
  character in a string. It does not limit how deep a text is nested; that is
  for those who decode the tree.

  This is what serde_json accepts as a whole text: one value with only blanks
  around it.
-/

namespace EntityBook.Json

/-! ### Blanks and strings -/

/-- The blanks of the grammar. -/
def isSpace (c : Char) : Bool := c = ' ' || c = '\n' || c = '\r' || c = '\t'

/-- Drops leading blanks. -/
def skipSpace (cs : List Char) : List Char := cs.dropWhile isSpace

/-- A piece of a string: a character, or an escaped UTF-16 code unit. -/
inductive Piece where
  /-- A character that stands for itself or has a short escape. -/
  | char (c : Char)
  /-- A code unit given by four hexadecimal digits. -/
  | codeUnit (n : Nat)
  deriving DecidableEq, Repr

/-- The character of a short escape. -/
def shortEscape (c : Char) : Option Char :=
  match c with
  | '"' => some '"'
  | '\\' => some '\\'
  | '/' => some '/'
  | 'b' => some '\x08'
  | 'f' => some '\x0c'
  | 'n' => some '\n'
  | 'r' => some '\r'
  | 't' => some '\t'
  | _ => none

/-- Takes the rest of a string after its opening quote. -/
def takePieces : List Char → Option (List Piece × List Char)
  | [] => none
  | '"' :: r => some ([], r)
  | '\\' :: 'u' :: a :: b :: c :: d :: r =>
    match Text.readHex [a, b, c, d], takePieces r with
    | some n, some (ps, r) => some (.codeUnit n :: ps, r)
    | _, _ => none
  | '\\' :: e :: r =>
    match shortEscape e, takePieces r with
    | some c, some (ps, r) => some (.char c :: ps, r)
    | _, _ => none
  | c :: r =>
    if c = '\\' || c.toNat < 0x20 then none
    else
      match takePieces r with
      | some (ps, r) => some (.char c :: ps, r)
      | none => none

/-- The first half of a surrogate pair. -/
def isHighSurrogate (n : Nat) : Bool := 0xD800 ≤ n && n < 0xDC00

/-- The second half of a surrogate pair. -/
def isLowSurrogate (n : Nat) : Bool := 0xDC00 ≤ n && n < 0xE000

/-- Joins pieces to a text; a half pair that stands alone denotes none. -/
def assemble : List Piece → Option (List Char)
  | [] => some []
  | .char c :: ps => (assemble ps).map (c :: ·)
  | .codeUnit n :: ps =>
    if isHighSurrogate n then
      match ps with
      | .codeUnit m :: qs =>
        if isLowSurrogate m then
          (assemble qs).map (Char.ofNat (0x10000 + (n - 0xD800) * 0x400 + (m - 0xDC00)) :: ·)
        else none
      | _ => none
    else if isLowSurrogate n then none
    else (assemble ps).map (Char.ofNat n :: ·)

/-- Takes the rest of a string after its opening quote, as a text if it denotes
    one. -/
def takeString (cs : List Char) : Option (Option String × List Char) :=
  match takePieces cs with
  | some (ps, r) => some ((assemble ps).map String.ofList, r)
  | none => none

/-! ### Values -/

/-- Takes a fixed word off a text. -/
def takeWord : (word : List Char) → List Char → Option (List Char)
  | [], cs => some cs
  | w :: word, c :: r => if c = w then takeWord word r else none
  | _ :: _, [] => none

mutual

/-- Takes a value off a text, blanks in front allowed. -/
def takeValue : (fuel : Nat) → List Char → Option (Json × List Char)
  | 0, _ => none
  | fuel + 1, cs =>
    match skipSpace cs with
    | [] => none
    | c :: r =>
      if c = '"' then
        match takeString r with
        | some (s, r) => some (.string s, r)
        | none => none
      else if c = '[' then
        match skipSpace r with
        | ']' :: r => some (.array [], r)
        | r =>
          match takeItems fuel r with
          | some (items, r) => some (.array items, r)
          | none => none
      else if c = '\x7b' then
        match skipSpace r with
        | '\x7d' :: r => some (.object [], r)
        | r =>
          match takeMembers fuel r with
          | some (members, r) => some (.object members, r)
          | none => none
      else if c = 'n' then (takeWord "ull".toList r).map fun r => (.null, r)
      else if c = 't' then (takeWord "rue".toList r).map fun r => (.bool true, r)
      else if c = 'f' then (takeWord "alse".toList r).map fun r => (.bool false, r)
      else (Numeral.take (c :: r)).map fun (n, r) => (.number n, r)

/-- Takes the items of a non-empty array and its closing bracket. -/
def takeItems : (fuel : Nat) → List Char → Option (List Json × List Char)
  | 0, _ => none
  | fuel + 1, cs =>
    match takeValue fuel cs with
    | none => none
    | some (j, r) =>
      match skipSpace r with
      | ']' :: r => some ([j], r)
      | ',' :: r =>
        match takeItems fuel r with
        | some (rest, r) => some (j :: rest, r)
        | none => none
      | _ => none

/-- Takes the members of a non-empty object and its closing bracket. -/
def takeMembers : (fuel : Nat) → List Char → Option (List (Option String × Json) × List Char)
  | 0, _ => none
  | fuel + 1, cs =>
    match skipSpace cs with
    | '"' :: r =>
      match takeString r with
      | none => none
      | some (name, r) =>
        match skipSpace r with
        | ':' :: r =>
          match takeValue fuel r with
          | none => none
          | some (j, r) =>
            match skipSpace r with
            | '\x7d' :: r => some ([(name, j)], r)
            | ',' :: r =>
              match takeMembers fuel r with
              | some (rest, r) => some ((name, j) :: rest, r)
              | none => none
            | _ => none
        | _ => none
    | _ => none

end

/-- The tree of a text, blanks around it allowed. Two steps of fuel for each
    character are enough. -/
def read (cs : List Char) : Option Json :=
  match takeValue (2 * cs.length + 2) cs with
  | some (j, r) => if (skipSpace r).isEmpty then some j else none
  | none => none

/-- The tree of a text. -/
def parse? (s : String) : Option Json := read s.toList

end EntityBook.Json
