import EntityBook.Text.Hex

/-! # TOML strings

  The four ways TOML quotes a string: basic and literal, on one line or over
  several. Basic strings know escapes, literal ones take everything as it
  stands. A string over several lines loses the newline behind its opening
  quotes, and its line ends count as single newlines.

  The package toml reads TOML 1.0, where the escapes `\e` and `\x` are unknown and a
  comment holds no control character but the tab.
-/

namespace EntityBook.Toml

/-! ### Blanks, newlines and comments -/

/-- A blank within a line. -/
def isBlank (c : Char) : Bool := c = ' ' || c = '\t'

/-- Drops the blanks of a line. -/
def skipBlanks (cs : List Char) : List Char := cs.dropWhile isBlank

/-- Takes a newline, with or without a carriage return. -/
def takeNewline : List Char → Option (List Char)
  | '\n' :: r => some r
  | '\r' :: '\n' :: r => some r
  | _ => none

/-- The characters that may stand in a comment or a string: no control but the
    tab. -/
def isPlain (c : Char) : Bool := c = '\t' || (0x20 ≤ c.toNat && c.toNat ≠ 0x7F)

/-- Drops a comment, if there is one. -/
def skipComment : List Char → List Char
  | '#' :: r => r.dropWhile isPlain
  | cs => cs

/-- Takes the end of a line: blanks, a comment, and a newline or the end. -/
def takeLineEnd (cs : List Char) : Option (List Char) :=
  match skipComment (skipBlanks cs) with
  | [] => some []
  | r => takeNewline r

/-- Drops blanks, newlines and comments. -/
def skipLines : (fuel : Nat) → List Char → List Char
  | 0, cs => cs
  | fuel + 1, cs =>
    let r := skipComment (skipBlanks cs)
    match takeNewline r with
    | some r => skipLines fuel r
    | none => r

/-! ### Escapes -/

/-- The character of a short escape. -/
def shortEscape (c : Char) : Option Char :=
  match c with
  | 'b' => some '\x08'
  | 't' => some '\t'
  | 'n' => some '\n'
  | 'f' => some '\x0c'
  | 'r' => some '\r'
  | '"' => some '"'
  | '\\' => some '\\'
  | _ => none

/-- The character with a given code point, surrogates excluded. -/
def charOfCode? (n : Nat) : Option Char :=
  if h : n.isValidChar then some (Char.ofNatAux n h) else none

/-- Takes the rest of an escape after its backslash. -/
def takeEscape : List Char → Option (Char × List Char)
  | 'u' :: r =>
    if r.length < 4 then none
    else ((Text.readHex (r.take 4)).bind charOfCode?).map fun c => (c, r.drop 4)
  | 'U' :: r =>
    if r.length < 8 then none
    else ((Text.readHex (r.take 8)).bind charOfCode?).map fun c => (c, r.drop 8)
  | e :: r => (shortEscape e).map fun c => (c, r)
  | [] => none

/-! ### Strings on one line -/

/-- Takes the rest of a basic string after its opening quote. -/
def takeBasic : (fuel : Nat) → List Char → Option (List Char × List Char)
  | 0, _ => none
  | _ + 1, [] => none
  | fuel + 1, c :: r =>
    if c = '"' then some ([], r)
    else if c = '\\' then do
      let (c, r) ← takeEscape r
      let (cs, r) ← takeBasic fuel r
      some (c :: cs, r)
    else if isPlain c then do
      let (cs, r) ← takeBasic fuel r
      some (c :: cs, r)
    else none

/-- Takes the rest of a literal string after its opening quote. -/
def takeLiteral (cs : List Char) : Option (List Char × List Char) :=
  let body := cs.takeWhile fun c => isPlain c && c ≠ '\''
  match cs.drop body.length with
  | '\'' :: r => some (body, r)
  | _ => none

/-! ### Strings over several lines -/

/-- Drops the newline behind the opening quotes. -/
def skipFirstNewline (cs : List Char) : List Char := (takeNewline cs).getD cs

/-- Counts the quotes in front, five at most. -/
def countQuotes (q : Char) (cs : List Char) : Nat := ((cs.take 5).takeWhile (· = q)).length

/-- Drops blanks and newlines after a backslash at the end of a line. -/
def skipContinuation : List Char → List Char
  | '\r' :: '\n' :: r => skipContinuation r
  | c :: r => if c = ' ' || c = '\t' || c = '\n' then skipContinuation r else c :: r
  | [] => []

/-- Takes the rest of a string over several lines. Three quotes end it; one or
    two more in front of them belong to the string. `escapes` tells basic strings
    from literal ones. -/
def takeLong (q : Char) (escapes : Bool) : (fuel : Nat) → List Char →
    Option (List Char × List Char)
  | 0, _ => none
  | _ + 1, [] => none
  | fuel + 1, c :: r =>
    let quotes := countQuotes q (c :: r)
    if 3 ≤ quotes then some (List.replicate (quotes - 3) q, (c :: r).drop quotes)
    else if c = '\\' && escapes then
      match takeNewline (skipBlanks r) with
      | some r => takeLong q escapes fuel (skipContinuation r)
      | none => do
        let (c, r) ← takeEscape r
        let (cs, r) ← takeLong q escapes fuel r
        some (c :: cs, r)
    else
      match takeNewline (c :: r) with
      | some r => do
        let (cs, r) ← takeLong q escapes fuel r
        some ('\n' :: cs, r)
      | none =>
        if isPlain c then do
          let (cs, r) ← takeLong q escapes fuel r
          some (c :: cs, r)
        else none

/-- Takes a string of any kind, if the text begins with a quote. -/
def takeString (cs : List Char) : Option (List Char × List Char) :=
  let fuel := cs.length + 1
  match cs with
  | '"' :: '"' :: '"' :: r => takeLong '"' true fuel (skipFirstNewline r)
  | '\'' :: '\'' :: '\'' :: r => takeLong '\'' false fuel (skipFirstNewline r)
  | '"' :: r => takeBasic fuel r
  | '\'' :: r => takeLiteral r
  | _ => none

end EntityBook.Toml
