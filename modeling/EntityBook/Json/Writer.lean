import EntityBook.Json.Basic
import EntityBook.Text.Hex

/-! # Writing JSON

  Trees are written without blanks. Strings escape the quote, the backslash and
  the control characters below the space, and nothing else: five of those by their
  short escapes, the others by four lower-case digits, as serde_json writes them.
-/

namespace EntityBook.Json

/-- A character inside a string. -/
def escapeChar (c : Char) : List Char :=
  if c = '"' then ['\\', '"']
  else if c = '\\' then ['\\', '\\']
  else if c = '\x08' then ['\\', 'b']
  else if c = '\x0c' then ['\\', 'f']
  else if c = '\n' then ['\\', 'n']
  else if c = '\r' then ['\\', 'r']
  else if c = '\t' then ['\\', 't']
  else if c.toNat < 0x20 then '\\' :: 'u' :: Text.hexDigits 4 c.toNat
  else [c]

/-- A string with its quotes. -/
def stringChars (s : String) : List Char :=
  '"' :: s.toList.flatMap escapeChar ++ ['"']

/-- A string that denotes no text is written as half of a surrogate pair. -/
def textChars : Option String → List Char
  | some s => stringChars s
  | none => "\"\\ud800\"".toList

mutual

/-- The text of a tree. -/
def chars : Json → List Char
  | .null => "null".toList
  | .bool true => "true".toList
  | .bool false => "false".toList
  | .number n => n.chars
  | .string s => textChars s
  | .array items => '[' :: itemsChars items ++ [']']
  | .object members => '\x7b' :: membersChars members ++ ['\x7d']

/-- The items of an array, with commas between them. -/
def itemsChars : List Json → List Char
  | [] => []
  | [j] => j.chars
  | j :: rest => j.chars ++ ',' :: itemsChars rest

/-- The members of an object, with commas between them. -/
def membersChars : List (Option String × Json) → List Char
  | [] => []
  | [(name, j)] => textChars name ++ ':' :: j.chars
  | (name, j) :: rest => textChars name ++ ':' :: j.chars ++ ',' :: membersChars rest

end

/-- The text of a tree. -/
def text (j : Json) : String := String.ofList j.chars

end EntityBook.Json
