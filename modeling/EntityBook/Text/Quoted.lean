import EntityBook.Text.Hex
import EntityBook.Text.Unprintable

/-! # Quoted text

  How messages show a text or a single character: between quotes, with the
  usual short escapes, and with every character that would not show written
  as its code point in braces.
-/

namespace EntityBook.Text

/-- A character by its code point, such as `\u{200b}`. -/
def codePointEscape (c : Char) : List Char :=
  ['\\', 'u', '\x7b'] ++ hexNat c.toNat ++ ['\x7d']

/-- A character inside quotes of the kind `mark`; only that mark is escaped. -/
def quotedChar (mark c : Char) : List Char :=
  if c = '\x00' then ['\\', '0']
  else if c = '\t' then ['\\', 't']
  else if c = '\r' then ['\\', 'r']
  else if c = '\n' then ['\\', 'n']
  else if c = '\\' then ['\\', '\\']
  else if c = mark then ['\\', mark]
  else if isUnprintable c then codePointEscape c
  else [c]

/-- A text in double quotes. -/
def quote (s : String) : String :=
  String.ofList ('"' :: s.toList.flatMap (quotedChar '"') ++ ['"'])

/-- A character in single quotes. -/
def quoteChar (c : Char) : String :=
  String.ofList ('\'' :: quotedChar '\'' c ++ ['\''])

end EntityBook.Text
