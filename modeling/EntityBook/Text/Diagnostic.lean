import EntityBook.Text.Quoted

/-! # Diagnostic texts

  Diagnostics show a record by its name and its fields, a list in brackets and
  an optional part by whether it is there.
-/

namespace EntityBook.Text

/-- Texts with commas between them. -/
def commaSeparated (items : List String) : String := String.intercalate ", " items

/-- A record with named fields. -/
def showRecord (name : String) (fields : List (String × String)) : String :=
  name ++ " \x7b " ++ commaSeparated (fields.map fun f => f.1 ++ ": " ++ f.2) ++ " \x7d"

/-- A list. -/
def showList (items : List String) : String := "[" ++ commaSeparated items ++ "]"

/-- A part that may be missing. -/
def showOption : Option String → String
  | some s => "Some(" ++ s ++ ")"
  | none => "None"

/-- A truth value. -/
def showBool (b : Bool) : String := if b then "true" else "false"

end EntityBook.Text
