import EntityBook.Error
import EntityBook.Json.Writer
import EntityBook.Toml.Document
import EntityBook.Toml.Label

/-! # Configuration

  The settings of a book, read from TOML or JSON texts. Settings that are not
  given have their defaults, unknown ones are ignored.
-/

namespace EntityBook

/-- The settings of a book. -/
structure Config where
  /-- How many undo operations are kept; the oldest are dropped beyond that. -/
  undoLimit : Nat := 300
  /-- Whether undo operations are recorded at all. -/
  undoEnabled : Bool := true
  /-- The label of the operation that holds the state before the first recorded
      change. -/
  baselineLabel : String := "baseline"
  deriving DecidableEq, Repr

namespace Config

open Text (natDigits)

instance : Inhabited Config := ⟨{}⟩

/-- The default settings, but without undo. -/
def withoutUndo : Config := { undoEnabled := false }

/-- The limits that fit a machine word. -/
def maxUndoLimit : Nat := Nat.pow 2 64 - 1

/-! ### TOML -/

/-- The settings of a document's top table. -/
def ofEntries? (t : Toml.Entries) : Option Config := do
  let undoLimit ← match Toml.lookup "undo_limit" t with
    | none => some ({} : Config).undoLimit
    | some (.value (.integer n)) => if 0 ≤ n then some n.toNat else none
    | some _ => none
  let undoEnabled ← match Toml.lookup "undo_enabled" t with
    | none => some ({} : Config).undoEnabled
    | some (.value (.boolean b)) => some b
    | some _ => none
  let baselineLabel ← match Toml.lookup "baseline_label" t with
    | none => some ({} : Config).baselineLabel
    | some (.value (.string s)) => some s
    | some _ => none
  some { undoLimit, undoEnabled, baselineLabel }

/-- Reads settings from a TOML document. -/
def parse (s : String) : Except StoreError Config :=
  match (Toml.read s.toList).bind ofEntries? with
  | some c => .ok c
  | none => .error .badConfig

/-- The TOML document of settings. A limit beyond the integers of TOML cannot be
    written. -/
def document (c : Config) : Except StoreError String :=
  if Int64.maxValue.toInt < c.undoLimit then .error .badConfig
  else
    .ok (String.ofList
      ("undo_limit = ".toList ++ natDigits c.undoLimit ++
        "\nundo_enabled = ".toList ++ (if c.undoEnabled then "true" else "false").toList ++
        "\nbaseline_label = ".toList ++ Toml.stringChars c.baselineLabel.toList ++ ['\n']))

/-! ### JSON -/

/-- The tree of settings. -/
def toJson (c : Config) : Json :=
  .ofMembers [("undo_limit", .ofInt c.undoLimit), ("undo_enabled", .bool c.undoEnabled),
    ("baseline_label", .ofString c.baselineLabel)]

/-- The settings of a tree. -/
def ofJson? (j : Json) : Option Config := do
  let [limit, enabled, label] ← j.record? ["undo_limit", "undo_enabled", "baseline_label"]
    | none
  let undoLimit ← match limit with
    | none => some ({} : Config).undoLimit
    | some j => (j.integerIn? 0 maxUndoLimit).map Int.toNat
  let undoEnabled ← match enabled with
    | none => some ({} : Config).undoEnabled
    | some j => j.bool?
  let baselineLabel ← match label with
    | none => some ({} : Config).baselineLabel
    | some j => j.string?
  some { undoLimit, undoEnabled, baselineLabel }

end Config

end EntityBook
