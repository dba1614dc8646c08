import EntityBook.Toml.Value

/-! # TOML documents

  A document is a tree of tables. A header opens a table, a dotted key opens
  those on its way; neither may open again what is already there. A table that
  only lies on the way of a header may be opened by a header later, one that was
  made by a dotted key may be extended by dotted keys only.

  The modules on TOML follow the package toml, version 0.8: `Toml.Text`,
  `Toml.Value` and this one what it accepts, and `Toml.Label` how it writes a
  string. Of what it accepts only strings, integers and truth values are kept.
-/

namespace EntityBook.Toml

/-! ### Tables -/

/-- How a table came into the document. -/
inductive Origin where
  /-- Opened by a header of its own. -/
  | header
  /-- On the way of a header of another table. -/
  | passed
  /-- On the way of a dotted key. -/
  | dotted
  deriving DecidableEq, Repr

/-- What a key of a table leads to. -/
inductive Node where
  /-- A value. -/
  | value (v : Value)
  /-- A table. -/
  | table (origin : Origin) (entries : List (String × Node))
  /-- Tables opened one after the other under the same header. -/
  | tables (elements : List (List (String × Node)))

/-- The entries of a table. -/
abbrev Entries := List (String × Node)

/-- The node under a key. -/
def lookup (key : String) (t : Entries) : Option Node := (t.find? fun e => e.1 == key).map (·.2)

/-- Puts a node under a key. -/
def put (key : String) (n : Node) : Entries → Entries
  | [] => [(key, n)]
  | e :: rest => if e.1 == key then (key, n) :: rest else e :: put key n rest

/-- Changes the last element of a list. -/
def changeLast {α : Type} (f : α → Option α) : List α → Option (List α)
  | [] => none
  | [x] => (f x).map fun x => [x]
  | x :: rest => (changeLast f rest).map (x :: ·)

/-- Changes the table at the end of a path. `dotted` says whether a key or a
    header leads there: keys may only pass tables made by keys, and no header
    reaches past a value. -/
def change (dotted : Bool) (f : Origin → Entries → Option (Origin × Entries)) :
    List String → Origin → Entries → Option (Origin × Entries)
  | [], origin, t => f origin t
  | key :: path, origin, t =>
    match lookup key t with
    | none =>
      let fresh := if dotted then Origin.dotted else .passed
      (change dotted f path fresh []).map fun (o, s) => (origin, put key (.table o s) t)
    | some (.value _) => none
    | some (.table o s) =>
      if dotted && o = .header then none
      else (change dotted f path o s).map fun (o, s) => (origin, put key (.table o s) t)
    | some (.tables es) =>
      (changeLast (fun s => (change dotted f path .header s).map (·.2)) es).map
        fun es => (origin, put key (.tables es) t)

/-- Puts a value under the last part of a key. Parts in front of it must lead to
    a table made by keys. -/
def assign (key : List String) (v : Value) (t : Entries) : Option Entries :=
  match key.getLast? with
  | none => none
  | some last =>
    let path := key.dropLast
    let enter := fun (origin : Origin) (s : Entries) =>
      if (origin == .dotted) == path.isEmpty then none
      else
        match lookup last s with
        | none => some (origin, put last (.value v) s)
        | some _ => none
    (change true enter path .header t).map (·.2)

/-- Opens the table of a header. -/
def openTable (key : List String) (t : Entries) : Option Entries :=
  match key.getLast? with
  | none => none
  | some last =>
    let enter := fun (origin : Origin) (s : Entries) =>
      match lookup last s with
      | none => some (origin, put last (.table .header []) s)
      | some (.table .passed inner) => some (origin, put last (.table .header inner) s)
      | some _ => none
    (change false enter key.dropLast .header t).map (·.2)

/-- Opens one more table of a header that lists tables. -/
def openElement (key : List String) (t : Entries) : Option Entries :=
  match key.getLast? with
  | none => none
  | some last =>
    let enter := fun (origin : Origin) (s : Entries) =>
      match lookup last s with
      | none => some (origin, put last (.tables [[]]) s)
      | some (.tables es) => some (origin, put last (.tables (es ++ [[]])) s)
      | some _ => none
    (change false enter key.dropLast .header t).map (·.2)

/-! ### Values with parts -/

mutual

/-- Takes a value. -/
def takeValue : (fuel room : Nat) → List Char → Option (Value × List Char)
  | 0, _, _ => none
  | fuel + 1, room, cs =>
    match cs with
    | [] => none
    | c :: r =>
      if c = '"' || c = '\'' then
        (takeString cs).map fun (s, r) => (.string (String.ofList s), r)
      else if c = '[' then
        if room = 0 then none
        else (takeItems fuel (room - 1) r).map fun r => (.other, r)
      else if c = '\x7b' then
        if room = 0 then none
        else
          match skipBlanks r with
          | '\x7d' :: r => some (.other, r)
          | r => (takePairs fuel (room - 1) [] r).map fun r => (.other, r)
      else if c = 't' then (takeWord "rue".toList r).map fun r => (.boolean true, r)
      else if c = 'f' then (takeWord "alse".toList r).map fun r => (.boolean false, r)
      else takeNumber cs

/-- Takes the items of an array and its closing bracket; a comma may stand
    before it. -/
def takeItems : (fuel room : Nat) → List Char → Option (List Char)
  | 0, _, _ => none
  | fuel + 1, room, cs =>
    match skipLines cs.length cs with
    | ']' :: r => some r
    | r =>
      match takeValue fuel room r with
      | none => none
      | some (_, r) =>
        match skipLines r.length r with
        | ']' :: r => some r
        | ',' :: r => takeItems fuel room r
        | _ => none

/-- Takes the pairs of an inline table and its closing bracket. -/
def takePairs : (fuel room : Nat) → Entries → List Char → Option (List Char)
  | 0, _, _, _ => none
  | fuel + 1, room, t, cs =>
    match takeKey maxDepth cs with
    | some (key, '=' :: r) =>
      match takeValue fuel room (skipBlanks r) with
      | none => none
      | some (v, r) =>
        match assign key v t, skipBlanks r with
        | some _, '\x7d' :: r => some r
        | some t, ',' :: r => takePairs fuel room t r
        | _, _ => none
    | _ => none

end

/-! ### Documents -/

/-- A document that is being read: its tables, and the header that the next keys
    belong to. -/
structure Draft where
  /-- The tables so far. -/
  root : Entries
  /-- The path of the last header. -/
  header : List String

/-- Takes a header after its opening brackets. -/
def takeHeader (close : List Char) (cs : List Char) : Option (List String × List Char) := do
  let (key, r) ← takeKey maxDepth cs
  let r ← takeWord close r
  let r ← takeLineEnd r
  some (key, r)

/-- Assigns a value in the table of the last header. -/
def Draft.assign (d : Draft) (key : List String) (v : Value) : Option Draft :=
  let enter := fun (origin : Origin) (s : Entries) => (Toml.assign key v s).map fun s => (origin, s)
  (change false enter d.header .header d.root).map fun (_, root) => { d with root }

/-- Takes one line that is not empty. -/
def takeLine (d : Draft) (cs : List Char) : Option (Draft × List Char) :=
  match cs with
  | '[' :: '[' :: r => do
    let (key, r) ← takeHeader [']', ']'] r
    let root ← openElement key d.root
    some (⟨root, key⟩, r)
  | '[' :: r => do
    let (key, r) ← takeHeader [']'] r
    let root ← openTable key d.root
    some (⟨root, key⟩, r)
  | cs =>
    match takeKey maxDepth cs with
    | some (key, '=' :: r) => do
      let (v, r) ← takeValue (2 * r.length + 2) maxDepth (skipBlanks r)
      let r ← takeLineEnd r
      let d ← d.assign key v
      some (d, r)
    | _ => none

/-- Takes all lines. -/
def takeDocument : (fuel : Nat) → Draft → List Char → Option Entries
  | 0, _, _ => none
  | fuel + 1, d, cs =>
    match skipLines cs.length cs with
    | [] => some d.root
    | r =>
      match takeLine d r with
      | some (d, r) => takeDocument fuel d r
      | none => none

/-- The top table of a document; a byte order mark in front is ignored. -/
def read (cs : List Char) : Option Entries :=
  let cs := if cs.head? = some '\ufeff' then cs.drop 1 else cs
  takeDocument (cs.length + 1) ⟨[], []⟩ cs

end EntityBook.Toml
