import EntityBook.Json.Reader
import EntityBook.Json.Writer
import EntityBook.Proofs.Json.Numeral

/-! # What is written reads back

  The reader takes off a text exactly the tree that was written there, whatever
  follows, as long as all numerals of the tree are proper. Fuel of two steps for
  each character is enough: a value takes one step, an item of a list another.
-/

namespace EntityBook

open Text (isDigit)

namespace Json

open Numeral (Ends ends_nil)

/-! ### Strings -/

/-- A piece of a string that stands for one character. -/
def pieceOf (c : Char) : Piece :=
  if c.toNat < 0x20 ∧ c ≠ '\x08' ∧ c ≠ '\x0c' ∧ c ≠ '\n' ∧ c ≠ '\r' ∧ c ≠ '\t'
    then .codeUnit c.toNat
  else .char c

/-- An escaped code unit is taken as such. -/
theorem takePieces_codeUnit {n : Nat} (h : n < 0x10000) {rest r : List Char} {ps : List Piece}
    (hr : takePieces rest = some (ps, r)) :
    takePieces ('\\' :: 'u' :: Text.hexDigits 4 n ++ rest) = some (.codeUnit n :: ps, r) := by
  have hread : Text.readHex (Text.hexDigits 4 n) = some n := by
    refine Text.readHex_hexDigits ?_
    have hpow : Nat.pow 16 4 = 65536 := rfl
    omega
  obtain ⟨a, b, c, d, hdigits⟩ : ∃ a b c d, Text.hexDigits 4 n = [a, b, c, d] := by
    have hlen := Text.length_hexDigits 4 n
    match hds : Text.hexDigits 4 n with
    | [a, b, c, d] => exact ⟨a, b, c, d, rfl⟩
    | [] | [_] | [_, _] | [_, _, _] | _ :: _ :: _ :: _ :: _ :: _ =>
      rw [hds] at hlen
      simp at hlen
  rw [hdigits] at hread ⊢
  simp only [List.cons_append, List.nil_append, takePieces, hread, hr]

/-- A written character is taken as its piece. -/
theorem takePieces_escapeChar (c : Char) {rest r : List Char} {ps : List Piece}
    (hr : takePieces rest = some (ps, r)) :
    takePieces (escapeChar c ++ rest) = some (pieceOf c :: ps, r) := by
  have short {e d : Char} (hu : e ≠ 'u') (he : shortEscape e = some d) :
      takePieces ('\\' :: e :: rest) = some (.char d :: ps, r) := by
    unfold takePieces
    split
    · next heq => cases heq
    · next heq => cases heq
    · next heq =>
      cases heq
      exact absurd rfl hu
    · next heq =>
      cases heq
      rw [he, hr]
    · next hnot heq =>
      cases heq
      exact (hnot e rest rfl rfl).elim
  unfold escapeChar pieceOf
  -- The seven characters with a short form.
  by_cases h1 : c = '"'
  · subst h1
    exact short (by decide) rfl
  by_cases h2 : c = '\\'
  · subst h2
    exact short (by decide) rfl
  by_cases h3 : c = '\x08'
  · subst h3
    exact short (by decide) rfl
  by_cases h4 : c = '\x0c'
  · subst h4
    exact short (by decide) rfl
  by_cases h5 : c = '\n'
  · subst h5
    exact short (by decide) rfl
  by_cases h6 : c = '\r'
  · subst h6
    exact short (by decide) rfl
  by_cases h7 : c = '\t'
  · subst h7
    exact short (by decide) rfl
  simp only [h1, h2, h3, h4, h5, h6, h7, if_false, ne_eq, not_false_eq_true, and_true]
  -- The other control characters are written as code units, the rest as they are.
  by_cases hc : c.toNat < 0x20
  · rw [if_pos hc, if_pos hc]
    exact takePieces_codeUnit (by omega) hr
  · rw [if_neg hc, if_neg hc]
    show takePieces (c :: rest) = _
    unfold takePieces
    split
    · next heq => cases heq
    · next heq =>
      cases heq
      exact absurd rfl h1
    · next heq =>
      cases heq
      exact absurd rfl h2
    · next heq =>
      cases heq
      exact absurd rfl h2
    · next heq =>
      cases heq
      rw [if_neg (by simp [h2, hc]), hr]

/-- The piece of a character stands for it. -/
theorem assemble_pieceOf (c : Char) (ps : List Piece) :
    assemble (pieceOf c :: ps) = (assemble ps).map (c :: ·) := by
  unfold pieceOf
  by_cases hc : c.toNat < 0x20 ∧ c ≠ '\x08' ∧ c ≠ '\x0c' ∧ c ≠ '\n' ∧ c ≠ '\r' ∧ c ≠ '\t'
  · have hhigh : isHighSurrogate c.toNat = false := by
      have hlt := hc.1
      simp [isHighSurrogate]
      omega
    have hlow : isLowSurrogate c.toNat = false := by
      have hlt := hc.1
      simp [isLowSurrogate]
      omega
    rw [if_pos hc, assemble.eq_def]
    simp only [hhigh, hlow, Bool.false_eq_true, if_false, Char.ofNat_toNat]
  · rw [if_neg hc]
    rfl

/-- The pieces of a text are joined to it again. -/
theorem assemble_pieces (cs : List Char) : assemble (cs.map pieceOf) = some cs := by
  induction cs with
  | nil => rfl
  | cons c rest ih => rw [List.map_cons, assemble_pieceOf, ih, Option.map_some]

/-- A string is taken off its own text, also one that denotes none. -/
theorem takeString_textChars (s : Option String) (rest : List Char) :
    ∃ cs, textChars s = '"' :: cs ∧ takeString (cs ++ rest) = some (s, rest) := by
  cases s with
  -- A lone surrogate denotes no text, and is read as none.
  | none =>
    have hchars : textChars none = '"' :: ('\\' :: 'u' :: Text.hexDigits 4 0xD800 ++ ['"']) := by
      decide
    refine ⟨_, hchars, ?_⟩
    have hend : takePieces ('"' :: rest) = some ([], rest) := rfl
    have hpieces := takePieces_codeUnit (n := 0xD800) (by omega) hend
    unfold takeString
    rw [List.append_assoc, List.singleton_append, hpieces]
    rfl
  | some s =>
    refine ⟨s.toList.flatMap escapeChar ++ ['"'], rfl, ?_⟩
    have hpieces (cs : List Char) : takePieces (cs.flatMap escapeChar ++ ['"'] ++ rest) =
        some (cs.map pieceOf, rest) := by
      induction cs with
      | nil => rfl
      | cons c cs ih =>
        rw [List.flatMap_cons, List.append_assoc, List.append_assoc, ← List.append_assoc _ _ rest]
        exact takePieces_escapeChar c ih
    unfold takeString
    rw [hpieces]
    dsimp only
    rw [assemble_pieces, Option.map_some, String.ofList_toList]

/-! ### Values -/

mutual

/-- All numerals of a tree are proper. -/
def Writable : Json → Prop
  | .number n => n.Proper
  | .array items => ItemsWritable items
  | .object members => MembersWritable members
  | _ => True

/-- All numerals of some trees are proper. -/
def ItemsWritable : List Json → Prop
  | [] => True
  | j :: rest => j.Writable ∧ ItemsWritable rest

/-- All numerals of the trees of members are proper. -/
def MembersWritable : List (Option String × Json) → Prop
  | [] => True
  | (_, j) :: rest => j.Writable ∧ MembersWritable rest

end

/-- A character with which a value can begin. -/
def Starts (c : Char) : Prop :=
  isSpace c = false ∧ c ≠ ']'

theorem isSpace_of_isDigit {c : Char} (h : isDigit c = true) : isSpace c = false := by
  unfold isDigit at h
  unfold isSpace
  have hne (d : Char) (hd : isDigit d = false) : c ≠ d := by
    rintro rfl
    exact absurd (hd.symm.trans h) (by simp)
  simp [hne ' ' rfl, hne '\n' rfl, hne '\r' rfl, hne '\t' rfl]

theorem exists_chars_cons {j : Json} (h : j.Writable) :
    ∃ c r, j.chars = c :: r ∧ Starts c := by
  match j with
  | .null => exact ⟨_, _, rfl, rfl, by decide⟩
  | .bool true => exact ⟨_, _, rfl, rfl, by decide⟩
  | .bool false => exact ⟨_, _, rfl, rfl, by decide⟩
  | .string s =>
    obtain ⟨cs, hcs, _⟩ := takeString_textChars s []
    exact ⟨_, _, hcs, rfl, by decide⟩
  | .array items => exact ⟨_, _, rfl, rfl, by decide⟩
  | .object members => exact ⟨_, _, rfl, rfl, by decide⟩
  | .number n =>
    obtain ⟨c, r, hn, hc⟩ := Numeral.exists_chars_cons (n := n) h
    refine ⟨c, r, hn, ?_⟩
    rcases hc with rfl | hc
    · exact ⟨rfl, by decide⟩
    · refine ⟨isSpace_of_isDigit hc, ?_⟩
      rintro rfl
      cases hc

theorem skipSpace_cons {c : Char} (h : isSpace c = false) (r : List Char) :
    skipSpace (c :: r) = c :: r := by
  simp [skipSpace, h]

theorem ends_cons {c : Char} (h : isDigit c = false ∧ c ≠ '.' ∧ c ≠ 'e' ∧ c ≠ 'E')
    (r : List Char) : Ends (c :: r) := by
  intro d r' heq
  cases heq
  exact h

/-- A numeral starts like no other value. -/
theorem takeValue_number {n : Numeral} (h : n.Proper) (fuel : Nat) {rest : List Char}
    (hr : Ends rest) : takeValue (fuel + 1) (n.chars ++ rest) = some (.number n, rest) := by
  obtain ⟨c, r, hn, hc⟩ := Numeral.exists_chars_cons h
  have hspace : isSpace c = false := by
    rcases hc with rfl | hc
    · rfl
    · exact isSpace_of_isDigit hc
  -- What starts any other value is neither a sign nor a digit.
  have hne (d : Char) (hminus : d ≠ '-') (hd : isDigit d = false) : c ≠ d := by
    rintro rfl
    rcases hc with hc | hc
    · exact hminus hc
    · exact absurd (hd.symm.trans hc) (by simp)
  have htake := Numeral.take_chars h hr
  rw [hn, List.cons_append] at htake ⊢
  rw [takeValue, skipSpace_cons hspace]
  simp only [hne '"' (by decide) rfl, hne '[' (by decide) rfl, hne '\x7b' (by decide) rfl,
    hne 'n' (by decide) rfl, hne 't' (by decide) rfl, hne 'f' (by decide) rfl, if_false, htake]
  rfl

theorem takeValue_string (s : Option String) (fuel : Nat) (rest : List Char) :
    takeValue (fuel + 1) (textChars s ++ rest) = some (.string s, rest) := by
  obtain ⟨cs, hcs, htake⟩ := takeString_textChars s rest
  rw [hcs, List.cons_append, takeValue, skipSpace_cons rfl]
  simp only [if_true, htake]

section Steps

variable {fuel : Nat} {cs r r' : List Char} {j : Json} {name : Option String}

theorem takeItems_last (h : takeValue fuel cs = some (j, ']' :: r)) :
    takeItems (fuel + 1) cs = some ([j], r) := by
  rw [takeItems, h]
  rfl

theorem takeItems_more (h : takeValue fuel cs = some (j, ',' :: r)) {items : List Json}
    (hs : takeItems fuel r = some (items, r')) :
    takeItems (fuel + 1) cs = some (j :: items, r') := by
  have hskip : skipSpace (',' :: r) = ',' :: r := skipSpace_cons (by decide) r
  rw [takeItems, h]
  simp only [hskip, hs]

/-- What follows the name of a member. -/
theorem takeMembers_name (hn : textChars name = '"' :: cs)
    (ht : takeString (cs ++ ':' :: r) = some (name, ':' :: r)) :
    takeMembers (fuel + 1) (textChars name ++ ':' :: r) =
      match takeValue fuel r with
      | none => none
      | some (j, r) =>
        match skipSpace r with
        | '\x7d' :: r => some ([(name, j)], r)
        | ',' :: r =>
          match takeMembers fuel r with
          | some (rest, r) => some ((name, j) :: rest, r)
          | none => none
        | _ => none := by
  rw [hn, List.cons_append, takeMembers, skipSpace_cons rfl]
  simp only [ht]
  rfl

end Steps

mutual

/-- A value is taken off its own text. -/
theorem takeValue_chars {j : Json} (h : j.Writable) (fuel : Nat) (rest : List Char)
    (hf : 2 * j.chars.length ≤ fuel) (hr : Ends rest) :
    takeValue fuel (j.chars ++ rest) = some (j, rest) := by
  obtain ⟨fuel, rfl⟩ : ∃ n, fuel = n + 1 := by
    obtain ⟨c, r, hj, _⟩ := exists_chars_cons h
    rw [hj, List.length_cons] at hf
    exact ⟨fuel - 1, by omega⟩
  match j with
  | .null => rfl
  | .bool true => rfl
  | .bool false => rfl
  | .number n => exact takeValue_number h fuel hr
  | .string s => exact takeValue_string s fuel rest
  | .array [] => rfl
  | .array (j :: items) =>
    have hall : j.Writable ∧ ItemsWritable items := h
    have hlen : (chars (.array (j :: items))).length = (itemsChars (j :: items)).length + 2 := by
      show ('[' :: itemsChars (j :: items) ++ [']']).length = _
      simp
    have htake : takeItems fuel (itemsChars (j :: items) ++ ']' :: rest) =
        some (j :: items, rest) := takeItems_chars hall.1 hall.2 fuel rest (by omega)
    -- The first item does not begin with the closing bracket.
    obtain ⟨c, r, hj, hspace, hclose⟩ := exists_chars_cons hall.1
    obtain ⟨r', hitems⟩ : ∃ r', itemsChars (j :: items) = c :: r' := by
      cases items with
      | nil => exact ⟨r, hj⟩
      | cons k ks =>
        refine ⟨r ++ ',' :: itemsChars (k :: ks), ?_⟩
        show j.chars ++ _ = _
        rw [hj]
        rfl
    show takeValue (fuel + 1) ('[' :: itemsChars (j :: items) ++ [']'] ++ rest) = _
    rw [List.append_assoc, List.cons_append, List.singleton_append, takeValue, skipSpace_cons rfl]
    rw [hitems, List.cons_append] at htake ⊢
    have hopen : ('[' : Char) ≠ '"' := by decide
    simp only [hopen, if_false, if_true, skipSpace_cons hspace]
    split
    · next heq =>
      cases heq
      exact absurd rfl hclose
    · rw [htake]
  | .object [] => rfl
  | .object ((name, j) :: members) =>
    have hall : j.Writable ∧ MembersWritable members := h
    have hlen : (chars (.object ((name, j) :: members))).length =
        (membersChars ((name, j) :: members)).length + 2 := by
      show ('\x7b' :: membersChars ((name, j) :: members) ++ ['\x7d']).length = _
      simp
    have htake : takeMembers fuel (membersChars ((name, j) :: members) ++ '\x7d' :: rest) =
        some ((name, j) :: members, rest) :=
      takeMembers_chars hall.1 hall.2 fuel rest (by omega)
    obtain ⟨cs, hname, _⟩ := takeString_textChars name []
    obtain ⟨r', hmembers⟩ : ∃ r', membersChars ((name, j) :: members) = '"' :: r' := by
      cases members with
      | nil =>
        refine ⟨cs ++ ':' :: j.chars, ?_⟩
        show textChars name ++ _ = _
        rw [hname]
        rfl
      | cons k ks =>
        refine ⟨cs ++ ':' :: j.chars ++ ',' :: membersChars (k :: ks), ?_⟩
        show textChars name ++ _ ++ _ = _
        rw [hname]
        rfl
    show takeValue (fuel + 1) ('\x7b' :: membersChars ((name, j) :: members) ++ ['\x7d'] ++ rest) = _
    rw [List.append_assoc, List.cons_append, List.singleton_append, takeValue, skipSpace_cons rfl]
    rw [hmembers, List.cons_append] at htake ⊢
    show (match takeMembers fuel ('"' :: (r' ++ '\x7d' :: rest)) with
      | some (members, r) => some (object members, r)
      | none => none) = _
    rw [htake]
termination_by fuel

/-- The items of an array are taken off their own text. -/
theorem takeItems_chars {j : Json} {items : List Json} (h : j.Writable)
    (hs : ItemsWritable items) (fuel : Nat) (rest : List Char)
    (hf : 2 * (itemsChars (j :: items)).length + 1 ≤ fuel) :
    takeItems fuel (itemsChars (j :: items) ++ ']' :: rest) = some (j :: items, rest) := by
  obtain ⟨fuel, rfl⟩ : ∃ n, fuel = n + 1 := ⟨fuel - 1, by omega⟩
  -- The last item ends at the bracket, any other at a comma.
  match items with
  | [] =>
    have hf : 2 * j.chars.length + 1 ≤ fuel + 1 := hf
    have hone := takeValue_chars h fuel (']' :: rest) (by omega)
      (ends_cons (by decide) _)
    exact takeItems_last hone
  | k :: ks =>
    have hsplit : itemsChars (j :: k :: ks) = j.chars ++ ',' :: itemsChars (k :: ks) := rfl
    rw [hsplit, List.length_append, List.length_cons] at hf
    have hone := takeValue_chars h fuel (',' :: (itemsChars (k :: ks) ++ ']' :: rest)) (by omega)
      (ends_cons (by decide) _)
    have hall : k.Writable ∧ ItemsWritable ks := hs
    have hmore := takeItems_chars hall.1 hall.2 fuel rest (by omega)
    rw [hsplit, List.append_assoc, List.cons_append]
    exact takeItems_more hone hmore
termination_by fuel

/-- The members of an object are taken off their own text. -/
theorem takeMembers_chars {name : Option String} {j : Json} {members : List (Option String × Json)}
    (h : j.Writable) (hs : MembersWritable members) (fuel : Nat) (rest : List Char)
    (hf : 2 * (membersChars ((name, j) :: members)).length + 1 ≤ fuel) :
    takeMembers fuel (membersChars ((name, j) :: members) ++ '\x7d' :: rest) =
      some ((name, j) :: members, rest) := by
  obtain ⟨fuel, rfl⟩ : ∃ n, fuel = n + 1 := ⟨fuel - 1, by omega⟩
  -- The last member ends at the brace, any other at a comma.
  match members with
  | [] =>
    have hsplit : membersChars [(name, j)] = textChars name ++ ':' :: j.chars := rfl
    rw [hsplit, List.length_append, List.length_cons] at hf
    have hone := takeValue_chars h fuel ('\x7d' :: rest) (by omega)
      (ends_cons (by decide) _)
    obtain ⟨cs, hname, htake⟩ := takeString_textChars name (':' :: (j.chars ++ '\x7d' :: rest))
    rw [hsplit, List.append_assoc, List.cons_append, takeMembers_name hname htake, hone]
    rfl
  | (n, k) :: ks =>
    have hsplit : membersChars ((name, j) :: (n, k) :: ks) =
        textChars name ++ ':' :: j.chars ++ ',' :: membersChars ((n, k) :: ks) := rfl
    rw [hsplit, List.length_append, List.length_append, List.length_cons, List.length_cons] at hf
    have hone := takeValue_chars h fuel
      (',' :: (membersChars ((n, k) :: ks) ++ '\x7d' :: rest)) (by omega)
      (ends_cons (by decide) _)
    have hall : k.Writable ∧ MembersWritable ks := hs
    have hmore : takeMembers fuel (membersChars ((n, k) :: ks) ++ '\x7d' :: rest) =
        some ((n, k) :: ks, rest) := takeMembers_chars hall.1 hall.2 fuel rest (by omega)
    obtain ⟨cs, hname, htake⟩ := takeString_textChars name
      (':' :: (j.chars ++ ',' :: (membersChars ((n, k) :: ks) ++ '\x7d' :: rest)))
    rw [hsplit, List.append_assoc, List.append_assoc, List.cons_append, List.cons_append,
      takeMembers_name hname htake, hone]
    show (match takeMembers fuel (membersChars ((n, k) :: ks) ++ '\x7d' :: rest) with
      | some (rest, r) => some ((name, j) :: rest, r)
      | none => none) = _
    rw [hmore]
termination_by fuel

end

/-- The text of a tree is read as the tree. -/
theorem parse?_text {j : Json} (h : j.Writable) : parse? j.text = some j := by
  have htake := takeValue_chars h (2 * j.chars.length + 2) [] (by omega) ends_nil
  rw [List.append_nil] at htake
  unfold parse? text read
  rw [String.toList_ofList, htake]
  rfl

end Json

end EntityBook
