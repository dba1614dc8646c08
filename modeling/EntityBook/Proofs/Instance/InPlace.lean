import EntityBook.Proofs.Book.Edit

/-! # Access in place

  A program changes one instance step by step: it reaches the side-table or the payload,
  which marks the instance, and then puts the new value there. An error must come before
  the first of these steps, or something would be left behind. Here the steps are taken
  one by one, and they come to what a book runs: the functions of access, with the
  instance left alone where they answer an error.
-/

namespace EntityBook

open Book (attempt)

variable {P : PayloadFamily}

namespace Instance

/-! ### Steps -/

/-- Reaches the side-table to change it, which marks the instance. -/
def reachSlots (i : Instance P) : Instance P := { i with dirty := true }

/-- Reaches the payload to change it, which marks the instance if the payload is of the
    type. -/
def reach (i : Instance P) (t : P.Name) : Option (P.Data t) × Instance P :=
  match i.payload.as? t with
  | some d => (some d, { i with dirty := true })
  | none => (none, i)

/-- Sets a field in place. Nothing is answered if it cannot be written, otherwise whether
    the payload has the field. -/
def setField {V : Type} (i : Instance P) (f : Field P V) (v : V) : Option Bool × Instance P :=
  match f.set with
  | none => (none, i)
  | some set =>
    match i.reach f.type with
    | (some d, i) => (some true, { i with payload := ⟨f.type, set d v⟩ })
    | (none, i) => (some false, i)

/-- Writes a value through a field in place. -/
def applyField {V : Type} (i : Instance P) (p : Param P) (f : Field P V) (v : V) :
    Except StoreError Unit × Instance P :=
  match i.setField f v with
  | (some true, i) => (.ok (), i)
  | (some false, i) => (.error (i.mismatch p), i)
  | (none, i) => (.error (.readOnly p.name), i)

/-- Writes a value in place. -/
def writeInPlace (i : Instance P) (p : Param P) (v : ParamValue) :
    Except StoreError Unit × Instance P :=
  match p.accessor, v with
  | .scalar k f, .scalar l v =>
    if h : l = k then i.applyField p f (h ▸ v) else (.error (unsupported p), i)
  | .slots, .slots frame => (.ok (), { i.reachSlots with slots := frame })
  | .reference _ f, .reference v => i.applyField p f v
  | .choice f, .choice v => i.applyField p f v
  | .collection _ f, .collection v => i.applyField p f v
  | .book, _ => (.error (.readOnly p.name), i)
  | _, _ => (.error (unsupported p), i)

/-- Writes what a text reads as in place. -/
def writeTextInPlace (i : Instance P) (p : Param P) (s : String) :
    Except StoreError Unit × Instance P :=
  if p.isReadOnly then (.error (.readOnly p.name), i)
  else
    match ParamValue.parse p.kind s with
    | .ok v => i.writeInPlace p v
    | .error e => (.error (.invalidValue p.name e), i)

/-- Points a parameter at an entity in place. -/
def linkInPlace (i : Instance P) (p : Param P) (target : Entity) :
    Except StoreError Unit × Instance P :=
  match p.accessor with
  | .reference _ _ => i.writeInPlace p (.reference (some target.guid))
  | .choice _ => i.writeInPlace p (.choice (some target))
  | .collection _ f =>
    match f.read? i.payload with
    | none => (.error (i.mismatch p), i)
    | some members =>
      if members.contains target.guid then (.ok (), i)
      else i.writeInPlace p (.collection (members ++ [target.guid]))
  | _ => (.error (unsupported p), i)

/-- Copies a parameter from another instance in place. -/
def copyInPlace (source i : Instance P) (p : Param P) :
    Except StoreError Transfer × Instance P :=
  match p.accessor with
  | .book => (.ok .skipped, i)
  | .slots => (.ok .copied, { i.reachSlots with slots := source.slots })
  | .scalar _ _ =>
    if p.isReadOnly then (.ok .skipped, i)
    else
      match source.read p with
      | .error e => (.error e, i)
      | .ok v =>
        match i.writeInPlace p v with
        | (.ok _, i) => (.ok .copied, i)
        | (.error e, i) => (.error e, i)
  | _ => ((source.references p).map .deferred, i)

/-! ### What the steps come to -/

/-- A change without a result of its own, made in place. -/
def inPlace (i : Instance P) (r : Except StoreError (Instance P)) :
    Except StoreError Unit × Instance P :=
  match r with
  | .ok j => (.ok (), j)
  | .error err => (.error err, i)

theorem applyField_eq {V : Type} (i : Instance P) (p : Param P) (f : Field P V) (v : V) :
    i.applyField p f v = i.inPlace (i.writeField p f v) := by
  unfold applyField setField reach writeField
  cases f.set with
  | none => rfl
  | some set => cases i.payload.as? f.type <;> rfl

theorem writeInPlace_eq (i : Instance P) (p : Param P) (v : ParamValue) :
    i.writeInPlace p v = i.inPlace (i.write p v) := by
  unfold writeInPlace write
  cases p.accessor with
  | scalar k f =>
    cases v with
    | scalar l w =>
      dsimp only
      split
      · exact applyField_eq ..
      · rfl
    | _ => rfl
  | slots => cases v <;> rfl
  | book => rfl
  | reference t f =>
    cases v with
    | reference w => exact applyField_eq ..
    | _ => rfl
  | choice f =>
    cases v with
    | choice w => exact applyField_eq ..
    | _ => rfl
  | collection t f =>
    cases v with
    | collection w => exact applyField_eq ..
    | _ => rfl

theorem writeTextInPlace_eq (i : Instance P) (p : Param P) (s : String) :
    i.writeTextInPlace p s = i.inPlace (i.writeText p s) := by
  unfold writeTextInPlace writeText
  split
  · rfl
  · cases ParamValue.parse p.kind s with
    | ok v => exact writeInPlace_eq i p v
    | error e => rfl

theorem linkInPlace_eq (i : Instance P) (p : Param P) (t : Entity) :
    i.linkInPlace p t = i.inPlace (i.link p t) := by
  unfold linkInPlace link
  cases p.accessor with
  | reference _ f => exact writeInPlace_eq ..
  | choice f => exact writeInPlace_eq ..
  | collection _ f =>
    dsimp only
    cases f.read? i.payload with
    | none => rfl
    | some members =>
      dsimp only
      split
      · rfl
      · exact writeInPlace_eq ..
  | scalar | slots | book => rfl

theorem copyInPlace_eq (source i : Instance P) (p : Param P) :
    copyInPlace source i p = attempt (fun i => source.copyParam i p) i := by
  unfold copyInPlace attempt copyParam
  cases p.accessor with
  | scalar k f =>
    dsimp only
    split
    · rfl
    · cases source.read p with
      | error e => rfl
      | ok v =>
        dsimp only
        rw [writeInPlace_eq]
        cases i.write p v <;> rfl
  | slots | book => rfl
  | reference | choice | collection => cases source.references p <;> rfl

end Instance

end EntityBook
