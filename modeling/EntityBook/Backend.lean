import EntityBook.Instance.Basic

/-! # Backends

  A backend hears when the outermost edit of an instance begins and when it is
  committed, and may refuse the commit. It can remember what it heard, so its
  verdict is a function of all earlier calls and of the instance.
-/

namespace EntityBook

/-- A call to a backend. -/
inductive BackendCall (P : PayloadFamily) where
  /-- The outermost edit of the instance begins. -/
  | begin (subject : Instance P)
  /-- The outermost edit closes; whether the backend accepted. -/
  | commit (subject : Instance P) (accepted : Bool)

/-- The decisions of a backend. -/
structure Backend (P : PayloadFamily) where
  /-- The reason to refuse a commit, `none` to accept it. The calls are those
      before it, latest last. -/
  refusal : List (BackendCall P) → Instance P → Option String

namespace Backend

variable {P : PayloadFamily}

/-- The backend that accepts every commit. -/
def accepting : Backend P := ⟨fun _ _ => none⟩

instance : Inhabited (Backend P) := ⟨accepting⟩

end Backend

/-! ### Policies -/

/-- Which commits a backend refuses. -/
inductive RefusalPolicy where
  /-- All of them. -/
  | always
  /-- Those with one of these ordinals, counted from one, and those of instances
      of one of these types. -/
  | listed (ordinals : List Nat) (types : List TypeTag)

/-- The number of commits among calls. -/
def BackendCall.commits {P : PayloadFamily} (calls : List (BackendCall P)) : Nat :=
  calls.countP fun c => match c with
    | .commit _ _ => true
    | .begin _ => false

/-- The backend that refuses what a policy names, always for the same reason. -/
def Backend.refusing {P : PayloadFamily} (policy : RefusalPolicy) (reason : String) : Backend P where
  refusal calls i :=
    let refused := match policy with
      | .always => true
      | .listed ordinals types =>
        ordinals.contains (BackendCall.commits calls + 1) || types.contains i.entity.typeTag
    if refused then some reason else none

end EntityBook
