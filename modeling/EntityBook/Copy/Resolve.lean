import EntityBook.Book.Params

/-! # Linking what waits

  A pass over the references that wait: those whose target has arrived are
  linked, those whose target is missing wait on, and those whose source is gone
  or whose link fails are dropped.
-/

namespace EntityBook

/-- The numbers of references by what became of them. -/
structure Resolution where
  /-- Those that were linked. -/
  linked : Nat := 0
  /-- Those that wait on. -/
  remaining : Nat := 0
  /-- Those that were dropped. -/
  dropped : Nat := 0
  deriving DecidableEq, Repr

namespace Book

variable {P : PayloadFamily}

/-- A pass under way: the book, the references that wait on, and the counts. -/
structure Pass (P : PayloadFamily) where
  /-- The book. -/
  book : Book P
  /-- The references that wait on. -/
  waiting : List (ReferenceRecord P) := []
  /-- The counts so far. -/
  counts : Resolution := {}

/-- Deals with one reference. -/
def Pass.step (s : Pass P) (r : ReferenceRecord P) : Pass P :=
  let drop := { s.counts with dropped := s.counts.dropped + 1 }
  if !s.book.contains r.source then { s with counts := drop }
  else if !s.book.contains r.target then { s with waiting := s.waiting ++ [r] }
  else
    match s.book.link r with
    | (.ok _, b) => { s with book := b, counts := { s.counts with linked := s.counts.linked + 1 } }
    | (.error _, b) => { s with book := b, counts := drop }

/-- Links every waiting reference whose target is there. -/
def resolvePending (b : Book P) : Resolution × Book P :=
  let (records, b) := b.takePending
  let s := records.foldl Pass.step { book := b }
  ({ s.counts with remaining := s.waiting.length }, s.book.pushPending s.waiting)

end Book

end EntityBook
