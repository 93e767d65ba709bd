/-!
# Slice — parts of a list by signed bounds

A bound counts from the front, or from the end if it is negative.  A bound outside the list stands for its nearer end.
A part whose end comes before its beginning is empty.
-/
namespace Argot

def sliceBound (length : Nat) (bound : Int) : Nat :=
  if bound < 0 then (length + bound).toNat else min bound.toNat length

def slice {α : Type} (l : List α) (start stop : Int) : List α :=
  let first := sliceBound l.length start
  (l.drop first).take (sliceBound l.length stop - first)

def sliceFrom {α : Type} (l : List α) (start : Int) : List α :=
  l.drop (sliceBound l.length start)

end Argot
