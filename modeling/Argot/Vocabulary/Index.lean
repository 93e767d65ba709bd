import Argot.OrderedMap
import Argot.Vocabulary.Atom
/-!
# Index — from forms back to host words

Atoms are read one by one, category by category in order of priority.  A form goes to the last atom that claims it
within the first category that claims it at all.  Each claim that loses is recorded as a collision, unless it is for
the host word that holds the form already.
-/
namespace Argot

/-- Which atom each form goes back to, and the collisions met on the way. -/
structure Index where
  winners : OrderedMap Spelling Atom
  collisions : List Collision

namespace Index

def empty : Index := ⟨.empty, []⟩

/-- Reads one more atom, of the same category as the last one or of a later category. -/
def claim (ix : Index) (a : Atom) : Index :=
  match ix.winners.get? a.form with
  | none => { ix with winners := ix.winners.insert a.form a }
  | some held =>
    if held.host = a.host then ix
    else if held.category = a.category then
      ⟨ix.winners.insert a.form a, ix.collisions ++ [⟨a.form, a, held⟩]⟩
    else { ix with collisions := ix.collisions ++ [⟨a.form, held, a⟩] }

def ofAtoms (atoms : List Atom) : Index :=
  atoms.foldl claim empty

end Index
end Argot
