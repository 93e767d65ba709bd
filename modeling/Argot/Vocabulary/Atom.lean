import Argot.Text.Spelling
import Argot.Vocabulary.Category
/-!
# Atom — one vocabulary entry, and two that compete

An atom pairs a host word with the form that stands for it.  Two atoms with one form compete: going back from the form,
only one host word can be meant.
-/
namespace Argot

/-- One entry: a host word and its substituted form. -/
structure Atom where
  category : Category
  host : Spelling
  form : Spelling
  deriving DecidableEq, Repr

/-- Two atoms with one form: `kept` is what the form goes back to, `dropped` is out of reach. -/
structure Collision where
  form : Spelling
  kept : Atom
  dropped : Atom
  deriving DecidableEq, Repr

def Collision.sameCategory (c : Collision) : Bool :=
  c.kept.category == c.dropped.category

def Collision.describe (c : Collision) : String :=
  "Mapping collision " ++ (if c.sameCategory then "within a category" else "across categories") ++ ": '" ++ c.form.shown
    ++ "' is the substituted form of both '" ++ c.kept.host.shown ++ "' (" ++ c.kept.category.name ++ ") and '"
    ++ c.dropped.host.shown ++ "' (" ++ c.dropped.category.name ++ "); reverse mode resolves it to '"
    ++ c.kept.host.shown ++ "'"

end Argot
