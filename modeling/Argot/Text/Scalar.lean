import Argot.Text.Quoted
/-!
# Scalar — plain values given where a name is expected

Names of categories, frameworks and the like may be given by a value that is no text at all.  Such a value names
nothing, and the refusal shows it.
-/
namespace Argot

/-- A plain value. -/
inductive Scalar where
  | absent
  | truth (b : Bool)
  | integer (n : Int)
  | text (s : String)
  | emptyList
  deriving DecidableEq, Repr

def Scalar.describe : Scalar → String
  | .absent => "None"
  | .truth b => if b then "True" else "False"
  | .integer n => toString n
  | .text s => Text.quoted s
  | .emptyList => "[]"

/-- A value that is no member of the named enumeration. -/
structure UnknownName where
  enumeration : String
  given : Scalar
  deriving DecidableEq, Repr

def UnknownName.message (e : UnknownName) : String :=
  e.given.describe ++ " is not a valid " ++ e.enumeration

def memberNamed {α : Type} (enumeration : String) (members : List α) (name : α → String) (given : Scalar) :
    Except UnknownName α :=
  let found := match given with
    | .text s => members.find? fun m => name m == s
    | _ => none
  match found with
  | some m => .ok m
  | none => .error ⟨enumeration, given⟩

end Argot
