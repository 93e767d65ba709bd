import Argot.Text.Spelling
/-!
# Value — what a JSON text says

Numbers keep their spelling, with whole numbers and others told apart.  The members of an object stand in the order of
their keys' first occurrence.  A string, or the key of a member, may hold halves of surrogate pairs.
-/
namespace Argot
namespace Json

/-- A JSON value. -/
inductive Value where
  | null
  | boolean (b : Bool)
  | number (spelling : String)
  | string (s : Spelling)
  | array (items : List Value)
  | object (members : List (Spelling × Value))
  deriving Inhabited

/-- The members with one written: in place if its key occurs, else at the end. -/
def writeMember (key : Spelling) (v : Value) : List (Spelling × Value) → List (Spelling × Value)
  | [] => [(key, v)]
  | (k, w) :: rest => if k = key then (k, v) :: rest else (k, w) :: writeMember key v rest

def member? (key : Spelling) : List (Spelling × Value) → Option Value
  | [] => none
  | (k, v) :: rest => if k = key then some v else member? key rest

def Value.ofNat (n : Nat) : Value := .number (toString n)

end Json
end Argot
