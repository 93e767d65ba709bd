import Argot.Text.Blank
import Argot.Text.LowerCase
import Argot.Text.Scalar
/-!
# Category — the lexical kinds of vocabulary entries

Each entry of a vocabulary belongs to one category.  Where no category is asked for, the categories are consulted in
the order of `Category.all`, and the first that has an answer gives it.
-/
namespace Argot

/-- The lexical category of a vocabulary entry. -/
inductive Category where
  | keyword
  | operator
  | type
  | builtinMethod
  | builtinObject
  | frameworkIdentifier
  | phrase
  deriving DecidableEq, Repr

namespace Category

def all : List Category :=
  [.keyword, .operator, .type, .builtinMethod, .builtinObject, .frameworkIdentifier, .phrase]

theorem mem_all (c : Category) : c ∈ all := by cases c <;> decide

def name : Category → String
  | .keyword => "keyword"
  | .operator => "operator"
  | .type => "type"
  | .builtinMethod => "builtin_method"
  | .builtinObject => "builtin_object"
  | .frameworkIdentifier => "framework_identifier"
  | .phrase => "phrase"

/-- A loose spelling made strict: lower case, trimmed, and underscores for hyphens and spaces. -/
def normalize (spelling : String) : String :=
  String.ofList ((Text.trim (Text.lower spelling)).toList.map fun c => if c == '-' || c == ' ' then '_' else c)

def ofSpelling? (spelling : String) : Option Category :=
  all.find? fun c => c.name == normalize spelling

def ofScalar (given : Scalar) : Except UnknownName Category :=
  let found := match given with
    | .text s => ofSpelling? s
    | _ => none
  match found with
  | some c => .ok c
  | none => .error ⟨"Category", given⟩

end Category
end Argot
