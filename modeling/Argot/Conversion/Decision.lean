import Argot.Options
import Argot.Source.Kind
import Argot.Vocabulary.Category
/-!
# Decision — which tokens are converted

The decision about a token rests on its surroundings alone and looks nothing up: it says whether a lookup is allowed and
to which category it is limited.  The first rule that speaks about a token decides.

Names of the runtime's globals are kept, as are comments, template texts, strings, property names and the imported or
exported side of a specifier.  Of strings, the value of a metadata key is converted; of property names, the name of a
called method and of a declared one; of markup tags, those of React.
-/
namespace Argot

/-- What a decision may look at. -/
structure Context where
  kind : Kind
  parent : Kind
  slot : Option String
  text : String
  framework : Framework := .plain
  owner : Option String := none
  deriving DecidableEq, Repr

/-- What is done with a token. -/
inductive Action where
  | substitute
  | skip
  | annotate
  deriving DecidableEq, Repr

def Action.name : Action → String
  | .substitute => "substitute"
  | .skip => "skip"
  | .annotate => "annotate"

/-- What is done with a token, the category its lookup is limited to, and why. -/
structure Decision where
  action : Action
  category : Option Category := none
  reason : String
  deriving DecidableEq, Repr

namespace Decision

def substitutes (d : Decision) : Bool :=
  d.action == .substitute

def skip (reason : String) : Decision := { action := .skip, reason }

def substitute (reason : String) (category : Option Category := none) : Decision :=
  { action := .substitute, category, reason }

def runtimeGlobals : List String :=
  ["console", "window", "document", "global", "globalThis", "process", "Buffer", "fs", "path", "__dirname",
    "__filename"]

def metadataKeys : Framework → List String
  | .angular => ["selector"]
  | _ => []

def of (c : Context) : Decision :=
  if c.kind.isNameLike && runtimeGlobals.contains c.text then skip "runtime global"
  else match c.kind with
    | .comment | .templateLiteral => skip (c.kind.name ++ " text")
    | .stringLiteral =>
      if c.parent == .propertyAssignment && c.slot == some "value"
          && c.owner.any (metadataKeys c.framework).contains then
        substitute (c.framework.name ++ " metadata value")
      else skip "string literal"
    | .identifier =>
      match c.parent with
      | .decorator => substitute "decorator name"
      | .markupElement =>
        if c.framework == .react then substitute "markup tag name" else skip "markup tag name outside react"
      | .importSpecifier | .exportSpecifier =>
        if c.slot == some "alias" then substitute "specifier alias" else skip "imported or exported name"
      | _ => substitute c.kind.name
    | .propertyName =>
      if c.parent == .methodCall && c.slot == some "property" then substitute "called method" (some .builtinMethod)
      else if c.parent == .methodDeclaration && c.slot == some "name" then substitute "method declaration name"
      else skip "property name"
    | .typeReference => substitute c.kind.name
    | .keyword => substitute "keyword"
    | .operator =>
      if c.slot == some "operator" then { action := .annotate, category := some .operator, reason := "operator" }
      else skip "not rewritable"
    | _ => skip "not rewritable"

end Decision
end Argot
