import Argot.Text.Scalar
import Argot.Vocabulary.Atom
/-!
# Diagnostic — what a run reports

A diagnostic is a message of some severity, at a place of the source if it has one.  A run collects its diagnostics in
order and gives them with the converted text.  A run that fails has no text and one error.
-/
namespace Argot

/-- How bad a message is. -/
inductive Severity where
  | error
  | warning
  | info
  deriving DecidableEq, Repr

namespace Severity

def all : List Severity := [.error, .warning, .info]

def name : Severity → String
  | .error => "error"
  | .warning => "warning"
  | .info => "info"

def ofScalar (given : Scalar) : Except UnknownName Severity :=
  memberNamed "Severity" all name given

end Severity

/-- A line and a column, both counted from one. -/
structure Position where
  line : Int
  column : Int
  deriving DecidableEq, Repr

def Position.describe (p : Position) : String :=
  toString p.line ++ ":" ++ toString p.column

/-- A message about a source. -/
structure Diagnostic where
  message : String
  severity : Severity
  position : Option Position := none
  deriving DecidableEq, Repr

def Diagnostic.describe (d : Diagnostic) : String :=
  let place := match d.position with
    | some p => " at " ++ p.describe
    | none => ""
  "[" ++ d.severity.name ++ "]" ++ place ++ " " ++ d.message

/-- The diagnostics of a run, in order. -/
abbrev Diagnostics := List Diagnostic

namespace Diagnostics

def ofSeverity (ds : Diagnostics) (s : Severity) : Diagnostics :=
  ds.filter fun d => d.severity == s

def hasErrors (ds : Diagnostics) : Bool :=
  ds.any fun d => d.severity == .error

def ofCollisions (cs : List Collision) : Diagnostics :=
  cs.map fun c => { message := c.describe, severity := .warning }

end Diagnostics

/-- The text of a run and its diagnostics. -/
structure Outcome where
  code : String
  diagnostics : Diagnostics := []
  deriving DecidableEq, Repr

namespace Outcome

def failure (message : String) (position : Option Position := none) : Outcome :=
  { code := "", diagnostics := [{ message, severity := .error, position }] }

def hasErrors (o : Outcome) : Bool :=
  o.diagnostics.hasErrors

def errors (o : Outcome) : Diagnostics :=
  o.diagnostics.ofSeverity .error

end Outcome
end Argot
