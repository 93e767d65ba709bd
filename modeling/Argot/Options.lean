import Argot.Text.Integer
import Argot.Text.Scalar
import Argot.Text.Blank
import Argot.Text.LowerCase
/-!
# Options — how sources are converted

A framework selects vocabulary, a dialect the grammar.  Options are built from given values, changed by further values,
or read from environment variables; the framework is looked at before the dialect, and in the environment the seed
between them.
-/
namespace Argot

/-- The framework whose words are part of the vocabulary. -/
inductive Framework where
  | react
  | angular
  | vue
  | plain
  deriving DecidableEq, Repr

namespace Framework

def all : List Framework := [.react, .angular, .vue, .plain]

def name : Framework → String
  | .react => "react"
  | .angular => "angular"
  | .vue => "vue"
  | .plain => "none"

def plainWords : List String := ["", "vanilla", "node", "plain", "js", "ts"]

/-- The framework with a loose spelling: letter case and outer white space do not count, and a hyphen may follow with
anything after it. -/
def ofSpelling? (spelling : String) : Option Framework :=
  let word := Text.trim (Text.lower spelling)
  if plainWords.contains word then some .plain
  else all.find? fun f => word == f.name || (f.name ++ "-").toList.isPrefixOf word.toList

/-- The framework that a value names; no value names none. -/
def ofScalar (given : Scalar) : Except UnknownName Framework :=
  let found := match given with
    | .absent => some .plain
    | .text s => ofSpelling? s
    | _ => none
  match found with
  | some f => .ok f
  | none => .error ⟨"Framework", given⟩

end Framework

/-- The grammar that a source is parsed with. -/
inductive Dialect where
  | javascript
  | typescript
  | tsx
  deriving DecidableEq, Repr

namespace Dialect

def all : List Dialect := [.javascript, .typescript, .tsx]

def name : Dialect → String
  | .javascript => "javascript"
  | .typescript => "typescript"
  | .tsx => "tsx"

def ofScalar (given : Scalar) : Except UnknownName Dialect :=
  memberNamed "Dialect" all name given

end Dialect

/-- What the choice of sayings is made from. -/
inductive Seed where
  | number (n : Int)
  /-- A seed is asked for, but none is given; nothing can be chosen from it. -/
  | missing
  deriving DecidableEq, Repr

/-- How a source is converted. -/
structure Options where
  framework : Framework := .plain
  preserveComments : Bool := true
  strictMode : Bool := false
  /-- Whether functions and classes are decorated with sayings. -/
  randomQuotes : Bool := false
  seed : Option Seed := none
  dialect : Option Dialect := none
  deriving DecidableEq, Repr

/-- Values given for options; what is not given stays as it is. -/
structure Overrides where
  framework : Scalar := .absent
  preserveComments : Option Bool := none
  strictMode : Option Bool := none
  randomQuotes : Option Bool := none
  seed : Option Seed := none
  dialect : Scalar := .absent
  deriving DecidableEq, Repr

/-- Why options cannot be built. -/
inductive OptionsError where
  | name (e : UnknownName)
  | seed (e : Text.IntegerError)
  deriving DecidableEq, Repr

def OptionsError.message : OptionsError → String
  | .name e => e.message
  | .seed e => e.message

/-- The dialect that a value names; no value leaves the dialect as it is. -/
def Dialect.override (current : Option Dialect) : Scalar → Except UnknownName (Option Dialect)
  | .absent => .ok current
  | given => (Dialect.ofScalar given).map some

def Options.merge (o : Options) (v : Overrides) : Except UnknownName Options := do
  let framework ← match v.framework with
    | .absent => .ok o.framework
    | given => Framework.ofScalar given
  let dialect ← Dialect.override o.dialect v.dialect
  return {
    framework, dialect
    preserveComments := v.preserveComments.getD o.preserveComments
    strictMode := v.strictMode.getD o.strictMode
    randomQuotes := v.randomQuotes.getD o.randomQuotes
    seed := v.seed.or o.seed }

/-- Environment variables and their values. -/
abbrev Environment := List (String × String)

namespace Environment

def get? (env : Environment) (key : String) : Option String :=
  (env.find? fun p => p.1 == key).map Prod.snd

def trueWords : List String := ["1", "true", "yes", "on"]

def flag (env : Environment) (key : String) (default : Bool) : Bool :=
  match env.get? key with
  | none => default
  | some raw =>
    let word := Text.trim raw
    if word.isEmpty then default else trueWords.contains (Text.lower word)

def filled? (env : Environment) (key : String) : Option String :=
  (env.get? key).filter fun s => !s.isEmpty

def options (env : Environment) : Except OptionsError Options := do
  let framework ← (Framework.ofScalar (.text ((env.get? "GACHI_FRAMEWORK").getD "none"))).mapError .name
  let seed ← match env.filled? "GACHI_SEED" with
    | none => .ok none
    | some s => ((Text.readInteger s).map fun n => some (.number n)).mapError .seed
  let dialect ← match env.filled? "GACHI_DIALECT" with
    | none => .ok none
    | some s => ((Dialect.ofScalar (.text (Text.lower s))).map some).mapError .name
  return {
    framework, seed, dialect
    preserveComments := env.flag "GACHI_PRESERVE_COMMENTS" true
    strictMode := env.flag "GACHI_STRICT_MODE" false
    randomQuotes := env.flag "GACHI_RANDOM_QUOTES" false }

end Environment
end Argot
