import Argot.CommandLine.Grammar
import Argot.Options
import Argot.Text.Decimal
/-!
# Arguments — what a command line asks for

There are six commands: to convert files in one of two directions, to validate a file, to tell its framework, to watch
files, and to look into a vocabulary.  Each has a grammar of its own; switches before the command belong to all.
-/
namespace Argot

/-- Which files are converted, and where the outputs go. -/
structure FileArguments where
  path : String
  outputDirectory : Option String := none
  exclude : Option (List String) := none
  recursive : Bool := true
  workers : Option Int := none
  deriving DecidableEq, Repr

/-- How sources are converted: options, and a file with a vocabulary. -/
structure ConversionArguments where
  overrides : Overrides := {}
  framework : Option String := none
  dictionary : Option String := none
  deriving DecidableEq, Repr

/-- What is done with a vocabulary. -/
inductive DictionaryAction where
  | stats
  | export
  | check
  deriving DecidableEq, Repr

/-- A direction of conversion by its name. -/
structure Direction where
  name : String
  toForms : Bool
  deriving DecidableEq, Repr

/-- What a command line asks for; the interval between two looks of a watch is in milliseconds. -/
inductive Arguments where
  | convert (toForms : Bool) (files : FileArguments) (how : ConversionArguments)
  | validate (path : String) (how : ConversionArguments)
  | detect (path : String)
  | watch (direction : Direction) (files : FileArguments) (how : ConversionArguments) (interval : Nat)
  | dictionary (action : DictionaryAction) (how : ConversionArguments) (output : Option String)
  deriving DecidableEq, Repr

namespace Arguments

open Grammar

def isInteger (text : String) : Bool :=
  match Text.readInteger text with
  | .ok _ => true
  | .error _ => false

def flag (key : String) (names : List String) : Switch := { key, names, arity := .none }

def option (key : String) (names : List String) (accepts : String → Bool := fun _ => true) : Switch :=
  { key, names, arity := .one, accepts }

def fileSwitches : List Switch :=
  [option "out-dir" ["--out-dir", "-o"], option "workers" ["--workers", "-w"] isInteger,
    { key := "exclude", names := ["--exclude"], arity := .many }, flag "no-recursive" ["--no-recursive"]]

def conversionSwitches : List Switch :=
  [option "framework" ["--framework"], option "dialect" ["--dialect"] (Dialect.all.map Dialect.name).contains,
    option "dictionary" ["--dictionary"]]

def formSwitches : List Switch :=
  [flag "strict" ["--strict"], flag "no-comments" ["--no-comments"], flag "quotes" ["--quotes"],
    option "seed" ["--seed"] isInteger]

def directions : List Direction := [⟨"to-gachi", true⟩, ⟨"to-js", false⟩]

/-- The seconds between two looks, where nothing else is asked for. -/
def defaultInterval : String := "0.5"

def watchSwitches : List Switch :=
  [option "direction" ["--direction"] (directions.map Direction.name).contains,
    option "interval" ["--interval"] Text.isDecimal]

def dictionaryActions : List (String × DictionaryAction) :=
  [("stats", .stats), ("export", .export), ("check", .check)]

def pathGrammar (switches : List Switch) : Grammar :=
  { switches := helpSwitch :: switches, argument := "path" }

def dictionaryGrammar : Grammar :=
  { switches := helpSwitch :: (conversionSwitches ++ [option "output" ["--output"]]), argument := "action",
    accepts := (dictionaryActions.map Prod.fst).contains }

def commonSwitches : List Switch := [helpSwitch, flag "verbose" ["--verbose", "-v"]]

/-- The number of workers where nothing else is asked for. -/
def defaultWorkers : Int := 4

def scalarOf : Option (List String) → Scalar
  | none => .absent
  | some [] => .emptyList
  | some (text :: _) => .text text

def seedOf : Option (List String) → Option Seed
  | none => none
  | some [] => some .missing
  | some (text :: _) => (Text.readInteger text).toOption.map .number

/-- The values of the switch for workers as their number. -/
def workersOf : Option (List String) → Option Int
  | none => some defaultWorkers
  | some values => values.head?.bind fun text => (Text.readInteger text).toOption

/-- The values of the switch for directions as a direction; one without a name leads to no forms. -/
def directionOf : Option (List String) → Direction
  | none => ⟨"to-gachi", true⟩
  | some [] => ⟨(Scalar.emptyList).describe, false⟩
  | some (name :: _) => (directions.find? fun d => d.name == name).getD ⟨name, false⟩

def fileArguments (r : Reading) : FileArguments where
  path := (r.value? "path").getD ""
  outputDirectory := r.value? "out-dir"
  exclude := r.last? "exclude"
  recursive := !r.has "no-recursive"
  workers := workersOf (r.last? "workers")

def conversionArguments (r : Reading) : ConversionArguments where
  overrides := {
    framework := scalarOf (r.last? "framework")
    dialect := scalarOf (r.last? "dialect")
    preserveComments := if r.has "no-comments" then some false else none
    strictMode := if r.has "strict" then some true else none
    randomQuotes := if r.has "quotes" then some true else none
    seed := seedOf (r.last? "seed") }
  framework := r.value? "framework"
  dictionary := r.value? "dictionary"

def readCommand (command : String) (words : List String) : Except Stop (Reading × Arguments) := do
  let path (r : Reading) : String := (r.value? "path").getD ""
  if command = "to-gachi" then
    let r ← (pathGrammar (fileSwitches ++ conversionSwitches ++ formSwitches)).read words
    return (r, .convert true (fileArguments r) (conversionArguments r))
  else if command = "to-js" then
    let r ← (pathGrammar (fileSwitches ++ conversionSwitches)).read words
    return (r, .convert false (fileArguments r) (conversionArguments r))
  else if command = "validate" then
    let r ← (pathGrammar conversionSwitches).read words
    return (r, .validate (path r) (conversionArguments r))
  else if command = "detect" then
    let r ← (pathGrammar []).read words
    return (r, .detect (path r))
  else if command = "watch" then
    let r ← (pathGrammar (fileSwitches ++ conversionSwitches ++ watchSwitches)).read words
    let direction := directionOf (r.last? "direction")
    let interval := Text.milliseconds ((r.value? "interval").getD defaultInterval)
    return (r, .watch direction (fileArguments r) (conversionArguments r) interval)
  else if command = "dictionary" then
    let r ← dictionaryGrammar.read words
    let action := ((r.value? "action").bind fun a => List.lookup a dictionaryActions).getD .stats
    return (r, .dictionary action (conversionArguments r) (r.value? "output"))
  else .error .usage

/-- Reads the switches before a command and then the command.  Words that nobody takes are a fault of usage only after
all words have been read. -/
def readFrom : (fuel : Nat) → List Word → List String → Reading → Except Stop Arguments
  | 0, _, _, _ => .error .usage
  | fuel + 1, .switch spelled :: words, _ :: texts, r => do
    let (r, _) ← readSwitch commonSwitches spelled [] r
    readFrom fuel words texts r
  | fuel + 1, .unknown _ :: words, _ :: texts, r => readFrom fuel words texts { r with leftovers := true }
  | _ + 1, .plain command :: _, _ :: texts, r => do
    let (r', arguments) ← readCommand command texts
    if r.leftovers || r'.leftovers then .error .usage else return arguments
  | _ + 1, _, _, _ => .error .usage

def read (words : List String) : Except Stop Arguments := do
  let classified ← classifyAll commonSwitches words
  readFrom (words.length + 1) classified words {}

end Arguments
end Argot
