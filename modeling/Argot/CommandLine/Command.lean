import Argot.CommandLine.Arguments
import Argot.Files.Watch
import Argot.Vocabulary.Record
/-!
# Command — what a command line does

A command works on a tree of files and says something in lines of text.  It ends with zero if all went well, with one if
something went wrong, and with two if it was not understood, in which case it says nothing here.  Options come from the
environment, and the command line overrides them.
-/
namespace Argot

/-- What a command leaves: its exit code, what it has to say at its end, and the files. -/
structure CommandResult where
  exit : Nat
  lines : List String
  tree : FileTree

/-- Why a command fails as a whole. -/
inductive CommandError where
  | options (e : OptionsError)
  | record (e : Record.LoadError)
  | unsaved (issue : Record.Issue)
  | batch (e : BatchError)
  | unreadable (e : UnreadableFile)

def CommandError.message : CommandError → String
  | .options e => e.message
  | .record e => e.message
  | .unsaved issue => Record.invalidMessage [issue]
  | .batch e => e.message
  | .unreadable e => e.message

/-- Whether a command says what went wrong.  Where it does not, it ends without an exit code of its own. -/
def CommandError.isReported : CommandError → Bool
  | .record (.malformed (.tooDeep _)) | .batch .noWorkers => false
  | _ => true

/-- What a command is run with: parsing, a clock that counts milliseconds, a way to say a line, a way to keep watch
with so many milliseconds between two looks, which tells whether it was interrupted, the environment and the files. -/
structure Surroundings (m : Type → Type) where
  parse : Parser m
  clock : m Nat
  say : String → m Unit
  keepWatch : (interval : Nat) → Watch.Watching m (Except BatchError Bool)
  environment : Environment := []
  tree : FileTree

namespace Command

def errorLine (message : String) : String :=
  "Error: " ++ message

def filled (text : Option String) : Option String :=
  text.filter fun s => !s.isEmpty

def readFile (tree : FileTree) (path : String) : Except CommandError String :=
  (Workshop.readText tree (.ofString path)).mapError .unreadable

def loadTable (tree : FileTree) (path : String) : Except CommandError Table := do
  let text ← readFile tree path
  (Record.load text).mapError .record

/-- The options that the environment and the command line ask for. -/
def options (environment : Environment) (how : ConversionArguments) : Except CommandError Options := do
  let defaults ← environment.options.mapError .options
  (defaults.merge how.overrides).mapError fun e => .options (.name e)

/-- The session that the environment and the command line ask for. -/
def session (environment : Environment) (tree : FileTree) (how : ConversionArguments) :
    Except CommandError Session := do
  let options ← options environment how
  let custom ← (filled how.dictionary).mapM (loadTable tree)
  return { options, custom }

/-- The workshop that a command line asks for.  Outputs keep the way from the target, or from where the target is. -/
def workshop (tree : FileTree) (session : Session) (files : FileArguments) : Except CommandError Workshop := do
  let target := Path.ofString files.path
  let isDirectory ← (tree.isDirectory target).mapError fun e => .batch (.system e)
  let defaults : BatchSettings := {}
  return {
    tree, session
    settings :=
      { outputDirectory := (filled files.outputDirectory).map Path.ofString
        inputRoot := some (if isDirectory then target else target.parent)
        exclude := files.exclude.getD defaults.exclude
        recursive := files.recursive
        workers := files.workers } }

/-- The lines about a file.  What is only a note is left out where all went well. -/
def outcomeLines (o : FileOutcome) : List String :=
  let output := (o.output.map Path.toString).getD "None"
  let first :=
    if o.success then "  OK    " ++ o.input.toString ++ " -> " ++ output
    else "  FAIL  " ++ o.input.toString ++ ": " ++ o.error.getD "None"
  first :: ((o.diagnostics.filter fun d => !o.success || d.severity != .info).map fun d => "        " ++ d.describe)

def reportLines (r : BatchReport) (milliseconds : Nat) : List String :=
  r.outcomes.flatMap outcomeLines ++
    ["", toString r.successes ++ "/" ++ toString r.total ++ " files transformed (" ++ toString r.failures
      ++ " failed) in " ++ toString milliseconds ++ "ms"]

variable {m : Type → Type} [Monad m]

def convert (s : Surroundings m) (toForms : Bool) (files : FileArguments) (how : ConversionArguments) :
    m (Except CommandError CommandResult) := do
  let start : Except CommandError Workshop := do
    let session ← session s.environment s.tree how
    workshop s.tree session files
  match start with
  | .error e => return .error e
  | .ok w =>
    let began ← s.clock
    let (report, w) ← w.run s.parse toForms (.ofString files.path)
    let ended ← s.clock
    match report with
    | .error e => return .error (.batch e)
    | .ok report =>
      if report.total = 0 then return .ok ⟨1, ["No matching files found at " ++ files.path], w.tree⟩
      else return .ok ⟨if report.ok then 0 else 1, reportLines report (ended - began), w.tree⟩

def validate (s : Surroundings m) (path : String) (how : ConversionArguments) : Except CommandError CommandResult := do
  let session ← session s.environment s.tree how
  let source ← readFile s.tree path
  let (report, _) ← (session.validate source).mapError fun e => .options (.name e)
  if report.valid then return ⟨0, [path ++ ": valid GachiScript"], s.tree⟩
  else return ⟨1, (report.errors ++ report.suggestions).map ("  " ++ ·), s.tree⟩

def detect (s : Surroundings m) (path : String) : Except CommandError CommandResult := do
  let source ← readFile s.tree path
  return ⟨0, [(Sniff.framework source).name], s.tree⟩

def watchLine (path : String) (direction : Direction) : String :=
  "Watching " ++ path ++ " (" ++ direction.name ++ "); press Ctrl+C to stop"

def watch (s : Surroundings m) (direction : Direction) (files : FileArguments) (how : ConversionArguments)
    (interval : Nat) : m (Except CommandError CommandResult) := do
  let start : Except CommandError Watch := do
    let session ← session s.environment s.tree how
    (Watch.start (← workshop s.tree session files) (.ofString files.path) direction.toForms).mapError .batch
  match start with
  | .error e => return .error e
  | .ok w =>
    s.say (watchLine files.path direction)
    let (result, w) ← (s.keepWatch interval).run w
    match result with
    | .error e => return .ok ⟨1, [errorLine e.message], w.workshop.tree⟩
    | .ok interrupted => return .ok ⟨0, if interrupted then ["", "Stopped watching"] else [], w.workshop.tree⟩

/-- The table that the command about vocabularies works on. -/
def dictionaryTable (tree : FileTree) (how : ConversionArguments) : Except CommandError Table :=
  match filled how.dictionary with
  | some path => loadTable tree path
  | none =>
    let name := (filled how.framework).getD "none"
    ((Framework.ofScalar (.text name)).map fun f => Standard.table f.name).mapError fun e => .options (.name e)

/-- What comes of a command that may have failed as a whole: what went wrong is said, unless it is not reported. -/
def reported (tree : FileTree) : Except CommandError CommandResult → Except CommandError CommandResult
  | .error e => if e.isReported then .ok ⟨1, [errorLine e.message], tree⟩ else .error e
  | .ok result => .ok result

/-- What is done with a table: numbers about it, its record, or the collisions in it. -/
def examine (tree : FileTree) (t : Table) (action : DictionaryAction) (output : Option String) :
    Except CommandError CommandResult := do
  match action with
  | .stats => return ⟨0, [(Json.write (Record.statsValue t.stats) (some 2)).shown], tree⟩
  | .export =>
    let exported ← (Record.save t).mapError .unsaved
    match filled output with
    | none => return ⟨0, [exported.shown], tree⟩
    | some path =>
      let (bytes, exit, line) := match (exported ++ "\n").bytes with
        | .ok bytes => (bytes, 0, "Exported " ++ toString t.size ++ " mappings to " ++ path)
        | .error e => ([], 1, errorLine e.message)
      -- the file that was opened is there, whether all could be written or not
      match tree.write (.ofString path) bytes with
      | (.ok (), tree) => return ⟨exit, [line], tree⟩
      | (.error e, tree) => reported tree (.error (.batch (.system e)))
  | .check =>
    match Diagnostics.ofCollisions t.integrity with
    | [] => return ⟨0, ["No collisions in " ++ toString t.size ++ " mappings"], tree⟩
    | ds => return ⟨1, ds.map fun d => "  " ++ d.describe, tree⟩

def dictionary (tree : FileTree) (action : DictionaryAction) (how : ConversionArguments) (output : Option String) :
    Except CommandError CommandResult := do
  examine tree (← dictionaryTable tree how) action output

def perform (s : Surroundings m) : Arguments → m (Except CommandError CommandResult)
  | .convert toForms files how => convert s toForms files how
  | .validate path how => return validate s path how
  | .detect path => return detect s path
  | .watch direction files how interval => watch s direction files how interval
  | .dictionary action how output => return dictionary s.tree action how output

def helpLine : String :=
  "usage: gachi [-h] [--verbose] \x7bto-gachi,to-js,validate,detect,watch,dictionary\x7d ..."

/-- What a command line comes to, unless it fails in a way that is not reported. -/
def result (s : Surroundings m) (words : List String) : m (Except CommandError CommandResult) := do
  match Arguments.read words with
  | .error .usage => return .ok ⟨2, [], s.tree⟩
  | .error .help => return .ok ⟨0, [helpLine], s.tree⟩
  | .ok arguments => return reported s.tree (← perform s arguments)

def run (s : Surroundings m) (words : List String) : m (Except CommandError (Nat × FileTree)) := do
  match ← result s words with
  | .error e => return .error e
  | .ok r =>
    r.lines.forM s.say
    return .ok (r.exit, r.tree)

end Command
end Argot
