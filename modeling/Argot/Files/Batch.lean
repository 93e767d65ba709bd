import Argot.Files.Find
import Argot.Text.Newline
import Argot.Session
/-!
# Batch — files converted in both directions

A workshop converts files of a tree: a file, or the files that patterns select in a directory, each into an output whose
place and extension follow from its input.  A file whose outcome has errors is not written, and nothing that goes wrong
with one file stops the others.  The workshop remembers the output it wrote last for each input, so that the output can
be removed when the input is gone.
-/
namespace Argot

def formExtension : String := ".gachi"

/-- How files are chosen and where outputs go. -/
structure BatchSettings where
  /-- Where outputs go; without it they go beside their inputs. -/
  outputDirectory : Option Path := none
  inputRoot : Option Path := none
  patterns : List String := ["*.ts", "*.js", "*.tsx", "*.jsx"]
  exclude : List String := ["node_modules", "dist", ".git", "*.d.ts"]
  recursive : Bool := true
  /-- How many files are worked on at a time.  The number makes no difference to what becomes of a file, but without one
  no file is worked on. -/
  workers : Option Int := some 4
  deriving DecidableEq, Repr

/-- What went wrong so badly that a file has no outcome of its own. -/
inductive BatchError where
  | path (e : PathError)
  | conversion (e : ConversionError)
  | find (e : FindError)
  | system (e : SystemError)
  /-- There are files to work on, but no number of workers. -/
  | noWorkers
  deriving DecidableEq, Repr

def BatchError.message : BatchError → String
  | .path e => e.message
  | .conversion e => e.message
  | .find e => e.message
  | .system e => e.message
  | .noWorkers => "'>' not supported between instances of 'list' and 'int'"

/-- Why a file has no text. -/
inductive UnreadableFile where
  | system (e : SystemError)
  | undecodable (e : Text.Utf8Error)
  deriving DecidableEq, Repr

def UnreadableFile.message : UnreadableFile → String
  | .system e => e.message
  | .undecodable e => e.message

/-- What became of a file. -/
structure FileOutcome where
  input : Path
  output : Option Path
  success : Bool
  diagnostics : Diagnostics := []
  error : Option String := none
  deriving DecidableEq, Repr

/-- What became of the files of a batch. -/
structure BatchReport where
  outcomes : List FileOutcome
  total : Nat
  deriving DecidableEq, Repr

namespace BatchReport

def successes (r : BatchReport) : Nat :=
  (r.outcomes.filter FileOutcome.success).length

def failures (r : BatchReport) : Nat :=
  r.outcomes.length - r.successes

def ok (r : BatchReport) : Bool :=
  r.failures == 0

end BatchReport

/-- A tree of files and what it takes to convert them. -/
structure Workshop where
  tree : FileTree
  session : Session := {}
  settings : BatchSettings := {}
  outputs : OrderedMap Place Path := .empty

namespace Workshop

variable (w : Workshop)

/-! ## Places of outputs -/

def wayBelow? (root place : Place) : Option (List String) :=
  if root.isPrefixOf place then some (place.drop root.length) else none

def outputPath (input : Path) (extension : String) : Except PathError Path :=
  let name := input.stem ++ extension
  match w.settings.outputDirectory with
  | none => input.withName name
  | some directory => do
    let root ← w.settings.inputRoot.mapM fun root => root.resolve w.tree.base
    let way := root.bind fun root =>
      (input.resolve w.tree.base).toOption.bind fun place => wayBelow? root place.dropLast
    return { directory with parts := directory.parts ++ way.getD [] }.child name

/-! ## Single files -/

/-- The text of a file, with every line end as a line feed, or why it cannot be read. -/
def readText (tree : FileTree) (p : Path) : Except UnreadableFile String := do
  let bytes ← (tree.read p).mapError .system
  let cs ← (Text.decode bytes).mapError .undecodable
  return String.ofList (Text.unifyNewlines cs)

/-- Writes an output, making the directories on the way. -/
def writeOutput (output : Path) (code : String) : Except SystemError Unit × Workshop :=
  match w.tree.makeDirectories output.parent with
  | (.error e, tree) => (.error e, { w with tree })
  | (.ok (), tree) =>
    let (result, tree) := tree.write output (Text.bytesOf code)
    (result, { w with tree })

/-- A refusal by the system is part of an outcome, a path that the system is not asked about is none. -/
def orRefusal (e : SystemError) (outcome : FileOutcome) : Except BatchError FileOutcome :=
  if e.fault = .nullCharacter then .error (.system e) else .ok outcome

/-- The outcome of an input with its text converted: an outcome without errors is written, and its place remembered. -/
def finish (input output : Path) (outcome : Outcome) : Except BatchError FileOutcome × Workshop :=
  let diagnostics := outcome.diagnostics
  if outcome.hasErrors then
    (.ok { input, output := some output, success := false, diagnostics
           error := some ("; ".intercalate (outcome.errors.map Diagnostic.message)) }, w)
  else match w.writeOutput output outcome.code with
    | (.error e, w) =>
      (orRefusal e { input, output := some output, success := false, diagnostics, error := some e.message }, w)
    | (.ok (), w) => match input.resolve w.tree.base with
      | .error e => (.error (.path e), w)
      | .ok place =>
        (.ok { input, output := some output, success := true, diagnostics },
          { w with outputs := w.outputs.insert place output })

def failed (input : Path) (message : String) : FileOutcome :=
  { input, output := none, success := false, error := some message }

def unreadable (input : Path) (e : UnreadableFile) : Except BatchError FileOutcome :=
  match e with
  | .system s => orRefusal s (failed input e.message)
  | .undecodable _ => .ok (failed input e.message)

variable {m : Type → Type} [Monad m] (parse : Parser m)

def fileToForms (input : Path) : m (Except BatchError FileOutcome × Workshop) := do
  match w.outputPath input formExtension with
  | .error e => return (.error (.path e), w)
  | .ok output => match readText w.tree input with
    | .error e => return (unreadable input e, w)
    | .ok code =>
      let (outcome, session) ← w.session.forward parse code
      let w := { w with session }
      match outcome with
      | .error e => return (.error (.conversion e), w)
      | .ok outcome => return w.finish input output outcome

/-- Converts a file of forms back to a source, whose extension follows from its text. -/
def fileToSource (input : Path) : m (Except BatchError FileOutcome × Workshop) := do
  match readText w.tree input with
  | .error e => return (unreadable input e, w)
  | .ok code =>
    let (outcome, session) ← w.session.reverse parse code
    let w := { w with session }
    match outcome with
    | .error e => return (.error (.conversion e), w)
    | .ok outcome => match w.outputPath input (Sniff.extension outcome.code) with
      | .error e => return (.error (.path e), w)
      | .ok output => return w.finish input output outcome

def file (toForms : Bool) (input : Path) : m (Except BatchError FileOutcome × Workshop) :=
  if toForms then w.fileToForms parse input else w.fileToSource parse input

/-- Removes the output of an input.  For a source file that has none on record the place follows from its path; where
the output of a file of forms went cannot be told without one. -/
def removeOutput (input : Path) : Except BatchError (Option Path) × Workshop :=
  match input.resolve w.tree.base with
  | .error e => (.error (.path e), w)
  | .ok place =>
    let recorded := w.outputs.get? place
    let w := { w with outputs := w.outputs.erase place }
    let target : Except BatchError (Option Path) := match recorded with
      | some output => .ok (some output)
      | none =>
        if input.suffix == formExtension then .ok none
        else ((w.outputPath input formExtension).map some).mapError .path
    match target with
    | .ok (some output) => match w.tree.remove output with
      | .ok tree => (.ok (some output), { w with tree })
      | .error e => (if e.fault = .missing then .ok (some output) else .error (.system e), w)
    | other => (other, w)

/-! ## Batches -/

/-- The patterns of the files that a direction converts. -/
def patternsFor (toForms : Bool) : List String :=
  if toForms then w.settings.patterns else ["*" ++ formExtension]

def find (target : Path) (patterns : List String) : Except FindError (List Path) :=
  findFiles w.tree w.settings.recursive w.settings.exclude target patterns

def outcomeOf (input : Path) : Except BatchError FileOutcome → FileOutcome
  | .ok o => o
  | .error e => failed input e.message

def runFiles (toForms : Bool) : List Path → Workshop → m (List FileOutcome × Workshop)
  | [], w => return ([], w)
  | input :: rest, w => do
    let (result, w) ← w.file parse toForms input
    let (later, w) ← runFiles toForms rest w
    return (outcomeOf input result :: later, w)

/-- Outcomes are ordered by the text of their inputs' paths. -/
def outcomeBefore (a b : FileOutcome) : Bool :=
  !decide (b.input.toString < a.input.toString)

def run (toForms : Bool) (target : Path) : m (Except BatchError BatchReport × Workshop) := do
  match w.find target (w.patternsFor toForms) with
  | .error e => return (.error (.find e), w)
  | .ok files =>
    if !files.isEmpty && w.settings.workers.isNone then return (.error .noWorkers, w)
    else
      let (outcomes, w) ← runFiles parse toForms files w
      return (.ok { outcomes := outcomes.mergeSort outcomeBefore, total := files.length }, w)

end Workshop
end Argot
