import Argot.Files.Batch
import Argot.Files.Watcher
/-!
# Watch — files converted when they change

A watch is a watcher of the files that a workshop finds under a target.  A file that changed is converted, and the
output of a file that is gone is removed.
-/
namespace Argot

/-- A workshop under watch, with the target and the direction that its files are converted in. -/
structure Watch extends Watcher where
  workshop : Workshop
  target : Path
  toForms : Bool := true

namespace Watch

def look (w : Workshop) (target : Path) (toForms : Bool) : Except BatchError Snapshot := do
  let files ← (w.find target (w.patternsFor toForms)).mapError .find
  return OrderedMap.ofList (files.filterMap fun p => (w.tree.stamp? p).map (p, ·))

def start (workshop : Workshop) (target : Path) (toForms : Bool) : Except BatchError Watch := do
  return { workshop, target, toForms, snapshot := ← look workshop target toForms }

variable {m : Type → Type} [Monad m]

/-- Effects on a watch. -/
abbrev Watching (m : Type → Type) := StateT Watch m

variable (parse : Parser m)

/-! ## What a watch does about the files of its workshop -/

def listFiles (target : Path) (toForms : Bool) : StateT Workshop m (Except BatchError Snapshot) := do
  return look (← get) target toForms

def action (toForms : Bool) (p : Path) : StateT Workshop m (Except BatchError Unit) := do
  let (result, w) ← ((← get).file parse toForms p : m (Except BatchError FileOutcome × Workshop))
  set w
  return result.map fun _ => ()

def remove (p : Path) : StateT Workshop m (Scheduler.Removal BatchError) := do
  let (result, w) := (← get).removeOutput p
  set w
  return match result with
    | .ok _ => .done
    | .error (.system e) =>
      if e.fault = .missing then .missing else if e.fault = .nullCharacter then .failed (.system e) else .refused
    | .error e => .failed e

/-- What a watcher does, with its watch. -/
def watching {α : Type} (x : StateT Watcher (StateT Workshop m) α) : Watching m α := fun w => do
  let ((a, watcher), workshop) ← (x.run w.toWatcher).run w.workshop
  return (a, { w with toWatcher := watcher, workshop })

def deleted (p : Path) : Watching m (Except BatchError Bool) :=
  watching (Watcher.deleted (some remove) p)

def poll : Watching m (Except BatchError (List Path × List Path)) := do
  let w ← getThe Watch
  watching (Watcher.poll (listFiles w.target w.toForms) (some remove))

def flush : Watching m (Except BatchError Nat) := do
  let w ← getThe Watch
  watching (Watcher.flush (action parse w.toForms))

def fire (index : Nat) : Watching m (Except BatchError Unit) := do
  let w ← getThe Watch
  watching (Watcher.fire (action parse w.toForms) index)

def cancelAll : Watching m Unit :=
  watching Watcher.cancelAll

def run (looks : Nat) : Watching m (Except BatchError Unit) := do
  let w ← getThe Watch
  watching (Watcher.run (listFiles w.target w.toForms) (some remove) looks)

end Watch
end Argot
