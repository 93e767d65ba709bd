import Argot.Files.FileTree
import Argot.Files.Scheduler
/-!
# Watcher — changes found by looking again

A watcher looks at files again and again and compares their stamps with those of the look before.  New and changed
files are scheduled, and files that are gone are told to the scheduler, which cancels their runs and has their outputs
removed.  Files that are there from the start wait for their first change.

How the files are looked at, what a run does and how an output is removed is given, with effects that know nothing of
the watcher.
-/
namespace Argot

/-- The stamps of the files at one look. -/
abbrev Snapshot := OrderedMap Path Stamp

/-- A scheduler and the look that it was last told about. -/
structure Watcher where
  scheduler : Scheduler := {}
  snapshot : Snapshot := .empty

namespace Watcher

/-- The files that are new or have another stamp, in order. -/
def changes (old new : Snapshot) : List Path :=
  ((new.toList.filter fun (p, stamp) => old.get? p != some stamp).map Prod.fst).mergeSort Path.before

def disappearances (old new : Snapshot) : List Path :=
  (old.keys.filter fun p => !new.contains p).mergeSort Path.before

variable {m : Type → Type} [Monad m] {ε φ : Type}

instance : MonadStateOf Scheduler (StateT Watcher m) where
  get := do return (← getThe Watcher).scheduler
  set s := modifyThe Watcher fun w => { w with scheduler := s }
  modifyGet f := modifyGetThe Watcher fun w =>
    let (a, s) := f w.scheduler
    (a, { w with scheduler := s })

variable (look : m (Except ε Snapshot)) (action : Path → m (Except φ Unit)) (remove : Option (Path → m (Scheduler.Removal ε)))

/-- Cancels the run of a file that is gone and has its output removed. -/
def deleted (p : Path) : StateT Watcher m (Except ε Bool) :=
  Scheduler.deleted (remove.map fun remove p => StateT.lift (remove p)) p

/-- Tells the scheduler about files that are gone, up to the first failure. -/
def deleteAll : List Path → StateT Watcher m (Except ε Unit)
  | [] => return .ok ()
  | p :: rest => do
    match ← deleted remove p with
    | .error e => return .error e
    | .ok _ => deleteAll rest

/-- Looks again and passes on what changed: the changed files and the files that are gone. -/
def poll : StateT Watcher m (Except ε (List Path × List Path)) := do
  match ← StateT.lift look with
  | .error e => return .error e
  | .ok snapshot =>
    let w ← getThe Watcher
    let changed := changes w.snapshot snapshot
    let gone := disappearances w.snapshot snapshot
    set ({ scheduler := changed.foldl Scheduler.schedule w.scheduler, snapshot } : Watcher)
    match ← deleteAll remove gone with
    | .error e => return .error e
    | .ok () => return .ok (changed, gone)

def flush : StateT Watcher m (Except φ Nat) :=
  Scheduler.flush fun p => StateT.lift (action p)

def fire (index : Nat) : StateT Watcher m (Except φ Unit) := do
  match (← getThe Watcher).scheduler.timers[index]? with
  | some timer => Scheduler.fire (fun p => StateT.lift (action p)) timer
  | none => return .ok ()

def cancelAll : StateT Watcher m Unit :=
  modifyThe Watcher fun w => { w with scheduler := w.scheduler.cancelAll }

/-- Looks several times and then cancels what is pending. -/
def run : (looks : Nat) → StateT Watcher m (Except ε Unit)
  | 0 => do
    cancelAll
    return .ok ()
  | looks + 1 => do
    match ← poll look remove with
    | .error e => return .error e
    | .ok _ => run looks

end Watcher
end Argot
