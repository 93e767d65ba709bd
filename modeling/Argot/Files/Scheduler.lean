import Argot.Files.Path
import Argot.OrderedMap
/-!
# Scheduler — runs that wait until changes settle

Scheduling a path starts a timer for it and cancels the one before, so that at most one run is pending for each path.
Each change of mind about a path raises its generation; a run acts only while its generation is the current one.  A
timer that fires late, after its path was scheduled anew, deleted, flushed or cancelled, does nothing.

What a run does is given as an action with effects, which may use the scheduler itself and may fail.  A failure is caught
where the action runs, so that it does no harm to other paths.
-/
namespace Argot

/-- A timer that was started: its path, its generation, and whether it was cancelled. -/
structure Timer where
  path : Path
  generation : Nat
  cancelled : Bool := false
  deriving DecidableEq, Repr

/-- The pending timers by path, the generation of each path, and all timers ever started. -/
structure Scheduler where
  pending : OrderedMap Path Nat := .empty
  generations : OrderedMap Path Nat := .empty
  timers : List Timer := []

namespace Scheduler

variable (s : Scheduler)

/-- The generation of a path; it is zero before the first change. -/
def generation (p : Path) : Nat :=
  (s.generations.get? p).getD 0

def isCurrent (p : Path) (g : Nat) : Bool :=
  s.generations.get? p == some g

def cancelTimer (timers : List Timer) (index : Nat) : List Timer :=
  timers.modify index fun timer => { timer with cancelled := true }

/-- Raises the generation of a path and cancels its pending timer. -/
def bump (p : Path) : Scheduler where
  pending := s.pending.erase p
  generations := s.generations.insert p (s.generation p + 1)
  timers := match s.pending.get? p with
    | some index => cancelTimer s.timers index
    | none => s.timers

/-- Starts a timer for a path in place of its pending one. -/
def schedule (p : Path) : Scheduler :=
  let s := s.bump p
  { s with
    pending := s.pending.insert p s.timers.length
    timers := s.timers ++ [{ path := p, generation := s.generation p }] }

def pendingPaths : List Path :=
  s.pending.keys.mergeSort Path.before

def cancelAll : Scheduler :=
  s.pending.keys.foldl bump s

/-- The pending runs taken over: each path with its new generation, and nothing pending. -/
def takePending : List (Path × Nat) × Scheduler :=
  let s' := s.cancelAll
  (s.pending.keys.map fun p => (p, s'.generation p), s')

/-- What a timer starts: its path and generation if it is current, with the timer no longer pending. -/
def takeFired (timer : Timer) : Option Scheduler :=
  if s.isCurrent timer.path timer.generation then some { s with pending := s.pending.erase timer.path } else none

/-! ## Acting -/

/-- Why an output could not be removed. -/
inductive Removal (ε : Type) where
  | done
  | missing
  | refused
  | failed (e : ε)

variable {m : Type → Type} [Monad m] [MonadStateOf Scheduler m] {φ : Type}

/-- Acts for a path unless its run was overtaken.  What the action did before it failed stays; the failure itself is
caught. -/
def act (action : Path → m (Except φ Unit)) (p : Path) (g : Nat) : m (Except φ Unit) := do
  if (← get).isCurrent p g then
    let result ← action p
    return result.tryCatch fun _ => .ok ()
  else return .ok ()

def fire (action : Path → m (Except φ Unit)) (timer : Timer) : m (Except φ Unit) := do
  match (← get).takeFired timer with
  | none => return .ok ()
  | some s =>
    set s
    act action timer.path timer.generation

/-- Acts for paths one after another.  A failure that got out would end it. -/
def actAll (action : Path → m (Except φ Unit)) : List (Path × Nat) → m (Except φ Unit)
  | [] => return .ok ()
  | (p, g) :: rest => do
    match ← act action p g with
    | .error e => return .error e
    | .ok () => actAll action rest

/-- Acts for all pending paths at once and says how many there were. -/
def flush (action : Path → m (Except φ Unit)) : m (Except φ Nat) := do
  let (due, s) := (← get).takePending
  set s
  match ← actAll action due with
  | .error e => return .error e
  | .ok () => return .ok due.length

/-- Cancels the pending run of a path and removes its output, if outputs are to be removed.  Says whether the output is
gone, which it is if it never was. -/
def deleted {ε : Type} (remove : Option (Path → m (Removal ε))) (p : Path) : m (Except ε Bool) := do
  modify fun s => s.bump p
  match remove with
  | none => return .ok true
  | some remove => match ← remove p with
    | .done | .missing => return .ok true
    | .refused => return .ok false
    | .failed e => return .error e

end Scheduler
end Argot
