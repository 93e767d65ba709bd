import Argot.CommandLine.Command
import Argot.Source.Listing
/-!
# Main — the command line at work

The files below the current directory are read, the command is run on them, and what it changed is written back.
Parsing is left to the caller: each time a source is to be parsed, one line of standard input is read, which holds its
parse tree as a list of nodes.
-/
namespace Argot

def placeText (place : Place) : String :=
  "/" ++ "/".intercalate place

def variableNames : List String :=
  ["GACHI_FRAMEWORK", "GACHI_PRESERVE_COMMENTS", "GACHI_STRICT_MODE", "GACHI_RANDOM_QUOTES", "GACHI_SEED",
    "GACHI_DIALECT"]

def readEnvironment : IO Environment :=
  variableNames.filterMapM fun name => do return (← IO.getEnv name).map (name, ·)

/-- A file, which may be closed to reading. -/
def readEntry (path : String) (stamp : Stamp) : IO Entry := do
  try
    return .file (← IO.FS.readBinFile path).toList { stamp }
  catch _ => return .file [] { stamp, readable := false }

/-- Reads what is below a directory into a tree.  Links are not followed. -/
partial def readTree (place : Place) (tree : FileTree) : IO FileTree := do
  let mut tree := tree
  for entry in ← (← IO.FS.realPath (placeText place)).readDir do
    let metadata ← entry.path.symlinkMetadata
    let here := place ++ [entry.fileName]
    match metadata.type with
    | .dir => tree ← readTree here (tree.put here .directory)
    | .file =>
      let time := metadata.modified.sec * 1000000000 + metadata.modified.nsec.toNat
      tree := tree.put here (← readEntry entry.path.toString (.given time))
    | _ => pure ()
  return tree

def readCurrentTree : IO FileTree := do
  let base := (← IO.currentDir).components.filter (!·.isEmpty)
  readTree base (.bare base)

def writeChanges (old new : FileTree) : IO Unit := do
  for (place, entry) in new.entries.toList do
    if old.entry? place != some entry then
      match entry with
      | .directory => IO.FS.createDirAll (placeText place)
      | .file bytes _ => IO.FS.writeBinFile (placeText place) ⟨bytes.toArray⟩
  for (place, entry) in old.entries.toList do
    if entry != .directory && (new.entry? place).isNone then
      IO.FS.removeFile (placeText place)

def parseFromInput : Parser IO := fun _ _ => do
  match Listing.read? (← (← IO.getStdin).getLine) with
  | some tree => return tree
  | none => throw (IO.userError "no parse tree on standard input")

def settleTime : Nat := 300

/-- Looks at the files again and again.  `started` lists the timers that have not fired yet with the times they were
started at. -/
partial def keepWatch (interval : Nat) (started : List (Nat × Nat) := []) :
    Watch.Watching IO (Except BatchError Bool) := do
  IO.sleep (UInt32.ofNat interval)
  let watch ← getThe Watch
  let tree ← readCurrentTree
  let before := watch.scheduler.timers.length
  set { watch with workshop := { watch.workshop with tree := { tree with writes := watch.workshop.tree.writes } } }
  match ← Watch.poll with
  | .error e => return .error e
  | .ok _ =>
    let now ← IO.monoMsNow
    let after := (← getThe Watch).scheduler.timers.length
    let waiting := started ++ (List.range (after - before)).map fun i => (before + i, now)
    let (due, waiting) := waiting.partition fun (_, time) => time + settleTime ≤ now
    for (index, _) in due do
      if let .error e ← Watch.fire parseFromInput index then return .error e
    writeChanges tree (← getThe Watch).workshop.tree
    keepWatch interval waiting

def sayNow (line : String) : IO Unit := do
  IO.println line
  (← IO.getStdout).flush

def runCommandLine (words : List String) : IO UInt32 := do
  let tree ← readCurrentTree
  let done ← Command.run
    { parse := parseFromInput, clock := IO.monoMsNow, say := sayNow, keepWatch := fun interval => keepWatch interval,
      environment := ← readEnvironment, tree }
    words
  match done with
  | .error e =>
    IO.eprintln e.message
    return 1
  | .ok (exit, changed) =>
    writeChanges tree changed
    if exit = 2 then
      IO.eprintln Command.helpLine
    return UInt32.ofNat exit

end Argot

def main (words : List String) : IO UInt32 :=
  Argot.runCommandLine words
