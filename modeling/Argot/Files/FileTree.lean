import Argot.Files.Path
import Argot.OrderedMap
/-!
# FileTree — files and directories

A file tree holds files and directories by their place from the top.  Paths are looked up from the directory one is in,
step by step: each component but the last has to be a directory, and none may be too long.  A path with a null
character leads nowhere.  A file has bytes and a stamp that tells when it was written; every write gives a new stamp.
A file may be closed to reading or to writing, and there may be room for so many bytes only at a place: a write empties
the file first, and what does not fit is lost.  There are no links, every directory is open, and the room at one place
does not depend on what lies at others.
-/
namespace Argot

/-- A place in a tree: the components from the top. -/
abbrev Place := List String

/-- When a file was written: at a time that was given with it, or by a numbered write. -/
inductive Stamp where
  | given (time : Int)
  | written (number : Nat)
  deriving DecidableEq, Repr

/-- What a file has besides its bytes: when it was written, and whether it may be read and written. -/
structure FileStatus where
  stamp : Stamp
  readable : Bool := true
  writable : Bool := true
  deriving DecidableEq, Repr

/-- What is at a place. -/
inductive Entry where
  | directory
  | file (bytes : List UInt8) (status : FileStatus)
  deriving DecidableEq, Repr

/-- Why a file or directory cannot be had. -/
inductive SystemFault where
  | missing
  | exists
  | notDirectory
  | isDirectory
  /-- The file may not be read, or not be written. -/
  | denied
  /-- There is no room for all the bytes. -/
  | noSpace
  /-- A component, or the path as a whole, has too many bytes. -/
  | nameTooLong
  /-- The path holds a null character, so the system is not even asked. -/
  | nullCharacter
  deriving DecidableEq, Repr

/-- A fault and the path it was met with. -/
structure SystemError where
  fault : SystemFault
  path : Path
  deriving DecidableEq, Repr

def SystemError.message (e : SystemError) : String :=
  let met (what : String) : String := what ++ ": " ++ Text.quoted e.path.toString
  match e.fault with
  | .missing => met "[Errno 2] No such file or directory"
  | .exists => met "[Errno 17] File exists"
  | .notDirectory => met "[Errno 20] Not a directory"
  | .isDirectory => met "[Errno 21] Is a directory"
  | .denied => met "[Errno 13] Permission denied"
  | .noSpace => "[Errno 28] No space left on device"
  | .nameTooLong => met "[Errno 36] File name too long"
  | .nullCharacter => PathError.nullCharacter.message

/-- Files and directories, and the directory one is in. -/
structure FileTree where
  base : Place
  entries : OrderedMap Place Entry
  writes : Nat := 0
  /-- How many bytes a file at a place can have, where there is a bound. -/
  room : Place → Option Nat := fun _ => none

namespace FileTree

/-- The directories on the way to a place, itself included. -/
def wayTo (p : Place) : List Place :=
  (List.range (p.length + 1)).map p.take

def bare (base : Place) : FileTree where
  base := base
  entries := OrderedMap.ofList ((wayTo base).map fun p => (p, .directory))

variable (t : FileTree)

def entry? (p : Place) : Option Entry := t.entries.get? p

def maxNameBytes : Nat := 255

def maxPathBytes : Nat := 4095

/-- The place that one component leads to; an empty one and a single dot stay where they are. -/
def step (here : Place) (part : String) : Place :=
  if part = ".." then here.dropLast
  else if part = "" || part = "." then here
  else here ++ [part]

def walk (here : Place) : List String → Except SystemFault Place
  | [] => .ok here
  | part :: rest =>
    match t.entry? here with
    | some .directory =>
      if part.utf8ByteSize > maxNameBytes then .error .nameTooLong else walk (step here part) rest
    | some (.file ..) => .error .notDirectory
    | none => .error .missing

/-- The place of a path; nothing need be there, but its parent is a directory. -/
def locate (p : Path) : Except SystemError Place :=
  if Path.hasNull p.toString then .error ⟨.nullCharacter, p⟩
  else if p.toString.utf8ByteSize > maxPathBytes then .error ⟨.nameTooLong, p⟩
  else if p.toString.isEmpty then .error ⟨.missing, p⟩
  else (t.walk (if p.root.isEmpty then t.base else []) p.parts).mapError (⟨·, p⟩)

/-- What is at a path, if its way leads anywhere.  A name that is too long is no answer but a fault. -/
def look (p : Path) : Except SystemError (Option Entry) :=
  match t.locate p with
  | .ok place => .ok (t.entry? place)
  | .error e => if e.fault = .nameTooLong then .error e else .ok none

def isFile (p : Path) : Except SystemError Bool :=
  (t.look p).map fun e => match e with
    | some (.file ..) => true
    | _ => false

def isDirectory (p : Path) : Except SystemError Bool :=
  (t.look p).map fun e => match e with
    | some .directory => true
    | _ => false

/-- When the file at a path was written; a directory has the time zero. -/
def stamp? (p : Path) : Option Stamp :=
  match t.look p with
  | .ok (some (.file _ status)) => some status.stamp
  | .ok (some .directory) => some (.given 0)
  | _ => none

/-- The bytes and the status of the file at a path. -/
def fileAt (p : Path) : Except SystemError (List UInt8 × FileStatus) := do
  match t.entry? (← t.locate p) with
  | none => .error ⟨.missing, p⟩
  | some .directory => .error ⟨.isDirectory, p⟩
  | some (.file bytes status) => .ok (bytes, status)

def read (p : Path) : Except SystemError (List UInt8) := do
  let (bytes, status) ← t.fileAt p
  if status.readable then .ok bytes else .error ⟨.denied, p⟩

def put (place : Place) (e : Entry) : FileTree :=
  { t with entries := t.entries.insert place e }

/-- Where a path is opened for writing, and the status of the file there once it is written. -/
def openToWrite (p : Path) (stamp : Stamp) : Except SystemError (Place × FileStatus) := do
  let place ← t.locate p
  match t.entry? place with
  | none => .ok (place, { stamp })
  | some .directory => .error ⟨.isDirectory, p⟩
  | some (.file _ status) => if status.writable then .ok (place, { status with stamp }) else .error ⟨.denied, p⟩

/-- As many of the bytes as a file at a place can have. -/
def fitting (place : Place) (bytes : List UInt8) : List UInt8 :=
  ((t.room place).map bytes.take).getD bytes

/-- Writes a file.  What is opened is emptied, so a write that breaks off leaves the beginning of the bytes behind. -/
def writeStamped (p : Path) (bytes : List UInt8) (stamp : Stamp) : Except SystemError Unit × FileTree :=
  match t.openToWrite p stamp with
  | .error e => (.error e, t)
  | .ok (place, status) =>
    (if t.fitting place bytes = bytes then .ok () else .error ⟨.noSpace, p⟩,
      t.put place (.file (t.fitting place bytes) status))

def write (p : Path) (bytes : List UInt8) : Except SystemError Unit × FileTree :=
  let (result, t') := t.writeStamped p bytes (.written t.writes)
  (result, { t' with writes := t.writes + 1 })

def makeDirectory (p : Path) : Except SystemError FileTree := do
  let place ← t.locate p
  match t.entry? place with
  | some _ => .error ⟨.exists, p⟩
  | none => .ok (t.put place .directory)

/-- A refusal to make a directory does not count where there is one. -/
def unlessThere (p : Path) (e : SystemError) : Except SystemError Unit := do
  if ← t.isDirectory p then return () else .error e

/-- Makes the directory with the given components, the last one first, and those above it.  What was made before a fault
stays. -/
def makeDirectoriesFrom (root : String) : List String → FileTree → Except SystemError Unit × FileTree
  | parts, t =>
    let p : Path := ⟨root, parts.reverse⟩
    match t.makeDirectory p with
    | .ok t => (.ok (), t)
    | .error e =>
      match e.fault, parts with
      | .missing, _ :: above =>
        match makeDirectoriesFrom root above t with
        | (.error e, t) => (.error e, t)
        | (.ok (), t) => match t.makeDirectory p with
          | .ok t => (.ok (), t)
          | .error e => (if e.fault = .missing then .error e else t.unlessThere p e, t)
      | .missing, [] => (.error e, t)
      | _, _ => (t.unlessThere p e, t)

/-- Makes a directory and those above it, as far as they are not there. -/
def makeDirectories (p : Path) : Except SystemError Unit × FileTree :=
  makeDirectoriesFrom p.root p.parts.reverse t

def remove (p : Path) : Except SystemError FileTree := do
  let place ← t.locate p
  match t.entry? place with
  | none => .error ⟨.missing, p⟩
  | some .directory => .error ⟨.isDirectory, p⟩
  | some (.file ..) => .ok { t with entries := t.entries.erase place }

/-- What is directly in the directory at a place: names and entries. -/
def children (place : Place) : List (String × Entry) :=
  t.entries.toList.filterMap fun (p, e) =>
    if p.length = place.length + 1 && place.isPrefixOf p then p.getLast?.map (·, e) else none

/-- The directories at a place and below it, by the way to them. -/
def directoriesBelow (place : Place) : List (List String) :=
  t.entries.toList.filterMap fun (p, e) =>
    if e = .directory && place.isPrefixOf p then some (p.drop place.length) else none

/-- The files below the directory one is in, by the text of their way from there. -/
def files : List (String × List UInt8) :=
  let found := t.entries.toList.filterMap fun (p, e) => match e with
    | .file bytes _ =>
      if t.base.isPrefixOf p then some ("/".intercalate (p.drop t.base.length), bytes) else none
    | .directory => none
  found.mergeSort fun a b => decide (a.1 < b.1) || a.1 == b.1

end FileTree
end Argot
