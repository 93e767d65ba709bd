import Argot.Text.Quoted
/-!
# Path — names of files and directories

A path is a root, if it has one, and the components below.  Empty components and single dots vanish when a path is read,
double dots stay.  Exactly two slashes at the front are a root of their own.  The path without a component is the
directory one is in.
-/
namespace Argot

/-- A path: its root, which is empty for a relative path, and its components. -/
structure Path where
  root : String
  parts : List String
  deriving DecidableEq, Repr

/-- Why a path gives no other. -/
inductive PathError where
  | emptyName (path : String)
  | invalidName (name : String)
  /-- The path holds a null character, so nothing can be found out about it. -/
  | nullCharacter
  deriving DecidableEq, Repr

def PathError.message : PathError → String
  | .emptyName path => "PosixPath(" ++ Text.quoted path ++ ") has an empty name"
  | .invalidName name => "Invalid name " ++ Text.quoted name
  | .nullCharacter => "embedded null byte"

namespace Path

def pieces (separator : Char) : List Char → List (List Char)
  | [] => [[]]
  | c :: rest =>
    if c == separator then [] :: pieces separator rest
    else match pieces separator rest with
      | [] => [[c]]
      | piece :: more => (c :: piece) :: more

def rootOf (cs : List Char) : String :=
  match (cs.takeWhile (· == '/')).length with
  | 0 => ""
  | 2 => "//"
  | _ => "/"

def ofString (text : String) : Path where
  root := rootOf text.toList
  parts := ((pieces '/' text.toList).map String.ofList).filter fun s => s != "" && s != "."

/-- The path that a text names, with the components that vanish kept, so that its text is the given one. -/
def verbatim (text : String) : Path where
  root := rootOf text.toList
  parts := (pieces '/' (text.toList.drop (rootOf text.toList).length)).map String.ofList

def toString (p : Path) : String :=
  if p.root.isEmpty && p.parts.isEmpty then "." else p.root ++ "/".intercalate p.parts

def components (p : Path) : List String :=
  if p.root.isEmpty then p.parts else p.root :: p.parts

def name (p : Path) : String :=
  p.parts.getLastD ""

def parent (p : Path) : Path :=
  { p with parts := p.parts.dropLast }

/-- The name without its last suffix, and the suffix with its dot.  A dot at the front or at the end begins none. -/
def splitSuffix (name : String) : String × String :=
  let cs := name.toList
  let suffix := (cs.reverse.takeWhile (· != '.')).reverse
  let stem := cs.take (cs.length - suffix.length - 1)
  if suffix.isEmpty || stem.isEmpty || suffix.length = cs.length then (name, "")
  else (String.ofList stem, String.ofList ('.' :: suffix))

def stem (p : Path) : String :=
  (splitSuffix p.name).1

def suffix (p : Path) : String :=
  (splitSuffix p.name).2

/-- Whether a text is a name: one component and nothing else. -/
def isName (text : String) : Bool :=
  let p := ofString text
  text.toList.getLast? != some '/' && p.root.isEmpty && p.parts.length == 1 && !text.isEmpty

def withName (p : Path) (name : String) : Except PathError Path :=
  if p.parts.isEmpty then .error (.emptyName p.toString)
  else if isName name then .ok { p with parts := p.parts.dropLast ++ [name] }
  else .error (.invalidName name)

/-- One path below another; a path with a root stays as it is. -/
def join (p q : Path) : Path :=
  if q.root.isEmpty then { p with parts := p.parts ++ q.parts } else q

def child (p : Path) (text : String) : Path :=
  p.join (ofString text)

/-- Component by component, a beginning before what it begins. -/
def listBefore : List String → List String → Bool
  | [], _ => true
  | _ :: _, [] => false
  | a :: as, b :: bs => if a = b then listBefore as bs else decide (a < b)

/-- Paths are ordered component by component, the root first. -/
def before (p q : Path) : Bool :=
  listBefore p.components q.components

def hasNull (text : String) : Bool :=
  text.toList.contains '\x00'

/-- The components from the top that a path stands for when one is at `base`; double dots go up. -/
def resolve (base : List String) (p : Path) : Except PathError (List String) :=
  if p.parts.any hasNull then .error .nullCharacter
  else .ok (p.parts.foldl (fun here part => if part = ".." then here.dropLast else here ++ [part])
    (if p.root.isEmpty then base else []))

end Path
end Argot
