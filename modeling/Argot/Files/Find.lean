import Argot.Files.FileTree
import Argot.Files.Glob
/-!
# Find — the files that patterns select

A pattern is a path whose components may be name patterns; a component of two stars stands for any way down, two dots
for the way up.  A search goes through the directories below a target, or stays in the target itself.  Files are left
out by patterns that fit their name, one of their components, their whole path or the end of it.
-/
namespace Argot

/-- Why a pattern selects nothing at all. -/
inductive PatternError where
  | empty (pattern : String)
  | rooted
  | mixedStars
  | noComponents
  | onlySlash
  deriving DecidableEq, Repr

def PatternError.message : PatternError → String
  | .empty pattern => "Unacceptable pattern: " ++ Text.quoted pattern
  | .rooted => "Non-relative patterns are unsupported"
  | .mixedStars => "Invalid pattern: '**' can only be an entire path component"
  | .noComponents => "tuple index out of range"
  | .onlySlash => "'_TerminatingSelector' object has no attribute 'select_from'"

/-- Why a search finds nothing out. -/
inductive FindError where
  | pattern (e : PatternError)
  | system (e : SystemError)
  deriving DecidableEq, Repr

def FindError.message : FindError → String
  | .pattern e => e.message
  | .system e => e.message

namespace FileTree

variable (t : FileTree)

def isDirectoryAt (place : Place) : Bool :=
  t.entry? place == some .directory

/-- The ways from a target to what a pattern selects, where `way` has led from the target to a place and the rest of the
pattern is left; only directories have anything below them.  An empty component, which ends a pattern, selects what it
is reached by. -/
def select (target : Path) (place : Place) (way : List String) :
    (components : List String) → Except SystemError (List (List String))
  | [] => .ok [way]
  | component :: rest =>
    let usable (e : Entry) : Bool := rest.isEmpty || e == .directory
    if component = "" then .ok [way]
    else if component = "**" then
      return (← (t.directoriesBelow place).mapM fun below =>
        select target (place ++ below) (way ++ below) rest).flatten
    else if component = ".." then select target place.dropLast (way ++ [component]) rest
    else if Glob.isPattern component then
      let fitting := (t.children place).filter fun c => Glob.matchesText component c.1 && usable c.2
      return (← fitting.mapM fun c => select target (place ++ [c.1]) (way ++ [c.1]) rest).flatten
    else do
      match ← t.look { target with parts := target.parts ++ way ++ [component] } with
      | some e => if usable e then select target (place ++ [component]) (way ++ [component]) rest else .ok []
      | none => .ok []

/-- The components of a pattern; one that ends in a slash has an empty component at its end, so it selects
directories. -/
def patternComponents (pattern : String) : Except PatternError (List String) :=
  let p := Path.ofString pattern
  if !p.root.isEmpty then .error .rooted
  else if p.parts.any fun c => c != "**" && (c.toList.zip (c.toList.drop 1)).contains ('*', '*') then
    .error .mixedStars
  else .ok (p.parts ++ if pattern.toList.getLast? == some '/' then [""] else [])

/-- The components that are searched for: those of the pattern, or any way down before them.  A search that does not go
down needs a component to look for. -/
def searchComponents (recursive : Bool) (pattern : String) : Except PatternError (List String) := do
  if pattern.isEmpty && !recursive then .error (.empty pattern)
  else match recursive, ← patternComponents pattern with
    | true, components => .ok ("**" :: components)
    | false, [] => .error .noComponents
    | false, [""] => .error .onlySlash
    | false, components => .ok components

/-- The ways from a directory to what a pattern selects: in it, or in it and everywhere below. -/
def waysTo (target : Path) (place : Place) (recursive : Bool) (pattern : String) :
    Except FindError (List (List String)) := do
  let components ← (searchComponents recursive pattern).mapError .pattern
  (t.select target place [] components).mapError .system

end FileTree

def isExcludedBy (path : Path) (pattern : String) : Bool :=
  Glob.matchesText pattern path.name || path.components.contains pattern
    || Glob.matchesText pattern path.toString || Glob.matchesText ("*/" ++ pattern) path.toString

def isExcluded (patterns : List String) (path : Path) : Bool :=
  patterns.any (isExcludedBy path)

def distinctPaths : List Path → List Path
  | [] => []
  | p :: rest => p :: (distinctPaths rest).filter (· != p)

/-- The files that patterns select and that are not left out: a file itself, or those in a directory, in order.  For
those in a directory, their way from the directory decides whether they are left out. -/
def findFiles (t : FileTree) (recursive : Bool) (exclude : List String) (target : Path) (patterns : List String) :
    Except FindError (List Path) := do
  if ← (t.isFile target).mapError .system then return (if isExcluded exclude target then [] else [target])
  else match t.locate target with
    | .error _ => return []
    | .ok place =>
      if !t.isDirectoryAt place then return []
      else
        let below (way : List String) : Path := { target with parts := target.parts ++ way }
        let ways ← patterns.mapM (t.waysTo target place recursive)
        let files ← ways.flatten.filterM fun way => (t.isFile (below way)).mapError .system
        let kept := files.filter fun way => !isExcluded exclude ⟨"", way⟩
        return (distinctPaths (kept.map below)).mergeSort Path.before

end Argot
