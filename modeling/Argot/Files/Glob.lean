/-!
# Glob — patterns for names

A star stands for any characters, a question mark for one, and brackets for one character of a set or, with an
exclamation mark in front, of none of a set.  A set lists characters and ranges; a range whose ends are in the wrong
order is left out with both its ends.  A bracket that is not closed stands for itself.  Patterns know no separators.
-/
namespace Argot

/-- A set of characters: singles and inclusive ranges. -/
structure CharSet where
  singles : List Char
  ranges : List (Char × Char)
  deriving DecidableEq, Repr

def CharSet.contains (s : CharSet) (c : Char) : Bool :=
  s.singles.contains c || s.ranges.any fun r => r.1 ≤ c && c ≤ r.2

namespace Glob

/-- One step of a pattern. -/
inductive Piece where
  | star
  | any
  | exactly (c : Char)
  | oneOf (negated : Bool) (set : CharSet)
  deriving DecidableEq, Repr

def Piece.takes : Piece → Char → Bool
  | .star, _ | .any, _ => true
  | .exactly x, c => x == c
  | .oneOf negated set, c => set.contains c != negated

/-- For each place, whether it or one before it is reached; `before` tells it of the places before the list. -/
def spread : (before : Bool) → List Bool → List Bool
  | _, [] => []
  | before, here :: rest => (before || here) :: spread (before || here) rest

/-- Which places of a text are reached by one more step.  The places are those before each character and the end. -/
def advance (cs : List Char) (reached : List Bool) : Piece → List Bool
  | .star => spread false reached
  | piece => false :: List.zipWith (fun here c => here && piece.takes c) reached cs

/-- Whether a pattern fits a text as a whole: its steps lead from the beginning to the end.  Each step looks at each
place once, however many stars there are. -/
def fits (pieces : List Piece) (cs : List Char) : Bool :=
  (pieces.foldl (advance cs) (true :: cs.map fun _ => false)).getLastD false

/-- What is before the first hyphen that comes after the first `skip` characters, and what is behind it. -/
def splitAtHyphen (skip : Nat) (cs : List Char) : Option (List Char × List Char) :=
  let ahead := (cs.drop skip).takeWhile (· != '-')
  match (cs.drop skip).drop ahead.length with
  | [] => none
  | _ :: behind => some (cs.take skip ++ ahead, behind)

/-- The text between brackets cut at the hyphens that form ranges.  Such a hyphen has a character before it and is not
one of the two characters after another; the last one of the text forms none.  Each cut shortens the text, so its length
is fuel enough. -/
def chunks : (fuel : Nat) → (skip : Nat) → List Char → List (List Char)
  | 0, _, cs => [cs]
  | fuel + 1, skip, cs =>
    match splitAtHyphen skip cs with
    | none => [cs]
    | some (chunk, []) => [chunk ++ ['-']]
    | some (chunk, behind) => chunk :: chunks fuel 2 behind

/-- Joins chunks between which the range would run backwards; its two ends are lost. -/
def joinBackwards : List (List Char) → List (List Char)
  | [] => []
  | chunk :: rest =>
    match joinBackwards rest with
    | next :: more =>
      match chunk.getLast?, next.head? with
      | some a, some b => if b < a then (chunk.dropLast ++ next.drop 1) :: more else chunk :: next :: more
      | _, _ => chunk :: next :: more
    | [] => [chunk]

def rangesBetween : List (List Char) → List (Char × Char)
  | chunk :: next :: rest =>
    match chunk.getLast?, next.head? with
    | some a, some b => (a, b) :: rangesBetween (next :: rest)
    | _, _ => rangesBetween (next :: rest)
  | _ => []

def bracketPiece (content : List Char) : Piece :=
  let cut := joinBackwards (chunks content.length (if content.head? == some '!' then 2 else 1) content)
  let negated := (cut.headD []).head? == some '!'
  let cut := match cut with
    | first :: rest => (if negated then first.drop 1 else first) :: rest
    | [] => []
  .oneOf negated ⟨cut.flatten, rangesBetween cut⟩

/-- How long the text between brackets is, for what follows an opening bracket: it ends at a closing one, but not in
front of its first character. -/
def bracketLength? (cs : List Char) : Option Nat :=
  let skip := if cs.head? == some '!' then 1 else 0
  let skip := if (cs.drop skip).head? == some ']' then skip + 1 else skip
  let length := skip + ((cs.drop skip).takeWhile (· != ']')).length
  if length < cs.length then some length else none

/-- The pattern in a text, after the first `skip` characters. -/
def parseFrom : (skip : Nat) → List Char → List Piece
  | _, [] => []
  | skip + 1, _ :: rest => parseFrom skip rest
  | 0, c :: rest =>
    if c == '*' then .star :: parseFrom 0 rest
    else if c == '?' then .any :: parseFrom 0 rest
    else if c == '[' then
      match bracketLength? rest with
      | some length => bracketPiece (rest.take length) :: parseFrom (length + 1) rest
      | none => .exactly c :: parseFrom 0 rest
    else .exactly c :: parseFrom 0 rest

/-- Whether a text has the form that a pattern describes. -/
def matchesText (pattern text : String) : Bool :=
  fits (parseFrom 0 pattern.toList) text.toList

/-- Whether a text has one of the characters that make a pattern. -/
def isPattern (text : String) : Bool :=
  text.toList.any fun c => c == '*' || c == '?' || c == '['

end Glob
end Argot
