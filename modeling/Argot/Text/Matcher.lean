import Argot.Text.Word
import Argot.Text.Blank
/-!
# Matcher — what a pattern takes from the front of a text

A matcher says how many characters it takes from the front of a text, or that it does not fit there.  Matchers are
deterministic: a repetition takes as much as it can, and of two alternatives the first that fits is taken.  On top of
them stand the three uses of a pattern: asking whether it occurs, replacing its occurrences from left to right, and
listing them.  Occurrences never overlap.
-/
namespace Argot
namespace Text

/-- How many characters a pattern takes from the front of a text, if it fits. -/
abbrev Matcher := List Char → Option Nat

namespace Matcher

def word (s : List Char) : Matcher := fun cs =>
  if s.isPrefixOf cs then some s.length else none

def one (p : Char → Bool) : Matcher
  | c :: _ => if p c then some 1 else none
  | [] => none

/-- As many characters of a class as there are, perhaps none. -/
def many (p : Char → Bool) : Matcher := fun cs =>
  some (cs.takeWhile p).length

/-- As many characters of a class as there are, at least one. -/
def many1 (p : Char → Bool) : Matcher := fun cs =>
  match (cs.takeWhile p).length with
  | 0 => none
  | n => some n

def andThen (m n : Matcher) : Matcher := fun cs =>
  (m cs).bind fun i => (n (cs.drop i)).map (i + ·)

def orElse (m n : Matcher) : Matcher := fun cs =>
  (m cs).or (n cs)

def optional (m : Matcher) : Matcher := fun cs =>
  some ((m cs).getD 0)

def oneOf : List Matcher → Matcher
  | [] => fun _ => none
  | m :: rest => m.orElse (oneOf rest)

def sequence : List Matcher → Matcher
  | [] => fun _ => some 0
  | m :: rest => m.andThen (sequence rest)

/-- One of these words; the list order decides where one begins another. -/
def anyWord (words : List String) : Matcher :=
  oneOf (words.map fun w => word w.toList)

/-- As few characters of a class as possible, then the closing pattern. -/
def upTo (p : Char → Bool) (closing : Matcher) : Matcher
  | [] => closing []
  | c :: rest =>
    match closing (c :: rest) with
    | some n => some n
    | none => if p c then (upTo p closing rest).map (1 + ·) else none

/-- The end of a word: the next character continues none. -/
def wordEnd : Matcher
  | c :: _ => if isWordChar c then none else some 0
  | [] => some 0

/-- Whether a pattern fits somewhere, at the end of the text too.  `before` is the character before the text. -/
def occursAfter (m : Option Char → Matcher) (before : Option Char) : List Char → Bool
  | [] => (m before []).isSome
  | c :: rest => (m before (c :: rest)).isSome || occursAfter m (some c) rest

/-- Whether a pattern, which may look at the character before it, fits somewhere. -/
def occurs (m : Option Char → Matcher) (cs : List Char) : Bool :=
  occursAfter m none cs

/-- The text with every occurrence replaced, after the first `skip` characters, which belong to an occurrence that has
been replaced already.  A pattern that takes nothing is no occurrence. -/
def replaceFrom (m : Matcher) (substitute : List Char) : (skip : Nat) → List Char → List Char
  | _, [] => []
  | skip + 1, _ :: rest => replaceFrom m substitute skip rest
  | 0, c :: rest =>
    match m (c :: rest) with
    | some (n + 1) => substitute ++ replaceFrom m substitute n rest
    | _ => c :: replaceFrom m substitute 0 rest

/-- The text with every occurrence replaced, from left to right. -/
def replaceAll (m : Matcher) (substitute : List Char) (cs : List Char) : List Char :=
  replaceFrom m substitute 0 cs

def occurrencesFrom (m : Matcher) : (skip : Nat) → List Char → List (List Char)
  | _, [] => []
  | skip + 1, _ :: rest => occurrencesFrom m skip rest
  | 0, c :: rest =>
    match m (c :: rest) with
    | some (n + 1) => (c :: rest.take n) :: occurrencesFrom m n rest
    | _ => occurrencesFrom m 0 rest

def occurrences (m : Matcher) (cs : List Char) : List (List Char) :=
  occurrencesFrom m 0 cs

def contains (needle text : List Char) : Bool :=
  occurs (fun _ => word needle) text

end Matcher
end Text
end Argot
