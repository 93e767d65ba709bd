import Argot.Diagnostic
import Argot.Text.Matcher
import Argot.Vocabulary.Table
/-!
# Validation — words that cannot stand in a converted text

Outside of comments and literals, each word of a converted text has to be a form of the vocabulary or a name in Latin
letters.  Each other word is reported once, with the forms that resemble it.
-/
namespace Argot
namespace Validation

open Text Matcher

/-- The rest of a literal up to its closing mark.  A backslash takes the next character with it, but never a line feed;
only a literal over several lines may hold one by itself. -/
def literalRest (mark : Char) (severalLines : Bool) : Matcher
  | [] => none
  | [c] => if c == mark then some 1 else none
  | c :: e :: rest =>
    if c == mark then some 1
    else if c == '\\' then (if e == '\n' then none else (literalRest mark severalLines rest).map (2 + ·))
    else if c == '\n' && !severalLines then none
    else (literalRest mark severalLines (e :: rest)).map (1 + ·)

def literal (mark : Char) (severalLines : Bool) : Matcher :=
  (word [mark]).andThen (literalRest mark severalLines)

def nonCode : Matcher :=
  oneOf [
    (word "//".toList).andThen (many (· != '\n')),
    (word "/*".toList).andThen (upTo (fun _ => true) (word "*/".toList)),
    literal '\x27' false,
    literal '\x22' false,
    literal '\x60' true]

/-- A word: an at sign if there is one, a letter or underscore, and name characters. -/
def wordMatcher : Matcher :=
  sequence [optional (word ['@']), one (fun c => isWordChar c && !isDecimalDigit c), many isNameChar]

/-- The words of a text outside of comments and literals. -/
def words (source : String) : List String :=
  (occurrences wordMatcher (replaceAll nonCode [' '] source.toList)).map String.ofList

def isHostName (w : String) : Bool :=
  match w.toList with
  | c :: rest => isNameStart c && rest.all fun c => isNameStart c || isAsciiDigit c
  | [] => false

def isKnown (t : Table) (w : String) : Bool :=
  t.hasForm w || isHostName w

/-- The elements of a list at their first occurrence, but none that is in `seen`. -/
def distinct (seen : List String) : List String → List String
  | [] => []
  | w :: rest => if seen.contains w then distinct seen rest else w :: distinct (w :: seen) rest

/-- What validation found. -/
structure Report where
  valid : Bool
  errors : List String
  /-- One line for each unknown word that resembles forms. -/
  suggestions : List String
  deriving DecidableEq, Repr

def Report.diagnostics (r : Report) (severity : Severity := .error) : Diagnostics :=
  r.errors.map fun message => { message, severity }

def unknownWord (w : String) : String :=
  "Unknown GachiScript keyword: \"" ++ w ++ "\""

def suggestion? (t : Table) (w : String) : Option String :=
  match t.suggestions w with
  | [] => none
  | similar => some ("Did you mean: " ++ ", ".intercalate (similar.map Spelling.shown) ++ "?")

def check (t : Table) (source : String) : Report :=
  let unknown := (distinct [] (words source)).filter fun w => !isKnown t w
  { valid := unknown.isEmpty, errors := unknown.map unknownWord, suggestions := unknown.filterMap (suggestion? t) }

end Validation
end Argot
