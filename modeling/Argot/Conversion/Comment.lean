import Argot.Text.Matcher
import Argot.Text.Spelling
/-!
# Comment — the comments that conversion adds and takes away

An annotation names an operator and its form, a decoration a saying.  Both are block comments of a fixed shape, which is
how they are found again: an annotation goes with one space before it, a decoration with the space after it or with the
line end and the indentation that follow.
-/
namespace Argot
namespace Comment

open Text Matcher

def annotation (operator : String) (form : Spelling) : Spelling :=
  " /* GACHI: " ++ operator ++ " -> " ++ form ++ " */"

def decoration (saying : String) : String :=
  "/* ♂ " ++ saying ++ " ♂ */"

def onLine (c : Char) : Bool :=
  c != '\n'

/-- The end of an annotation: an arrow, a word and the end of the comment. -/
def annotationEnd : Matcher :=
  sequence [word " -> ".toList, many1 isNameChar, word " */".toList]

def annotationMatcher : Matcher :=
  sequence [optional (word [' ']), word "/* GACHI: ".toList, upTo onLine annotationEnd]

def decorationEnd : Matcher :=
  sequence [word " ♂ */".toList,
    orElse (andThen (word ['\n']) (many fun c => c == ' ' || c == '\t')) (word [' '])]

def decorationMatcher : Matcher :=
  sequence [word "/* ♂ ".toList, upTo onLine decorationEnd]

/-- A text without annotations and, after that, without decorations. -/
def stripChars (cs : List Char) : List Char :=
  replaceAll decorationMatcher [] (replaceAll annotationMatcher [] cs)

def strip (text : String) : String :=
  String.ofList (stripChars text.toList)

end Comment
end Argot
