import Argot.Options
import Argot.Text.Matcher
/-!
# Sniff — what a text looks like

Without parsing, a text shows whether it holds markup or type syntax and which framework it is written for.  Markup is a
closing tag, a tag that closes itself, or an empty opening tag; a lone less-than sign is too ambiguous.
-/
namespace Argot
namespace Sniff

open Text Matcher

def isTagChar (c : Char) : Bool :=
  isWordChar c || c == '.' || c == ':' || c == '-'

def tagName : Matcher :=
  (one isLatinLetter).andThen (many isTagChar)

/-- What follows the name of a tag that closes itself: nothing or white space with attributes, and the slash at the
end. -/
def selfClosing : Matcher := fun cs =>
  match cs with
  | c :: rest =>
    if isBlank c then
      let inner := rest.takeWhile fun c => c != '<' && c != '>'
      if inner.getLast? == some '/' && (rest.drop inner.length).head? == some '>' then some (inner.length + 2)
      else none
    else word "/>".toList cs
  | [] => none

def markup : Matcher :=
  oneOf [
    sequence [word "</".toList, tagName, many isBlank, word [ '>' ]],
    sequence [word ['<'], tagName, selfClosing],
    word "<>".toList]

def containsMarkup (text : String) : Bool :=
  occurs (fun _ => markup) text.toList

def atWordStart (m : Matcher) (before : Option Char) : Matcher := fun cs =>
  if isBoundary before cs.head? then m cs else none

def angleBrackets : Matcher :=
  sequence [word ['<'], many (· != '>'), word ['>']]

def annotatedTypes : List String := ["string", "number", "boolean", "any", "void", "unknown", "never"]

def memberModifiers : List String := ["public", "private", "protected", "readonly"]

def castTypes : List String := ["const", "string", "number", "boolean", "any", "unknown"]

def typeSyntax (before : Option Char) : Matcher :=
  oneOf [
    atWordStart (sequence [word "interface".toList, many1 isBlank, one isNameStart]) before,
    atWordStart (sequence [word "type".toList, many1 isBlank, one isNameStart, many isNameChar, many isBlank,
      optional angleBrackets, many isBlank, word ['=']]) before,
    sequence [one fun c => isNameChar c || c == ')' || c == ']', many isBlank, word [':'], many isBlank,
      anyWord annotatedTypes, wordEnd],
    atWordStart (sequence [anyWord memberModifiers, many1 isBlank, one isNameStart]) before,
    atWordStart (sequence [word "as".toList, many1 isBlank, anyWord castTypes, wordEnd]) before]

def hasTypeSyntax (text : String) : Bool :=
  occurs typeSyntax text.toList

def extension (text : String) : String :=
  if containsMarkup text then (if hasTypeSyntax text then ".tsx" else ".jsx")
  else if hasTypeSyntax text then ".ts" else ".js"

/-- The grammar for a source: the one asked for, or the one with markup where the framework or the text needs it. -/
def dialect (text : String) (options : Options) : Dialect :=
  match options.dialect with
  | some d => d
  | none => if options.framework == .react || containsMarkup text then .tsx else .typescript

/-- Texts that betray a framework, in order of priority. -/
def frameworkMarkers : List (Framework × List String) :=
  [(.react, ["import React", "from 'react'", "from \"react\"", "jsx"]),
    (.angular, ["@Component", "@Injectable", "angular"]),
    (.vue, ["Vue", "vue", "<template>"])]

def framework (source : String) : Framework :=
  match frameworkMarkers.find? fun m => m.2.any fun marker => contains marker.toList source.toList with
  | some m => m.1
  | none => .plain

end Sniff
end Argot
