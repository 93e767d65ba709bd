import Argot.Conversion.Comment
import Argot.Vocabulary.Table
/-!
# Reverse — from forms back to host words

The converted text is no source a parser would take, so the way back reads it as characters.  The generated comments
are taken away.  Then, from left to right, each form that stands as a whole word gives way to its host word, the
longest form first where several fit.  What has been put in is not read again.

Forms are searched for code point by code point: a form may hold halves of characters.
-/
namespace Argot
namespace Reverse

open Text

/-- Whether a form stands at the front of some code points and no name goes on after it. -/
def fitsPoints (ps form : List CodePoint) : Bool :=
  form.isPrefixOf ps && !(ps.drop form.length).head?.any (CodePoint.any isNameChar)

/-- The form that is replaced at the front of the code points which follow `before`: the first of the list that stands
there as a whole word. -/
def formPoints? (forms : List (List CodePoint)) (before : Option CodePoint) (ps : List CodePoint) :
    Option (List CodePoint) :=
  if before.any (CodePoint.any isNameChar) then none else forms.find? (fitsPoints ps)

/-- Replaces forms in code points that follow `before`, after the first `skip` of them, which belong to a form that has
been replaced already.  An empty form stands between two characters, neither of which continues a name. -/
def replacePoints (forms : List (List CodePoint)) (host : List CodePoint → List CodePoint) :
    (before : Option CodePoint) → (skip : Nat) → List CodePoint → List CodePoint
  | before, _, [] => ((formPoints? forms before []).map host).getD []
  | _, skip + 1, p :: rest => replacePoints forms host (some p) skip rest
  | before, 0, p :: rest =>
    match formPoints? forms before (p :: rest) with
    | none => p :: replacePoints forms host (some p) 0 rest
    | some [] => host [] ++ p :: replacePoints forms host (some p) 0 rest
    | some (x :: form) => host (x :: form) ++ replacePoints forms host (some p) form.length rest

def replaceForms (t : Table) (forms : List Spelling) (ps : List CodePoint) : List CodePoint :=
  replacePoints (forms.map Spelling.points) (fun form => (t.reverse (.ofPoints form)).points) none 0 ps

/-- The host text of a converted one.  It is no text where a host word is none. -/
def convert (t : Table) (text : String) : Spelling :=
  let cs := Comment.stripChars text.toList
  match t.pattern? with
  | none => .text (String.ofList cs)
  | some forms => .ofPoints (replaceForms t forms (CodePoint.ofChars cs))

end Reverse
end Argot
