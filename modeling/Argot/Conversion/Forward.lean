import Argot.Diagnostic
import Argot.Conversion.Comment
import Argot.Conversion.Decision
import Argot.Conversion.Edit
import Argot.Source.Node
import Argot.Twister
import Argot.Vocabulary.Standard
/-!
# Forward — from host words to forms

Every token of a source is decided on by itself.  A token that is to be converted is looked up, and its form takes its
place; a form that would not read as one name is refused with a warning and leaves the token as it is.  A name that
stays although the way back would replace it is reported.  All changes are edits of the source, so what lies between
tokens is copied as it is.
-/
namespace Argot
namespace Forward

/-- Whether a form reads as one name, with at most one at sign before it; a line feed at its end does not count. -/
def isNameForm : Spelling → Bool
  | .text form =>
    let cs := Kind.withoutFinalNewline form.toList
    match (if cs.head? == some '@' then cs.drop 1 else cs) with
    | c :: rest => Text.isNameStart c && rest.all Text.isNameChar
    | [] => false
  | .broken .. => false

/-- What becomes of a token. -/
inductive Treatment where
  | keep
  | change (e : Edit)
  | refuse (text : String) (form : Spelling)
  deriving DecidableEq, Repr

def inner (text : String) : String :=
  String.ofList ((text.toList.drop 1).dropLast)

/-- The form of a token.  The name of a decorator is looked up with its at sign first under Angular. -/
def formOf (t : Table) (o : Options) (n : Node) (category : Option Category) : Spelling :=
  let decorated := t.forward ("@" ++ n.text) (some .frameworkIdentifier)
  let name? :=
    if n.parent == .decorator && o.framework == .angular && decorated != "@" ++ n.text then decorated.behindAt?
    else none
  name?.getD (t.forward n.text category)

def treatString (t : Table) (n : Node) (category : Option Category) : Treatment :=
  if n.text.length < 2 then .keep
  else
    let form := t.forward (inner n.text) category
    if form == inner n.text then .keep else .change ⟨n.start + 1, n.stop - 1, form⟩

/-- An operator of the table is followed by an annotation in strict mode. -/
def treatOperator (t : Table) (o : Options) (n : Node) : Treatment :=
  if o.strictMode && t.hasHost n.text (some .operator) then
    .change (.insertion n.stop (Comment.annotation n.text (t.forward n.text (some .operator))))
  else .keep

def treatName (t : Table) (o : Options) (n : Node) (category : Option Category) : Treatment :=
  let form := formOf t o n category
  if form == n.text then .keep
  else if isNameForm form then .change ⟨n.start, n.stop, form⟩
  else .refuse n.text form

def decide (o : Options) (n : Node) : Decision :=
  Decision.of
    { kind := n.kind, parent := n.parent, slot := n.slot, text := n.text, framework := o.framework, owner := n.owner }

def treat (t : Table) (o : Options) (n : Node) : Treatment :=
  let d := decide o n
  match d.action with
  | .skip => .keep
  | .annotate => treatOperator t o n
  | .substitute => if n.kind == .stringLiteral then treatString t n d.category else treatName t o n d.category

def position (n : Node) : Position := ⟨n.line, n.column⟩

def refusal (n : Node) (text : String) (form : Spelling) : Diagnostic where
  message := "Failed to transform node at line " ++ toString n.line ++ ": '" ++ text ++ "' maps to '" ++ form.shown
    ++ "', which is not a valid identifier"
  severity := .warning
  position := some (position n)

/-- The note about a name that the way back will replace. -/
def fidelityNote (t : Table) (n : Node) : Diagnostic where
  message := "'" ++ n.text ++ "' is a GachiScript form left unchanged here; reverse transformation will rewrite it to '"
    ++ (t.reverse n.text).shown ++ "'"
  severity := .info
  position := some (position n)

def visitLeaf (t : Table) (o : Options) (n : Node) : List Edit × Diagnostics :=
  if n.kind == .comment then (if o.preserveComments then [] else [.deletion n.start n.stop], [])
  else match treat t o n with
    | .change e => ([e], [])
    | .refuse text form => ([], [refusal n text form])
    | .keep => ([], if n.kind.isNameLike && t.isReversible n.text then [fidelityNote t n] else [])

/-- The comment that decorates a declaration: on a line of its own if the declaration begins its line. -/
def decorate (n : Node) (saying : String) : Edit :=
  .insertion n.start (Comment.decoration saying ++ (if n.startsLine then "\n" ++ n.indent else " "))

/-- The edits and diagnostics of nodes in order, and the generator after them. -/
def visit (t : Table) (o : Options) : Twister → List Node → List Edit × Diagnostics × Twister
  | g, [] => ([], [], g)
  | g, n :: rest =>
    if n.kind.isDeclaration then
      if o.randomQuotes then
        let (saying, g) := g.choose Standard.quotes ""
        let (edits, notes, g) := visit t o g rest
        (decorate n saying :: edits, notes, g)
      else visit t o g rest
    else if n.isLeaf then
      let (edits, notes) := visitLeaf t o n
      let (laterEdits, laterNotes, g) := visit t o g rest
      (edits ++ laterEdits, notes ++ laterNotes, g)
    else visit t o g rest

/-- The converted source of a parse tree with the diagnostics, and the generator after it. -/
def convert (t : Table) (o : Options) (g : Twister) (source : List UInt8) (tree : Tree) :
    Except EditError Outcome × Twister :=
  match Node.ofTree source tree with
  | .error e => (.error (.undecodable e), g)
  | .ok nodes =>
    let (edits, diagnostics, g) := visit t o g nodes
    ((Edit.applyAll source edits).map fun code => { code, diagnostics }, g)

end Forward
end Argot
