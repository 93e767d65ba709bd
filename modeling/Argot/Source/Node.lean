import Argot.Slice
import Argot.Source.Kind
import Argot.Text.Utf8
/-!
# Node — the nodes of a source in order

Walking a tree in source order gives each node its kind, the kind of its parent, the field it fills, and, for a part of an
object property, the property's key.  The walk keeps a stack of the nodes that it has still to come to, and does not enter
string literals.  Tokens carry their text; declarations carry what stands before them on their line.
-/
namespace Argot

/-- A node of a source, placed and tagged. -/
structure Node where
  kind : Kind
  type : String
  /-- The text of a token; nothing for a node that is entered. -/
  text : String
  start : Nat
  stop : Nat
  line : Nat
  /-- The place of the first byte on its line, counted from one. -/
  column : Nat
  parent : Kind
  slot : Option String
  /-- The key of the object property whose part the node is. -/
  owner : Option String
  /-- Whether the node is a token, which the walk does not enter. -/
  isLeaf : Bool
  /-- Nothing but white space stands before the node on its line. -/
  startsLine : Bool := false
  indent : String := ""
  deriving DecidableEq, Repr

namespace Node

def isIndentByte (b : UInt8) : Bool :=
  b == 0x20 || (0x09 ≤ b && b ≤ 0x0D)

def textBetween (source : List UInt8) (start stop : Nat) : Except Text.Utf8Error String :=
  Text.decodeString (slice source start stop)

def linePart (source : List UInt8) (l : Label) : List UInt8 :=
  slice source ((l.start : Int) - l.column) l.start

def indentText (bytes : List UInt8) : String :=
  String.ofList (bytes.map fun b => Char.ofNat b.toNat)

/-- The key of an object property; a quoted key is given without its quotes. -/
def ownerKey (source : List UInt8) (children : List Tree) : Except Text.Utf8Error (Option String) :=
  match children.find? fun t => t.label.field == some "key" with
  | none => .ok none
  | some key => do
    let text ← textBetween source key.label.start key.label.stop
    if key.label.type == "string" && text.length ≥ 2 then
      return some (String.ofList ((text.toList.drop 1).dropLast))
    else return some text

/-- The owner of the children of a node of some kind: only an object property owns them. -/
def ownerBelow (source : List UInt8) (kind : Kind) (children : List Tree) : Except Text.Utf8Error (Option String) :=
  if kind == .propertyAssignment then ownerKey source children else .ok none

def ofLabel (source : List UInt8) (kind parent : Kind) (owner : Option String) (l : Label) (isLeaf : Bool)
    (text : String) : Node :=
  let before := linePart source l
  let startsLine := kind.isDeclaration && before.all isIndentByte
  { kind, type := l.type, text, start := l.start, stop := l.stop, line := l.row + 1, column := l.column + 1,
    parent, slot := l.field, owner, isLeaf, startsLine, indent := if startsLine then indentText before else "" }

/-- A node that the walk has still to come to, with what its parent tells about it. -/
structure Awaited where
  tree : Tree
  parentType : Option String
  parent : Kind
  owner : Option String

/-- How many nodes are still to come. -/
def left (stack : List Awaited) : Nat :=
  Tree.sizeAmong (stack.map Awaited.tree)

@[simp] theorem left_cons (e : Awaited) (stack : List Awaited) : left (e :: stack) = e.tree.size + left stack := rfl

@[simp] theorem left_append (stack stack' : List Awaited) : left (stack ++ stack') = left stack + left stack' := by
  simp [left]

/-- The children of a node, awaited with what it tells about itself. -/
def awaiting (parentType : Option String) (parent : Kind) (owner : Option String) (cs : List Tree) : List Awaited :=
  cs.map fun t => ⟨t, parentType, parent, owner⟩

@[simp] theorem left_awaiting (parentType : Option String) (parent : Kind) (owner : Option String) (cs : List Tree) :
    left (awaiting parentType parent owner cs) = Tree.sizeAmong cs := by
  simp [left, awaiting, Function.comp_def]

/-- The nodes that come from a stack: the one on top, then its children, which are put on the stack in its place. -/
def walk (source : List UInt8) : List Awaited → Except Text.Utf8Error (List Node)
  | [] => .ok []
  | ⟨.node l cs, parentType, parent, owner⟩ :: stack => do
    let kind := Kind.of l.type l.named cs.isEmpty l.field parentType
    if cs.isEmpty || kind == .stringLiteral then
      let text ← textBetween source l.start l.stop
      let later ← walk source stack
      return ofLabel source kind parent owner l true text :: later
    else
      let inner ← ownerBelow source kind cs
      let later ← walk source (Tree.pushAll stack (awaiting (some l.type) kind inner cs))
      return ofLabel source kind parent owner l false "" :: later
termination_by stack => left stack
decreasing_by all_goals simp [Tree.size]

def ofTree (source : List UInt8) (t : Tree) : Except Text.Utf8Error (List Node) :=
  walk source [⟨t, none, .other, none⟩]

end Node
end Argot
