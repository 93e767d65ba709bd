import Argot.Source.Node
/-!
# Token — the tokens of a source

Two sources say the same to a compiler if they have the same tokens.  A token is a node without children or a whole
string; comments are no tokens.
-/
namespace Argot

/-- A token: its type in the grammar and its text. -/
structure Token where
  type : String
  text : String
  deriving DecidableEq, Repr

namespace Token

def commentTypes : List String := ["comment", "html_comment"]

/-- The tokens that come from a stack of trees: a tree that is no token is replaced by its children. -/
def walk (source : List UInt8) : List Tree → Except Text.Utf8Error (List Token)
  | [] => .ok []
  | .node l cs :: stack =>
    if commentTypes.contains l.type then walk source stack
    else if cs.isEmpty || l.type == "string" then do
      let text ← Node.textBetween source l.start l.stop
      let later ← walk source stack
      return ⟨l.type, text⟩ :: later
    else walk source (Tree.pushAll stack cs)
termination_by stack => Tree.sizeAmong stack
decreasing_by all_goals simp [Tree.sizeAmong, Tree.size]

def ofTree (source : List UInt8) (t : Tree) : Except Text.Utf8Error (List Token) :=
  walk source [t]

end Token
end Argot
