import Argot.Source.Node
/-!
# OneLine — trees and nodes of a source of one line

On the first line a node stands at the column of its first byte.  So a tree of a source of one line is given by types and
ranges, and so are the nodes that the walk makes of it.
-/
namespace Argot

namespace Tree

/-- A token of a source of one line. -/
def token (type : String) (named : Bool) (start stop : Nat) (field : Option String := none) : Tree :=
  .node ⟨type, named, false, false, false, start, stop, 0, start, field⟩ []

/-- A named node of a source of one line, with what it is made of. -/
def inner (type : String) (start stop : Nat) (field : Option String) (cs : List Tree) : Tree :=
  .node ⟨type, true, false, false, false, start, stop, 0, start, field⟩ cs

end Tree

namespace Node

/-- A token of a source of one line, which no key owns. -/
def token (kind parent : Kind) (type text : String) (start stop : Nat) (slot : Option String := none) : Node :=
  { kind, type, text, start, stop, line := 1, column := start + 1, parent, slot, owner := none, isLeaf := true }

/-- A node of a source of one line that the walk enters. -/
def inner (kind parent : Kind) (type : String) (start stop : Nat) (slot : Option String := none) : Node :=
  { kind, type, text := "", start, stop, line := 1, column := start + 1, parent, slot, owner := none, isLeaf := false }

end Node
end Argot
