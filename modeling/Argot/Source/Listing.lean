import Argot.Json.Reader
import Argot.Source.Tree
/-!
# Listing — parse trees as JSON

A parse tree is written as the list of its nodes from the root down.  A node is a list of eight values: its type, its
flags, the bytes where it begins and ends, its row and column, its field or nothing, and the number of its children.
The flags are one for a named node, two for an error, four for a missing token and eight for an error at the node or
below.
-/
namespace Argot
namespace Listing

def nat? : Json.Value → Option Nat
  | .number spelling => (Text.readInteger spelling).toOption.bind fun n => if n < 0 then none else some n.toNat
  | _ => none

def text? : Json.Value → Option String
  | .string s => s.text?
  | _ => none

def hasFlag (flags bit : Nat) : Bool :=
  flags / bit % 2 == 1

def node? : Json.Value → Option (Label × Nat)
  | .array [type, flags, start, stop, row, column, field, children] => do
    let flags ← nat? flags
    let label : Label :=
      { type := ← text? type, named := hasFlag flags 1, isError := hasFlag flags 2, isMissing := hasFlag flags 4,
        hasError := hasFlag flags 8, start := ← nat? start, stop := ← nat? stop, row := ← nat? row,
        column := ← nat? column, field := text? field }
    return (label, ← nat? children)
  | _ => none

def tree? : Json.Value → Option Tree
  | .array nodes => do Tree.ofPreorder? (← nodes.mapM node?)
  | _ => none

def read? (text : String) : Option Tree :=
  (Json.read text).toOption.bind tree?

end Listing
end Argot
