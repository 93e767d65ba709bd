/-!
# Tree — what a parser makes of a source

Parsing is done elsewhere; here is the tree it yields.  Each node has the type its grammar gives it, flags, the range of
bytes it covers, the place where it begins, and the field it fills in its parent.  A parser reports syntax errors as
nodes of the tree, too.
-/
namespace Argot

/-- What is known about a node apart from its children. -/
structure Label where
  /-- The type in the grammar; the type of an anonymous token is its text. -/
  type : String
  named : Bool
  isError : Bool
  isMissing : Bool
  hasError : Bool
  start : Nat
  stop : Nat
  row : Nat
  column : Nat
  field : Option String
  deriving DecidableEq, Repr

/-- A parse tree. -/
inductive Tree where
  | node (label : Label) (children : List Tree)

namespace Tree

def label : Tree → Label
  | .node l _ => l

def children : Tree → List Tree
  | .node _ cs => cs

mutual

/-- How many nodes a tree has. -/
def size : Tree → Nat
  | .node _ cs => sizeAmong cs + 1

def sizeAmong : List Tree → Nat
  | [] => 0
  | t :: rest => size t + sizeAmong rest

end

@[simp] theorem sizeAmong_append (ts' : List Tree) : ∀ ts : List Tree,
    sizeAmong (ts ++ ts') = sizeAmong ts + sizeAmong ts'
  | [] => (Nat.zero_add _).symm
  | t :: ts => by rw [List.cons_append, sizeAmong, sizeAmong, sizeAmong_append ts' ts, Nat.add_assoc]

/-- Puts entries on a stack, the last of them first, so that the first of them is taken next. -/
def pushAll {α : Type} (stack entries : List α) : List α :=
  entries.reverse.foldl (fun stack e => e :: stack) stack

@[simp] theorem pushAll_eq {α : Type} (stack entries : List α) : pushAll stack entries = entries ++ stack := by
  simp [pushAll]

/-- The trees of nodes that are listed from the root down, each with its number of children. -/
def forestOfPreorder (nodes : List (Label × Nat)) : List Tree :=
  nodes.foldr (fun n later => .node n.1 (later.take n.2) :: later.drop n.2) []

/-- The tree of nodes that are listed from the root down. -/
def ofPreorder? (nodes : List (Label × Nat)) : Option Tree :=
  match forestOfPreorder nodes with
  | [t] => some t
  | _ => none

mutual

/-- The first node that is an error or missing, looked for where an error is reported; a node that reports an error and
has none below stands for it.  The search goes as deep as the tree does; how many calls may be open at once is left out. -/
def firstError? : Tree → Option Label
  | .node l cs =>
    if l.isError || l.isMissing then some l
    else if !l.hasError then none
    else (firstErrorAmong? cs).or (some l)

def firstErrorAmong? : List Tree → Option Label
  | [] => none
  | t :: rest => (firstError? t).or (firstErrorAmong? rest)

end

end Tree

/-- A source that does not parse: what is wrong at which place, counted from one. -/
structure SyntaxFault where
  missing : Bool
  line : Nat
  column : Nat
  deriving DecidableEq, Repr

def SyntaxFault.message (f : SyntaxFault) : String :=
  (if f.missing then "Missing token" else "Syntax error") ++ " at line " ++ toString f.line ++ ", column "
    ++ toString f.column

def Tree.fault? (t : Tree) : Option SyntaxFault :=
  if t.label.hasError then
    match t.firstError? with
    | some l => some ⟨l.isMissing, l.row + 1, l.column + 1⟩
    | none => some ⟨false, 1, 1⟩
  else none

end Argot
