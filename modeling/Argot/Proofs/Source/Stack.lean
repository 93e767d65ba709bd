import Argot.Source.Token
/-!
# Stack — a walk over a stack goes as the recursion over the tree does

Both walks keep a stack of what is still to come.  What they find is at every moment what the recursion finds in the
trees on the stack, one after the other (`Node.walk_eq_preorderOf`, `Token.walk_eq_preorderAmong`): a tree that is replaced
by its children on top of the stack leaves that as it is.
-/
namespace Argot
namespace Node

variable {source : List UInt8}

mutual

/-- The nodes of a tree whose parent has the given type and kind. -/
def preorder (source : List UInt8) (parentType : Option String) (parent : Kind) (owner : Option String) :
    Tree → Except Text.Utf8Error (List Node)
  | .node l cs => do
    let kind := Kind.of l.type l.named cs.isEmpty l.field parentType
    if cs.isEmpty || kind == .stringLiteral then
      let text ← textBetween source l.start l.stop
      return [ofLabel source kind parent owner l true text]
    else
      let inner ← ownerBelow source kind cs
      let below ← preorderAmong source (some l.type) kind inner cs
      return ofLabel source kind parent owner l false "" :: below

def preorderAmong (source : List UInt8) (parentType : Option String) (parent : Kind) (owner : Option String) :
    List Tree → Except Text.Utf8Error (List Node)
  | [] => .ok []
  | t :: rest => do
    let first ← preorder source parentType parent owner t
    let others ← preorderAmong source parentType parent owner rest
    return first ++ others

end

/-- The nodes of the trees on a stack, one tree after the other. -/
def preorderOf (source : List UInt8) : List Awaited → Except Text.Utf8Error (List Node)
  | [] => .ok []
  | e :: stack => do
    let first ← preorder source e.parentType e.parent e.owner e.tree
    let others ← preorderOf source stack
    return first ++ others

theorem preorderOf_awaiting (parentType : Option String) (parent : Kind) (owner : Option String) (stack : List Awaited) :
    ∀ (cs : List Tree), preorderOf source (awaiting parentType parent owner cs ++ stack) = do
      let below ← preorderAmong source parentType parent owner cs
      let later ← preorderOf source stack
      return below ++ later
  | [] => by
    rw [awaiting, List.map_nil, List.nil_append, preorderAmong]
    exact (bind_pure (preorderOf source stack)).symm
  | t :: cs => by
    have hcs := preorderOf_awaiting parentType parent owner stack cs
    rw [awaiting, List.map_cons, List.cons_append, preorderOf, ← awaiting, hcs, preorderAmong]
    simp only [bind_assoc, pure_bind, List.append_assoc]

/-- **What the walk finds is what the recursion finds in the trees on its stack**, one after the other. -/
theorem walk_eq_preorderOf (stack : List Awaited) : walk source stack = preorderOf source stack := by
  induction stack using walk.induct with
  | case1 => rw [walk, preorderOf]
  | case2 l cs parentType parent owner stack kind hleaf ih =>
    rw [walk, preorderOf, preorder, if_pos hleaf, if_pos hleaf, ih]
    simp only [bind_assoc, pure_bind, List.cons_append, List.nil_append]
  | case3 l cs parentType parent owner stack kind hinner ih =>
    -- the children on top of the stack stand for what is below the node
    simp only [kind, Tree.pushAll_eq, preorderOf_awaiting] at ih
    rw [walk, preorderOf, preorder, if_neg hinner, if_neg hinner]
    simp only [Tree.pushAll_eq, ih, bind_assoc, pure_bind, List.cons_append]

theorem ofTree_eq_preorder (source : List UInt8) (t : Tree) : ofTree source t = preorder source none .other none t := by
  rw [ofTree, walk_eq_preorderOf, preorderOf, preorderOf]
  cases preorder source none .other none t with
  | error e => rfl
  | ok nodes => exact congrArg Except.ok (List.append_nil nodes)

end Node

namespace Token

variable {source : List UInt8}

mutual

/-- The tokens of a tree. -/
def preorder (source : List UInt8) : Tree → Except Text.Utf8Error (List Token)
  | .node l cs =>
    if commentTypes.contains l.type then .ok []
    else if cs.isEmpty || l.type == "string" then do
      let text ← Node.textBetween source l.start l.stop
      return [⟨l.type, text⟩]
    else preorderAmong source cs

def preorderAmong (source : List UInt8) : List Tree → Except Text.Utf8Error (List Token)
  | [] => .ok []
  | t :: rest => do
    let first ← preorder source t
    let others ← preorderAmong source rest
    return first ++ others

end

theorem preorderAmong_append (stack : List Tree) : ∀ (cs : List Tree), preorderAmong source (cs ++ stack) = do
    let below ← preorderAmong source cs
    let later ← preorderAmong source stack
    return below ++ later
  | [] => by
    rw [List.nil_append, preorderAmong]
    exact (bind_pure (preorderAmong source stack)).symm
  | t :: cs => by
    rw [List.cons_append, preorderAmong, preorderAmong_append stack cs, preorderAmong]
    simp only [bind_assoc, pure_bind, List.append_assoc]

/-- **The tokens of the walk are those of the trees on its stack**, one tree after the other. -/
theorem walk_eq_preorderAmong (stack : List Tree) : walk source stack = preorderAmong source stack := by
  induction stack using walk.induct with
  | case1 => rw [walk, preorderAmong]
  | case2 l cs stack hcomment ih =>
    rw [walk, preorderAmong, preorder, if_pos hcomment, if_pos hcomment, ih]
    exact (bind_pure (preorderAmong source stack)).symm
  | case3 l cs stack hcomment htoken ih =>
    rw [walk, preorderAmong, preorder, if_neg hcomment, if_neg hcomment, if_pos htoken, if_pos htoken, ih]
    simp only [bind_assoc, pure_bind, List.cons_append, List.nil_append]
  | case4 l cs stack hcomment htoken ih =>
    rw [walk, preorderAmong, preorder, if_neg hcomment, if_neg hcomment, if_neg htoken, if_neg htoken, ih,
      Tree.pushAll_eq, preorderAmong_append]

theorem ofTree_eq_preorder (source : List UInt8) (t : Tree) : ofTree source t = preorder source t := by
  rw [ofTree, walk_eq_preorderAmong, preorderAmong, preorderAmong]
  cases preorder source t with
  | error e => rfl
  | ok tokens => exact congrArg Except.ok (List.append_nil tokens)

end Token
end Argot
