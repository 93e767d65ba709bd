import Mathlib
import Argot.Proofs.Source.OneLine
import Argot.Proofs.Source.Places
/-!
# Preorder — both walks over a tree come to the same tokens

A way counts children from the root down, so ways in the order of lists are nodes in the order of the source, each before
what is below it.  The walk comes to every node that is not inside of a string literal, each once and in that order, and
tags it by what is above it (`preorder_eq_mapM`, `forall₂_tags`).  The tokens for comparison are those that the walk gives,
comments aside (`walks_agree`).
-/
namespace Argot

open Text

/-- A place in a tree: the way to it from the root, the nodes above it, the nearest first, and the node that is there. -/
structure Tree.Place where
  way : List Nat
  above : List Tree
  tree : Tree

namespace Tree.Place

def under (i : Nat) (p : Place) : Place :=
  { p with way := i :: p.way }

/-- The place is not inside of a string literal. -/
def Outside (p : Place) : Prop :=
  ∀ v ∈ p.above, ¬v.Is Kind.stringLiteral.types

instance (p : Place) : Decidable p.Outside :=
  inferInstanceAs (Decidable (∀ v ∈ p.above, _))

def kind (p : Place) : Kind :=
  Tree.kindAt p.above p.tree

def isToken (p : Place) : Bool :=
  p.tree.children.isEmpty || p.kind == .stringLiteral

def text (source : List UInt8) (p : Place) : Except Utf8Error String :=
  Node.textBetween source p.tree.label.start p.tree.label.stop

def nodeText (source : List UInt8) (p : Place) : Except Utf8Error String :=
  if p.isToken then p.text source else .ok ""

/-- **What the walk makes of a place**: its kind, the kind of its parent and the key of its owner are those of the nodes
above it; a token has its text. -/
def node (source : List UInt8) (p : Place) : Except Utf8Error Node := do
  let owner ← Tree.ownerAbove source p.above
  let text ← p.nodeText source
  return Node.ofLabel source p.kind (Tree.kindAbove p.above) owner p.tree.label p.isToken text

/-- **A node that is tagged by its place**: its kind and that of its parent follow from the types and fields above it, its
slot is its own field, and its owner is the key of the object property right above it. -/
structure Tags (source : List UInt8) (p : Place) (n : Node) : Prop where
  kind : n.kind = p.kind
  type : n.type = p.tree.label.type
  parent : n.parent = Tree.kindAbove p.above
  slot : n.slot = p.tree.label.field
  owner : Tree.OwnedBy source p.above n.owner
  stands : n.At p.tree.label
  isLeaf : n.isLeaf = p.isToken
  text : p.nodeText source = .ok n.text

/-- A token that counts in a comparison. -/
def isWord (p : Place) : Bool :=
  p.isToken && !Token.commentTypes.contains p.tree.label.type

def token (source : List UInt8) (p : Place) : Except Utf8Error Token := do
  let text ← p.text source
  return ⟨p.tree.label.type, text⟩

end Tree.Place

/-- The tokens for comparison among nodes: those that were not entered, comments aside. -/
def Token.ofNodes (nodes : List Node) : List Token :=
  (nodes.filter fun n => n.isLeaf && !commentTypes.contains n.type).map fun n => ⟨n.type, n.text⟩

namespace Tree

/-- The place that a way leads to, below the given nodes. -/
def placeAt? (above : List Tree) (u : Tree) : List Nat → Option Place
  | [] => some ⟨[], above, u⟩
  | i :: way => u.children[i]?.bind fun v => (placeAt? (u :: above) v way).map (.under i)

mutual

/-- The places of a tree that the walk comes to, in order, below the given nodes. -/
def places (above : List Tree) : Tree → List Place
  | .node l ts =>
    ⟨[], above, .node l ts⟩ :: if (node l ts).Is Kind.stringLiteral.types then [] else placesAmong (.node l ts :: above) 0 ts

def placesAmong (above : List Tree) (i : Nat) : List Tree → List Place
  | [] => []
  | t :: ts => (places above t).map (.under i) ++ placesAmong above (i + 1) ts

end

mutual

def subtrees : Tree → List Tree
  | .node l ts => .node l ts :: subtreesAmong ts

def subtreesAmong : List Tree → List Tree
  | [] => []
  | t :: ts => subtrees t ++ subtreesAmong ts

end

variable {above : List Tree} {source : List UInt8} {p : Place}

/-! ## Every place once, in order -/

theorem exists_index_of_mem_placesAmong : ∀ {ts : List Tree} {i : Nat}, p ∈ placesAmong above i ts →
    ∃ j way, i ≤ j ∧ p.way = j :: way
  | [], _, h => by simp [placesAmong] at h
  | t :: ts, i, h => by
    rw [placesAmong] at h
    rcases List.mem_append.1 h with h | h
    · obtain ⟨q, -, rfl⟩ := List.mem_map.1 h
      exact ⟨i, q.way, Nat.le_refl i, rfl⟩
    · obtain ⟨j, way, hj, hway⟩ := exists_index_of_mem_placesAmong h
      exact ⟨j, way, by omega, hway⟩

mutual

theorem pairwise_places (above : List Tree) : ∀ (t : Tree), (places above t).Pairwise fun p q => p.way < q.way
  | .node l ts => by
    rw [places]
    split
    · exact List.pairwise_singleton _ _
    · refine List.pairwise_cons.2 ⟨fun q hq => ?_, pairwise_placesAmong (.node l ts :: above) 0 ts⟩
      obtain ⟨j, way, -, hway⟩ := exists_index_of_mem_placesAmong hq
      rw [hway]
      exact List.nil_lt_cons j way

theorem pairwise_placesAmong (above : List Tree) : ∀ (i : Nat) (ts : List Tree),
    (placesAmong above i ts).Pairwise fun p q => p.way < q.way
  | _, [] => .nil
  | i, t :: ts => by
    rw [placesAmong]
    refine List.pairwise_append.2 ⟨?_, pairwise_placesAmong above (i + 1) ts, fun p hp q hq => ?_⟩
    · refine List.pairwise_map.2 ((pairwise_places above t).imp fun h => ?_)
      exact List.cons_lt_cons_iff.2 (.inr ⟨rfl, h⟩)
    · obtain ⟨p, -, rfl⟩ := List.mem_map.1 hp
      obtain ⟨j, way, hj, hway⟩ := exists_index_of_mem_placesAmong hq
      rw [hway]
      exact List.cons_lt_cons_iff.2 (.inl (by omega))

end

theorem mem_placesAmong_iff : ∀ {ts : List Tree} {i : Nat}, p ∈ placesAmong above i ts ↔
    ∃ j v q, ts[j]? = some v ∧ q ∈ places above v ∧ p = q.under (i + j)
  | [], i => by simp [placesAmong]
  | t :: ts, i => by
    rw [placesAmong, List.mem_append, List.mem_map, mem_placesAmong_iff]
    constructor
    · rintro (⟨q, hq, rfl⟩ | ⟨j, v, q, hv, hq, rfl⟩)
      · exact ⟨0, t, q, rfl, hq, rfl⟩
      · exact ⟨j + 1, v, q, hv, hq, by rw [Nat.add_right_comm, Nat.add_assoc]⟩
    · rintro ⟨j, v, q, hv, hq, rfl⟩
      cases j with
      | zero =>
        obtain rfl : t = v := by simpa using hv
        exact .inl ⟨q, hq, rfl⟩
      | succ j => exact .inr ⟨j, v, q, hv, hq, by rw [Nat.add_right_comm, Nat.add_assoc]⟩

theorem suffix_of_placeAt? (way : List Nat) : ∀ {p : Place} {above : List Tree} {t : Tree},
    placeAt? above t way = some p → above <:+ p.above := by
  induction way with
  | nil =>
    rintro p above t h
    obtain rfl := Option.some.inj h
    exact List.suffix_rfl
  | cons i way ih =>
    rintro p above t h
    obtain ⟨v, -, h⟩ := Option.bind_eq_some_iff.1 h
    obtain ⟨q, hq, rfl⟩ := Option.map_eq_some_iff.1 h
    exact (List.suffix_cons t above).trans (ih (p := q) hq)

/-- A place below a tree is one below the subtree that its way goes to first, and there is none in a string literal. -/
theorem mem_places_cons_iff {l : Label} {ts : List Tree} {i : Nat} {way : List Nat} {above above' : List Tree} {u : Tree} :
    (⟨i :: way, above', u⟩ : Place) ∈ places above (.node l ts) ↔ ¬(node l ts).Is Kind.stringLiteral.types ∧
      ∃ v, ts[i]? = some v ∧ (⟨way, above', u⟩ : Place) ∈ places (.node l ts :: above) v := by
  rw [places, List.mem_cons, or_iff_right (by simp)]
  split
  · rename_i hstring
    simp [hstring]
  · rename_i hstring
    rw [mem_placesAmong_iff, and_iff_right hstring]
    constructor
    · rintro ⟨j, v, ⟨way', above', u'⟩, hv, hq, hp⟩
      obtain ⟨hway, rfl, rfl⟩ := Place.mk.inj hp
      obtain ⟨rfl, rfl⟩ := List.cons.inj hway
      rw [Nat.zero_add]
      exact ⟨v, hv, hq⟩
    · rintro ⟨v, hv, hq⟩
      exact ⟨i, v, _, hv, hq, by rw [Nat.zero_add]; rfl⟩

/-- **The places are those that ways lead to**, without those inside of a string literal. -/
theorem mem_places_iff (way : List Nat) : ∀ {p : Place} {above : List Tree} {t : Tree}, p.way = way →
    (p ∈ places above t ↔ placeAt? above t way = some p ∧
      ∃ inner, p.above = inner ++ above ∧ ∀ v ∈ inner, ¬v.Is Kind.stringLiteral.types) := by
  induction way with
  | nil =>
    rintro ⟨_, above', u⟩ above ⟨l, ts⟩ rfl
    have hroot : placeAt? above (.node l ts) [] = some ⟨[], above, .node l ts⟩ := rfl
    rw [hroot, places, List.mem_cons, Option.some.injEq]
    constructor
    · rintro (hp | hp)
      · obtain ⟨-, rfl, rfl⟩ := Place.mk.inj hp
        exact ⟨rfl, [], rfl, by simp⟩
      · -- every other place has a way of at least one step
        split at hp
        · cases hp
        · obtain ⟨j, way, -, hway⟩ := exists_index_of_mem_placesAmong hp
          cases hway
    · exact fun h => .inl h.1.symm
  | cons i way ih =>
    rintro ⟨_, above', u⟩ above ⟨l, ts⟩ rfl
    have hstep : placeAt? above (.node l ts) (i :: way) =
        ts[i]?.bind fun v => (placeAt? (.node l ts :: above) v way).map (.under i) := rfl
    have hunder : ∀ q : Place, q.under i = ⟨i :: way, above', u⟩ ↔ q = ⟨way, above', u⟩ := by
      rintro ⟨way', above', u'⟩
      simp [Place.under]
    rw [mem_places_cons_iff, hstep]
    simp only [Option.bind_eq_some_iff, Option.map_eq_some_iff, hunder, exists_eq_right]
    constructor
    · rintro ⟨hstring, v, hv, hq⟩
      obtain ⟨hway, inner, habove, hinner⟩ := (ih rfl).1 hq
      refine ⟨⟨v, hv, hway⟩, inner ++ [.node l ts], by simpa using habove, fun x hx => ?_⟩
      rcases List.mem_append.1 hx with hx | hx
      · exact hinner x hx
      · exact List.mem_singleton.1 hx ▸ hstring
    · rintro ⟨⟨v, hv, hway⟩, inner, habove, hinner⟩
      -- the tree itself is the outermost of those that the way goes through
      obtain ⟨inner', habove'⟩ := suffix_of_placeAt? way hway
      have hinner' : inner = inner' ++ [.node l ts] := by
        refine List.append_cancel_right (habove.symm.trans (habove'.symm.trans ?_))
        rw [List.append_assoc, List.singleton_append]
      rw [hinner', List.forall_mem_append, List.forall_mem_singleton] at hinner
      exact ⟨hinner.2, v, hv, (ih rfl).2 ⟨hway, inner', habove'.symm, hinner.1⟩⟩

/-! ## The walk goes from place to place -/

theorem node_under (i : Nat) (p : Place) : (p.under i).node source = p.node source := rfl

theorem mapM_places_under (i : Nat) {α : Type} {f : Place → Except Utf8Error α} (hf : ∀ p, f (p.under i) = f p) :
    ∀ (l : List Place), (l.map (.under i)).mapM f = l.mapM f
  | [] => rfl
  | p :: l => by
    rw [List.map_cons, List.mapM_cons, List.mapM_cons, hf, mapM_places_under i hf l]

/-- Where the owner of a node's children cannot be read, the first of them cannot be tagged. -/
theorem mapM_placesAmong_of_error {e : Utf8Error} (howner : ownerAbove source above = .error e) {t : Tree} (i : Nat)
    (ts : List Tree) : (placesAmong above i (t :: ts)).mapM (Place.node source) = .error e := by
  obtain ⟨l, us⟩ := t
  have hfirst : (⟨[i], above, .node l us⟩ : Place).node source = .error e := by
    unfold Place.node
    dsimp only
    rw [howner]
    rfl
  rw [placesAmong, places, List.map_cons, List.cons_append, List.mapM_cons]
  change (do let y ← (⟨[i], above, .node l us⟩ : Place).node source; _) = _
  rw [hfirst]
  rfl

/-- Whether the walk stops at a node. -/
theorem isToken_mk {way : List Nat} {l : Label} {ts : List Tree} : (⟨way, above, .node l ts⟩ : Place).isToken =
    (ts.isEmpty || kindAt above (.node l ts) == .stringLiteral) := rfl

section
variable {l : Label} {ts : List Tree} {owner : Option String}

theorem places_of_token (h : (⟨[], above, .node l ts⟩ : Place).isToken = true) :
    places above (.node l ts) = [⟨[], above, .node l ts⟩] := by
  rw [isToken_mk, Bool.or_eq_true, beq_iff_eq, kindAt_eq_iff rfl, List.isEmpty_iff] at h
  rw [places]
  split
  · rfl
  · rename_i hstring
    obtain rfl := h.resolve_right hstring
    rfl

theorem places_of_entered (h : (⟨[], above, .node l ts⟩ : Place).isToken = false) :
    places above (.node l ts) = ⟨[], above, .node l ts⟩ :: placesAmong (.node l ts :: above) 0 ts := by
  rw [isToken_mk, Bool.or_eq_false_iff, beq_eq_false_iff_ne, Ne, kindAt_eq_iff rfl] at h
  rw [places, if_neg h.2]

theorem preorder_of_token (h : (⟨[], above, .node l ts⟩ : Place).isToken = true) :
    Node.preorder source (typeAbove above) (kindAbove above) owner (.node l ts) = do
      let text ← Node.textBetween source l.start l.stop
      return [Node.ofLabel source (kindAt above (.node l ts)) (kindAbove above) owner l true text] := by
  rw [isToken_mk] at h
  change (if (ts.isEmpty || kindAt above (.node l ts) == .stringLiteral) = true then _ else _) = _
  rw [if_pos h]
  rfl

theorem preorder_of_entered (h : (⟨[], above, .node l ts⟩ : Place).isToken = false) :
    Node.preorder source (typeAbove above) (kindAbove above) owner (.node l ts) = do
      let inner ← ownerAbove source (.node l ts :: above)
      let below ← Node.preorderAmong source (some l.type) (kindAt above (.node l ts)) inner ts
      return Node.ofLabel source (kindAt above (.node l ts)) (kindAbove above) owner l false "" :: below := by
  rw [isToken_mk] at h
  change (if (ts.isEmpty || kindAt above (.node l ts) == .stringLiteral) = true then _ else _) = _
  rw [if_neg (by rw [h]; exact Bool.false_ne_true)]
  rfl

end

mutual

/-- **The walk tags the places of a tree in order.** -/
theorem preorder_eq_mapM : ∀ (t : Tree) {above : List Tree} {owner : Option String}, ownerAbove source above = .ok owner →
    Node.preorder source (typeAbove above) (kindAbove above) owner t = (places above t).mapM (Place.node source)
  | .node l ts, above, owner, howner => by
    cases htoken : (⟨[], above, .node l ts⟩ : Place).isToken with
    | true =>
      rw [preorder_of_token htoken, places_of_token htoken, List.mapM_cons, List.mapM_nil, Place.node, Place.nodeText, htoken,
        howner]
      change _ = (Node.textBetween source l.start l.stop >>= _) >>= _
      cases Node.textBetween source l.start l.stop <;> rfl
    | false =>
      rw [preorder_of_entered htoken, places_of_entered htoken, List.mapM_cons, Place.node, Place.nodeText, htoken, howner]
      cases hinner : ownerAbove source (.node l ts :: above) with
      | error e =>
        -- a node that is entered has a child
        cases ts with
        | nil => cases htoken
        | cons t ts =>
          rw [mapM_placesAmong_of_error hinner]
          rfl
      | ok inner =>
        have hbelow := preorderAmong_eq_mapM ts hinner 0
        change Node.preorderAmong source (some l.type) (kindAt above (.node l ts)) inner ts = _ at hbelow
        rw [← hbelow]
        rfl

theorem preorderAmong_eq_mapM : ∀ (ts : List Tree) {above : List Tree} {owner : Option String},
    ownerAbove source above = .ok owner → ∀ i, Node.preorderAmong source (typeAbove above) (kindAbove above) owner ts =
      (placesAmong above i ts).mapM (Place.node source)
  | [], _, _, _, _ => rfl
  | t :: ts, _, _, howner, i => by
    rw [Node.preorderAmong, placesAmong, List.mapM_append, mapM_places_under i (node_under i), preorder_eq_mapM t howner,
      preorderAmong_eq_mapM ts howner (i + 1)]

end

theorem tags_of_node {n : Node} (h : p.node source = .ok n) : p.Tags source n := by
  obtain ⟨owner, howner, h⟩ := Node.bind_eq_ok_iff.1 h
  obtain ⟨text, htext, h⟩ := Node.bind_eq_ok_iff.1 h
  obtain rfl := Except.ok.inj h
  exact ⟨rfl, rfl, rfl, rfl, ownerAbove_eq_ok_iff.1 howner, Node.at_ofLabel _ _ _ _ _ _ _, rfl, htext⟩

/-- **Every node is tagged by its place.** -/
theorem forall₂_tags : ∀ {l : List Place} {nodes : List Node}, l.mapM (Place.node source) = .ok nodes →
    List.Forall₂ (Place.Tags source) l nodes
  | [], nodes, h => by
    obtain rfl := Except.ok.inj h
    exact .nil
  | p :: l, nodes, h => by
    rw [List.mapM_cons] at h
    obtain ⟨n, hn, h⟩ := Node.bind_eq_ok_iff.1 h
    obtain ⟨later, hlater, h⟩ := Node.bind_eq_ok_iff.1 h
    obtain rfl := Except.ok.inj h
    exact .cons (tags_of_node hn) (forall₂_tags hlater)

theorem exists_tagged {l : List Place} {nodes : List Node} (h : List.Forall₂ (Place.Tags source) l nodes) (hp : p ∈ l) :
    ∃ n ∈ nodes, p.Tags source n := by
  obtain ⟨i, hi, rfl⟩ := List.mem_iff_getElem.1 hp
  have hi' := h.length_eq ▸ hi
  exact ⟨nodes[i], List.getElem_mem hi', h.get hi hi'⟩

/-! ## The tokens for comparison -/

theorem filter_isWord_under (i : Nat) (l : List Place) :
    (l.map (.under i)).filter Place.isWord = (l.filter Place.isWord).map (.under i) :=
  List.filter_map

mutual

/-- **The tokens for comparison are those of the places that the walk stops at**, comments aside. -/
theorem tokens_eq_mapM : ∀ (t : Tree) {above : List Tree},
    (∀ u ∈ t.subtrees, u.label.type ∈ Token.commentTypes → u.children = []) →
    (∀ u ∈ t.subtrees, u.label.type = "string" → u.children ≠ [] → u.label.named = true) →
    Token.preorder source t = ((places above t).filter Place.isWord).mapM (Place.token source)
  | .node l ts, above, hcomments, hstrings => by
    have hcomment : l.type ∈ Token.commentTypes → ts = [] := hcomments (.node l ts) List.mem_cons_self
    have hstring : l.type = "string" → ts ≠ [] → l.named = true := hstrings (.node l ts) List.mem_cons_self
    have hlater : Token.preorderAmong source ts =
        ((placesAmong (.node l ts :: above) 0 ts).filter Place.isWord).mapM (Place.token source) :=
      tokensAmong_eq_mapM ts 0 (fun u hu => hcomments u (List.mem_cons_of_mem _ hu)) fun u hu =>
        hstrings u (List.mem_cons_of_mem _ hu)
    have hword : (⟨[], above, .node l ts⟩ : Place).isWord =
        ((⟨[], above, .node l ts⟩ : Place).isToken && !Token.commentTypes.contains l.type) := rfl
    rw [Token.preorder]
    cases hskip : Token.commentTypes.contains l.type with
    | true =>
      obtain rfl := hcomment (List.contains_iff_mem.1 hskip)
      rw [hskip, Bool.not_true, Bool.and_false] at hword
      rw [if_pos rfl, places_of_token rfl, List.filter_cons_of_neg (by rw [hword]; exact Bool.false_ne_true)]
      rfl
    | false =>
      rw [hskip, Bool.not_false, Bool.and_true] at hword
      rw [if_neg Bool.false_ne_true]
      cases htoken : (⟨[], above, .node l ts⟩ : Place).isToken with
      | true =>
        -- a string literal has the type by which the other walk stops
        have hstop : (ts.isEmpty || l.type == "string") = true := by
          rw [isToken_mk, Bool.or_eq_true, beq_iff_eq, kindAt_eq_iff rfl] at htoken
          rw [Bool.or_eq_true, beq_iff_eq]
          exact htoken.imp_right fun h => List.mem_singleton.1 h.2
        rw [if_pos hstop, places_of_token htoken, List.filter_cons_of_pos (hword.trans htoken),
          List.filter_nil, List.mapM_cons, List.mapM_nil, Place.token]
        change _ = (Node.textBetween source l.start l.stop >>= _) >>= _
        cases Node.textBetween source l.start l.stop <;> rfl
      | false =>
        have hstop : (ts.isEmpty || l.type == "string") = false := by
          rw [isToken_mk, Bool.or_eq_false_iff, beq_eq_false_iff_ne, Ne, kindAt_eq_iff rfl] at htoken
          rw [Bool.or_eq_false_iff, beq_eq_false_iff_ne]
          refine ⟨htoken.1, fun htype => htoken.2 ⟨hstring htype ?_, List.mem_singleton.2 htype⟩⟩
          rintro rfl
          cases htoken.1
        rw [hstop, if_neg Bool.false_ne_true, hlater, places_of_entered htoken,
          List.filter_cons_of_neg (by rw [hword, htoken]; exact Bool.false_ne_true)]

theorem tokensAmong_eq_mapM : ∀ (ts : List Tree) {above : List Tree} (i : Nat),
    (∀ u ∈ subtreesAmong ts, u.label.type ∈ Token.commentTypes → u.children = []) →
    (∀ u ∈ subtreesAmong ts, u.label.type = "string" → u.children ≠ [] → u.label.named = true) →
    Token.preorderAmong source ts = ((placesAmong above i ts).filter Place.isWord).mapM (Place.token source)
  | [], _, _, _, _ => rfl
  | t :: ts, _, i, hcomments, hstrings => by
    rw [Token.preorderAmong, placesAmong, List.filter_append, List.mapM_append, filter_isWord_under,
      mapM_places_under i (fun _ => rfl),
      tokens_eq_mapM t (fun u hu => hcomments u (List.mem_append_left _ hu)) fun u hu =>
        hstrings u (List.mem_append_left _ hu),
      tokensAmong_eq_mapM ts (i + 1) (fun u hu => hcomments u (List.mem_append_right _ hu)) fun u hu =>
        hstrings u (List.mem_append_right _ hu)]

end

/-- The words among tagged places are the words among their nodes. -/
theorem mapM_token_of_mapM_node : ∀ {l : List Place} {nodes : List Node}, l.mapM (Place.node source) = .ok nodes →
    (l.filter Place.isWord).mapM (Place.token source) = .ok (Token.ofNodes nodes)
  | [], nodes, h => by
    cases h
    rfl
  | p :: l, nodes, h => by
    rw [List.mapM_cons] at h
    obtain ⟨n, hn, h⟩ := Node.bind_eq_ok_iff.1 h
    obtain ⟨later, hlater, h⟩ := Node.bind_eq_ok_iff.1 h
    obtain rfl := Except.ok.inj h
    obtain ⟨owner, -, hn⟩ := Node.bind_eq_ok_iff.1 hn
    obtain ⟨text, htext, hn⟩ := Node.bind_eq_ok_iff.1 hn
    obtain rfl := Except.ok.inj hn
    have hlater' := mapM_token_of_mapM_node hlater
    cases hword : p.isWord with
    | false =>
      have hnodes : Token.ofNodes (Node.ofLabel source p.kind (kindAbove p.above) owner p.tree.label p.isToken text ::
          later) = Token.ofNodes later := by
        unfold Token.ofNodes
        rw [List.filter_cons_of_neg (by rw [Bool.not_eq_true]; exact hword)]
      rw [List.filter_cons_of_neg (by rw [hword]; exact Bool.false_ne_true), hlater', hnodes]
    | true =>
      have hnodes : Token.ofNodes (Node.ofLabel source p.kind (kindAbove p.above) owner p.tree.label p.isToken text ::
          later) = ⟨p.tree.label.type, text⟩ :: Token.ofNodes later := by
        unfold Token.ofNodes
        rw [List.filter_cons_of_pos (by exact hword)]
        rfl
      have htoken : p.token source = .ok ⟨p.tree.label.type, text⟩ := by
        rw [Place.nodeText, if_pos (Bool.and_eq_true_iff.1 hword).1] at htext
        rw [Place.token, htext]
        rfl
      rw [List.filter_cons_of_pos hword, List.mapM_cons, htoken, hlater', hnodes]
      rfl

end Tree

namespace Node

/-- **Both walks see the same tokens.**  The walk tags the places that ways lead to without entering a string literal,
each once and a node before what is below it; the tags of a node are what its place says, and over a tree that fits its
source the walk gets to the end.  Where comments have no children and strings with children are named, the tokens for comparison are those of its
nodes, comments aside, and it is only texts of tokens that are read for them. -/
theorem walks_agree (source : List UInt8) (root : Tree) :
    (∃ places : List Tree.Place, (places.map Tree.Place.way).Pairwise (· < ·) ∧
      (∀ p, p ∈ places ↔ root.placeAt? [] p.way = some p ∧ p.Outside) ∧
      ofTree source root = places.mapM (Tree.Place.node source) ∧
      (∀ nodes, ofTree source root = .ok nodes → List.Forall₂ (Tree.Place.Tags source) places nodes) ∧
      ((∀ u ∈ root.subtrees, u.label.type ∈ Token.commentTypes → u.children = []) →
        (∀ u ∈ root.subtrees, u.label.type = "string" → u.children ≠ [] → u.label.named = true) →
        Token.ofTree source root = (places.filter Tree.Place.isWord).mapM (Tree.Place.token source) ∧
        ∀ nodes, ofTree source root = .ok nodes → Token.ofTree source root = .ok (Token.ofNodes nodes))) ∧
    ∀ cs, source = encode cs → root.WellFormed cs → ∃ nodes, ofTree source root = .ok nodes := by
  have hwalk : ofTree source root = (root.places []).mapM (Tree.Place.node source) :=
    (ofTree_eq_preorder source root).trans
      (Tree.preorder_eq_mapM root (show Tree.ownerAbove source [] = .ok none from rfl))
  refine ⟨⟨root.places [], List.pairwise_map.2 (Tree.pairwise_places [] root), fun p => ?_, hwalk,
    fun nodes hnodes => Tree.forall₂_tags (hwalk ▸ hnodes), fun hcomments hstrings => ?_⟩, ?_⟩
  · rw [Tree.mem_places_iff p.way rfl]
    refine and_congr_right fun _ => ⟨?_, fun h => ⟨p.above, (List.append_nil _).symm, h⟩⟩
    rintro ⟨inner, habove, hinner⟩
    rw [List.append_nil] at habove
    exact fun v hv => hinner v (habove ▸ hv)
  · have htokens : Token.ofTree source root = ((root.places []).filter Tree.Place.isWord).mapM
        (Tree.Place.token source) :=
      (Token.ofTree_eq_preorder source root).trans (Tree.tokens_eq_mapM root hcomments hstrings)
    refine ⟨htokens, fun nodes hnodes => ?_⟩
    rw [htokens]
    exact Tree.mapM_token_of_mapM_node (hwalk ▸ hnodes)
  · rintro cs rfl hwf
    obtain ⟨nodes, hnodes, -⟩ := exists_spots hwf
    exact ⟨nodes, hnodes⟩

/-- A quoted value before a comment: the walk does not enter the value, which the key of its pair owns, and the comment is
no token. -/
theorem walks_agree_quoted_value :
    let value : Tree := .inner "string" 2 5 "value"
      [.token "'" false 2 3, .token "string_fragment" true 3 4, .token "'" false 4 5]
    let pair : Tree := .inner "pair" 0 5 none [.token "property_identifier" true 0 1 "key", .token ":" false 1 2, value]
    let tree : Tree := .inner "object" 0 8 none [pair, .token "comment" true 5 8]
    let source := bytesOf "a:'b'//c"
    (∀ u ∈ tree.subtrees, u.label.type ∈ Token.commentTypes → u.children = []) ∧
      (∀ u ∈ tree.subtrees, u.label.type = "string" → u.children ≠ [] → u.label.named = true) ∧
      tree.WellFormed "a:'b'//c".toList ∧ ∃ nodes, ofTree source tree = .ok nodes ∧
        Token.ofNodes nodes = [⟨"property_identifier", "a"⟩, ⟨":", ":"⟩, ⟨"string", "'b'"⟩] ∧
        ∃ n ∈ nodes, n.text = "'b'" ∧ n.owner = some "a" := by
  intro value pair tree source
  have hcomments : ∀ u ∈ tree.subtrees, u.label.type ∈ Token.commentTypes → u.children = [] := by decide
  have hstrings : ∀ u ∈ tree.subtrees, u.label.type = "string" → u.children ≠ [] → u.label.named = true := by decide
  have hwf : tree.WellFormed "a:'b'//c".toList := by decide
  obtain ⟨⟨places, -, hplaces, -, htags, htokens⟩, hgets⟩ := walks_agree source tree
  obtain ⟨nodes, hnodes⟩ := hgets _ rfl hwf
  have hkey : textBetween (bytesOf "a:'b'//c") 0 1 = .ok "a" := by cbv
  have hvalue : textBetween (bytesOf "a:'b'//c") 2 5 = .ok "'b'" := by cbv
  have hwords : Token.ofTree source tree = .ok [⟨"property_identifier", "a"⟩, ⟨":", ":"⟩, ⟨"string", "'b'"⟩] := by
    decide +kernel
  have hsame := (htokens hcomments hstrings).2 nodes hnodes
  refine ⟨hcomments, hstrings, hwf, nodes, hnodes, Except.ok.inj (hsame.symm.trans hwords), ?_⟩
  have hplace : (⟨[0, 2], [pair, tree], value⟩ : Tree.Place) ∈ places := (hplaces _).2 ⟨rfl, by decide⟩
  obtain ⟨n, hn, htag⟩ := Tree.exists_tagged (htags nodes hnodes) hplace
  have hpair : pair.Is Kind.propertyAssignment.types := by decide
  have howner : Tree.OwnedBy source [pair, tree] (some "a") := by
    rw [Tree.OwnedBy, if_pos hpair]
    exact .plain ⟨[], _, rfl, rfl, by simp⟩ hkey (by decide)
  exact ⟨n, hn, Except.ok.inj (htag.text.symm.trans hvalue), htag.owner.unique howner⟩

end Node
end Argot
