import Argot.Proofs.Source.Stack
import Argot.Proofs.Text.Utf8
/-!
# Layout — where the tokens of a source stand

In a well-formed tree the ranges of the children lie in order inside that of their parent, and every range ends between
characters.  The walk over such a tree succeeds, its nodes stand in order where the labels of the tree say (`exists_spots`,
`exists_label`), and the source is made of its tokens and the gaps between them (`exists_layout`).
-/
namespace Argot

open Text

/-- A byte position between two characters of a text. -/
def Text.IsBoundary (cs : List Char) (i : Nat) : Prop :=
  ∃ pre post, cs = pre ++ post ∧ i = (encode pre).length

theorem Text.isBoundary_iff {cs : List Char} {i : Nat} :
    IsBoundary cs i ↔ ∃ k ∈ List.range (cs.length + 1), i = (encode (cs.take k)).length := by
  constructor
  · rintro ⟨pre, post, rfl, rfl⟩
    refine ⟨pre.length, List.mem_range.2 (by rw [List.length_append]; omega), by rw [List.take_left]⟩
  · rintro ⟨k, -, rfl⟩
    exact ⟨cs.take k, cs.drop k, (List.take_append_drop k cs).symm, rfl⟩

instance (cs : List Char) (i : Nat) : Decidable (IsBoundary cs i) :=
  decidable_of_iff _ isBoundary_iff.symm

namespace Tree

mutual

/-- **A tree whose ranges fit its source**: they end between characters, and those of the children lie in order, disjoint,
inside that of the parent. -/
def WellFormed (cs : List Char) : Tree → Prop
  | .node l ts => IsBoundary cs l.start ∧ IsBoundary cs l.stop ∧ Within cs l.start l.stop ts

def Within (cs : List Char) (start stop : Nat) : List Tree → Prop
  | [] => start ≤ stop
  | t :: rest => start ≤ t.label.start ∧ WellFormed cs t ∧ Within cs t.label.stop stop rest

end

mutual

instance decidableWellFormed (cs : List Char) : (t : Tree) → Decidable (t.WellFormed cs)
  | .node l ts =>
    have := decidableWithin cs l.start l.stop ts
    inferInstanceAs (Decidable (IsBoundary cs l.start ∧ IsBoundary cs l.stop ∧ Within cs l.start l.stop ts))

instance decidableWithin (cs : List Char) (start stop : Nat) : (ts : List Tree) → Decidable (Within cs start stop ts)
  | [] => inferInstanceAs (Decidable (start ≤ stop))
  | t :: rest =>
    have := decidableWellFormed cs t
    have := decidableWithin cs t.label.stop stop rest
    inferInstanceAs (Decidable (start ≤ t.label.start ∧ t.WellFormed cs ∧ Within cs t.label.stop stop rest))

end

variable {cs : List Char}

mutual

theorem WellFormed.start_le_stop : ∀ {t : Tree}, t.WellFormed cs → t.label.start ≤ t.label.stop
  | .node _ _, h => Within.start_le_stop h.2.2

theorem Within.start_le_stop : ∀ {ts : List Tree} {start stop : Nat}, Within cs start stop ts → start ≤ stop
  | [], _, _, h => h
  | _ :: _, _, _, h => (h.1.trans h.2.1.start_le_stop).trans h.2.2.start_le_stop

end

mutual

/-- What is known about the nodes of a tree, from the root down. -/
def labels : Tree → List Label
  | .node l ts => l :: labelsAmong ts

def labelsAmong : List Tree → List Label
  | [] => []
  | t :: rest => labels t ++ labelsAmong rest

end

theorem WellFormed.start_boundary {t : Tree} (h : t.WellFormed cs) : IsBoundary cs t.label.start := by
  cases t
  exact h.1

theorem WellFormed.stop_boundary {t : Tree} (h : t.WellFormed cs) : IsBoundary cs t.label.stop := by
  cases t
  exact h.2.1

theorem Within.wellFormed_of_mem {t : Tree} : ∀ {ts : List Tree} {start stop : Nat}, Within cs start stop ts →
    t ∈ ts → t.WellFormed cs
  | u :: ts, _, _, h, ht => by
    rcases List.mem_cons.1 ht with rfl | ht
    · exact h.2.1
    · exact h.2.2.wellFormed_of_mem ht

end Tree

/-! ## Parts of a source -/

theorem sliceBound_natCast (length i : Nat) : sliceBound length (i : Int) = min i length := by
  have : ¬(i : Int) < 0 := by omega
  rw [sliceBound, if_neg this, Int.toNat_natCast]

theorem slice_append {α : Type} (x y z : List α) :
    slice (x ++ y ++ z) (x.length : Int) ((x.length + y.length : Nat) : Int) = y := by
  unfold slice
  rw [sliceBound_natCast, sliceBound_natCast]
  have hstart : min x.length (x ++ y ++ z).length = x.length := by simp
  have hstop : min (x.length + y.length) (x ++ y ++ z).length = x.length + y.length := by simp
  simp only [hstart, hstop]
  rw [List.append_assoc, List.drop_left, Nat.add_sub_cancel_left, List.take_left]

theorem sliceFrom_append {α : Type} (x y : List α) : sliceFrom (x ++ y) (x.length : Int) = y := by
  unfold sliceFrom
  rw [sliceBound_natCast]
  simp

namespace Node

variable {cs : List Char}

theorem textBetween_encode (pre w post : List Char) :
    textBetween (encode (pre ++ w ++ post)) (encode pre).length (encode (pre ++ w)).length = .ok (String.ofList w) := by
  unfold textBetween
  rw [encode_append, encode_append, List.length_append, slice_append, decodeString_encode]

theorem exists_textBetween {a b : Nat} (ha : IsBoundary cs a) (hb : IsBoundary cs b) (hab : a ≤ b) :
    ∃ pre w post, cs = pre ++ w ++ post ∧ a = (encode pre).length ∧ b = (encode (pre ++ w)).length ∧
      textBetween (encode cs) a b = .ok (String.ofList w) := by
  obtain ⟨pre, rest, hcs, rfl⟩ := ha
  obtain ⟨pre', post, hcs', rfl⟩ := hb
  obtain ⟨w, rfl, rfl⟩ := exists_append_of_encode_length_le (hcs.symm.trans hcs') hab
  rw [← List.append_assoc] at hcs
  subst hcs
  exact ⟨pre, w, post, rfl, rfl, rfl, textBetween_encode pre w post⟩

theorem exists_ownerKey {ts : List Tree} (h : ∀ t ∈ ts, t.WellFormed cs) :
    ∃ key?, ownerKey (encode cs) ts = .ok key? := by
  unfold ownerKey
  cases hkey : ts.find? fun t => t.label.field == some "key" with
  | none => exact ⟨none, rfl⟩
  | some key =>
    have hwf := h key (List.mem_of_find?_eq_some hkey)
    obtain ⟨-, w, -, -, -, -, htext⟩ := exists_textBetween hwf.start_boundary hwf.stop_boundary hwf.start_le_stop
    simp only [htext, bind, Except.bind]
    split <;> exact ⟨_, rfl⟩

theorem exists_ownerBelow {ts : List Tree} (kind : Kind) (h : ∀ t ∈ ts, t.WellFormed cs) :
    ∃ key?, ownerBelow (encode cs) kind ts = .ok key? := by
  unfold ownerBelow
  split
  · exact exists_ownerKey h
  · exact ⟨none, rfl⟩

/-! ## Tokens in order -/

/-- A node's text stands in the source where the node says. -/
def Spells (cs : List Char) (n : Node) : Prop :=
  ∃ pre post, cs = pre ++ n.text.toList ++ post ∧ n.start = (encode pre).length ∧
    n.stop = (encode (pre ++ n.text.toList)).length

/-- Nodes that stand one after the other between two positions. -/
def Ordered (cs : List Char) (start stop : Nat) : List Node → Prop
  | [] => start ≤ stop
  | n :: rest => start ≤ n.start ∧ n.Spells cs ∧ Ordered cs n.stop stop rest

theorem Spells.start_le_stop {n : Node} (h : n.Spells cs) : n.start ≤ n.stop := by
  obtain ⟨pre, post, -, hstart, hstop⟩ := h
  rw [hstart, hstop, encode_append, List.length_append]
  exact Nat.le_add_right _ _

theorem Ordered.mono {start start' stop stop' : Nat} (hstart : start' ≤ start) (hstop : stop ≤ stop') :
    ∀ {l : List Node}, Ordered cs start stop l → Ordered cs start' stop' l
  | [], h => (hstart.trans h).trans hstop
  | _ :: _, h => ⟨hstart.trans h.1, h.2.1, h.2.2.mono (Nat.le_refl _) hstop⟩

theorem Ordered.append {b c : Nat} {l' : List Node} (h' : Ordered cs b c l') : ∀ {a : Nat} {l : List Node},
    Ordered cs a b l → Ordered cs a c (l ++ l')
  | _, [], h => h'.mono h (Nat.le_refl _)
  | _, _ :: _, h => ⟨h.1, h.2.1, Ordered.append h' h.2.2⟩

theorem Ordered.filter (p : Node → Bool) : ∀ {start stop : Nat} {l : List Node}, Ordered cs start stop l →
    Ordered cs start stop (l.filter p)
  | _, _, [], h => h
  | _, _, n :: l, h => by
    have hl := h.2.2.filter p
    rw [List.filter_cons]
    split
    · exact ⟨h.1, h.2.1, hl⟩
    · exact hl.mono (h.1.trans h.2.1.start_le_stop) (Nat.le_refl _)

/-- **Where a node stands**: a token stands where its text does, a node that is entered just where it begins. -/
def spot (n : Node) : Node :=
  if n.isLeaf then n else { n with text := "", stop := n.start }

@[simp] theorem isLeaf_spot (n : Node) : n.spot.isLeaf = n.isLeaf := by
  unfold spot
  split <;> rfl

theorem spot_of_isLeaf {n : Node} (h : n.isLeaf = true) : n.spot = n :=
  if_pos h

theorem filter_isLeaf_spots : ∀ (nodes : List Node), (nodes.map spot).filter isLeaf = nodes.filter isLeaf
  | [] => rfl
  | n :: nodes => by
    rw [List.map_cons, List.filter_cons, List.filter_cons, isLeaf_spot, filter_isLeaf_spots nodes]
    split
    · rename_i h
      rw [spot_of_isLeaf h]
    · rfl

/-- **A node stands where its label says**, the row and the column counted from one. -/
structure At (n : Node) (l : Label) : Prop where
  start : n.start = l.start
  stop : n.stop = l.stop
  line : n.line = l.row + 1
  column : n.column = l.column + 1

theorem at_ofLabel (source : List UInt8) (kind parent : Kind) (owner : Option String) (l : Label) (isLeaf : Bool)
    (text : String) : (ofLabel source kind parent owner l isLeaf text).At l :=
  ⟨rfl, rfl, rfl, rfl⟩

mutual

theorem exists_preorder : ∀ {t : Tree} (parentType : Option String) (parent : Kind) (owner : Option String),
    t.WellFormed cs → ∃ nodes, preorder (encode cs) parentType parent owner t = .ok nodes ∧
      Ordered cs t.label.start t.label.stop (nodes.map spot)
  | .node l ts, parentType, parent, owner, h => by
    rw [preorder]
    generalize Kind.of l.type l.named ts.isEmpty l.field parentType = kind
    split
    · obtain ⟨pre, w, post, hcs, hstart, hstop, htext⟩ := exists_textBetween h.1 h.2.1 h.start_le_stop
      rw [htext]
      refine ⟨_, rfl, ?_⟩
      have hw : (String.ofList w).toList = w := String.toList_ofList
      refine ⟨Nat.le_refl _, ⟨pre, post, ?_, hstart, ?_⟩, Nat.le_refl _⟩
      · exact hcs.trans (by rw [spot_of_isLeaf rfl, ofLabel, hw])
      · exact hstop.trans (by rw [spot_of_isLeaf rfl, ofLabel, hw])
    · -- the node itself takes no room before what is below it
      have hroot : Spells cs (spot (ofLabel (encode cs) kind parent owner l false "")) := by
        obtain ⟨pre, post, hcs, hstart⟩ := h.1
        exact ⟨pre, post, by rw [hcs]; simp [spot, ofLabel], hstart, by simpa [spot, ofLabel] using hstart⟩
      obtain ⟨inner, hinner⟩ := exists_ownerBelow kind fun t ht => h.2.2.wellFormed_of_mem ht
      obtain ⟨below, hbelow, hordered⟩ := exists_preorderAmong (some l.type) kind inner h.2.2
      simp only [hinner, hbelow, bind, Except.bind]
      exact ⟨_, rfl, Nat.le_refl _, hroot, hordered⟩

theorem exists_preorderAmong : ∀ {ts : List Tree} {start stop : Nat} (parentType : Option String) (parent : Kind)
    (owner : Option String), Tree.Within cs start stop ts →
    ∃ nodes, preorderAmong (encode cs) parentType parent owner ts = .ok nodes ∧ Ordered cs start stop (nodes.map spot)
  | [], _, _, _, _, _, h => ⟨[], rfl, h⟩
  | t :: ts, start, stop, parentType, parent, owner, h => by
    obtain ⟨first, hfirst, horder⟩ := exists_preorder parentType parent owner h.2.1
    obtain ⟨others, hothers, horder'⟩ := exists_preorderAmong parentType parent owner h.2.2
    refine ⟨first ++ others, ?_, ?_⟩
    · simp only [preorderAmong, hfirst, hothers, bind, Except.bind]
      rfl
    · rw [List.map_append]
      exact Ordered.append horder' (horder.mono h.1 (Nat.le_refl _))

end

/-- **The walk over a well-formed tree succeeds, and its nodes stand in order.** -/
theorem exists_spots {t : Tree} (h : t.WellFormed cs) : ∃ nodes, ofTree (encode cs) t = .ok nodes ∧
    Ordered cs 0 t.label.stop (nodes.map spot) := by
  obtain ⟨nodes, hnodes, hordered⟩ := exists_preorder none .other none h
  exact ⟨nodes, (ofTree_eq_preorder _ t).trans hnodes, hordered.mono (Nat.zero_le _) (Nat.le_refl _)⟩

theorem exists_nodes {t : Tree} (h : t.WellFormed cs) : ∃ nodes, ofTree (encode cs) t = .ok nodes ∧
    Ordered cs 0 t.label.stop (nodes.filter isLeaf) := by
  obtain ⟨nodes, hnodes, hordered⟩ := exists_spots h
  exact ⟨nodes, hnodes, filter_isLeaf_spots nodes ▸ hordered.filter isLeaf⟩

theorem bind_eq_ok_iff {ε α β : Type} {x : Except ε α} {f : α → Except ε β} {b : β} :
    (x >>= f) = .ok b ↔ ∃ a, x = .ok a ∧ f a = .ok b := by
  cases x with
  | error e => exact ⟨fun h => (by cases h), fun ⟨_, h, _⟩ => (by cases h)⟩
  | ok a => exact ⟨fun h => ⟨a, rfl, h⟩, fun ⟨_, h, h'⟩ => Except.ok.inj h ▸ h'⟩

/-- What the walk makes of a node: a token, or the node and what is below it. -/
theorem preorder_eq_ok {source : List UInt8} {l : Label} {ts : List Tree} {parentType : Option String} {parent : Kind}
    {owner : Option String} {nodes : List Node} (h : preorder source parentType parent owner (.node l ts) = .ok nodes) :
    (∃ kind text, nodes = [ofLabel source kind parent owner l true text]) ∨
      ∃ kind inner below, nodes = ofLabel source kind parent owner l false "" :: below ∧
        preorderAmong source (some l.type) kind inner ts = .ok below := by
  rw [preorder] at h
  generalize Kind.of l.type l.named ts.isEmpty l.field parentType = kind at h
  split at h
  · obtain ⟨text, -, h⟩ := bind_eq_ok_iff.1 h
    exact .inl ⟨kind, text, (Except.ok.inj h).symm⟩
  · obtain ⟨inner, -, h⟩ := bind_eq_ok_iff.1 h
    obtain ⟨below, hbelow, h⟩ := bind_eq_ok_iff.1 h
    exact .inr ⟨kind, inner, below, (Except.ok.inj h).symm, hbelow⟩

mutual

theorem exists_ofLabel_of_preorder {source : List UInt8} {n : Node} : ∀ {t : Tree} {parentType : Option String} {parent : Kind}
    {owner : Option String} {nodes : List Node}, preorder source parentType parent owner t = .ok nodes → n ∈ nodes →
    ∃ l ∈ t.labels, ∃ kind parent owner isLeaf text, n = ofLabel source kind parent owner l isLeaf text
  | .node l ts, _, parent, owner, _, h, hn => by
    rcases preorder_eq_ok h with ⟨kind, text, rfl⟩ | ⟨kind, inner, below, rfl, hbelow⟩
    · exact ⟨l, List.mem_cons_self, kind, parent, owner, true, text, List.mem_singleton.1 hn⟩
    · rcases List.mem_cons.1 hn with rfl | hn
      · exact ⟨l, List.mem_cons_self, kind, parent, owner, false, "", rfl⟩
      · obtain ⟨l', hl', hn⟩ := exists_ofLabel_of_preorderAmong hbelow hn
        exact ⟨l', List.mem_cons_of_mem l hl', hn⟩

theorem exists_ofLabel_of_preorderAmong {source : List UInt8} {n : Node} : ∀ {ts : List Tree} {parentType : Option String}
    {parent : Kind} {owner : Option String} {nodes : List Node}, preorderAmong source parentType parent owner ts = .ok nodes →
    n ∈ nodes → ∃ l ∈ Tree.labelsAmong ts, ∃ kind parent owner isLeaf text,
      n = ofLabel source kind parent owner l isLeaf text
  | [], _, _, _, _, h, hn => by
    obtain rfl := Except.ok.inj h
    cases hn
  | t :: ts, _, _, _, _, h, hn => by
    rw [preorderAmong] at h
    obtain ⟨first, hfirst, h⟩ := bind_eq_ok_iff.1 h
    obtain ⟨others, hothers, h⟩ := bind_eq_ok_iff.1 h
    obtain rfl := Except.ok.inj h
    rcases List.mem_append.1 hn with hn | hn
    · obtain ⟨l, hl, hn⟩ := exists_ofLabel_of_preorder hfirst hn
      exact ⟨l, List.mem_append_left _ hl, hn⟩
    · obtain ⟨l, hl, hn⟩ := exists_ofLabel_of_preorderAmong hothers hn
      exact ⟨l, List.mem_append_right _ hl, hn⟩

end

/-- **Every node stands where a label of the tree says.** -/
theorem exists_label {source : List UInt8} {t : Tree} {nodes : List Node} {n : Node} (h : ofTree source t = .ok nodes)
    (hn : n ∈ nodes) : ∃ l ∈ t.labels, n.At l := by
  obtain ⟨l, hl, kind, parent, owner, isLeaf, text, rfl⟩ := exists_ofLabel_of_preorder (ofTree_eq_preorder source t ▸ h) hn
  exact ⟨l, hl, at_ofLabel source kind parent owner l isLeaf text⟩

/-- What is repeated before a declaration is white space, each of its characters a byte. -/
theorem exists_byte_of_mem_indent {source : List UInt8} {t : Tree} {nodes : List Node} {n : Node}
    (h : ofTree source t = .ok nodes) (hn : n ∈ nodes) {c : Char} (hc : c ∈ n.indent.toList) :
    ∃ b, isIndentByte b = true ∧ c = Char.ofNat b.toNat := by
  obtain ⟨l, -, kind, parent, owner, isLeaf, text, rfl⟩ := exists_ofLabel_of_preorder (ofTree_eq_preorder source t ▸ h) hn
  dsimp only [ofLabel] at hc
  split at hc
  · rename_i hstarts
    rw [indentText, String.toList_ofList] at hc
    obtain ⟨b, hb, rfl⟩ := List.mem_map.1 hc
    exact ⟨b, List.all_eq_true.1 (Bool.and_eq_true_iff.1 hstarts).2 b hb, rfl⟩
  · simp at hc

/-! ## Tokens and the gaps between them -/

/-- The text of tokens, each after the gap before it. -/
def spread (l : List (List Char × Node)) : List Char :=
  l.flatMap fun p => p.1 ++ p.2.text.toList

/-- Tokens with the gaps before them stand where they say in a text that begins at a position. -/
def Placed (start : Nat) : List (List Char × Node) → Prop
  | [] => True
  | (gap, n) :: rest => n.start = start + (encode gap).length ∧ n.stop = n.start + (encode n.text.toList).length ∧
    Placed n.stop rest

theorem Placed.le_start {q : List Char × Node} : ∀ {l : List (List Char × Node)} {start : Nat}, Placed start l → q ∈ l →
    start ≤ q.2.start
  | (gap, n) :: l, start, h, hq => by
    rcases List.mem_cons.1 hq with rfl | hq
    · rw [h.1]
      exact Nat.le_add_right _ _
    · have := h.2.2.le_start hq
      have := h.1
      have := h.2.1
      omega

/-- The tokens after another one stand behind it. -/
theorem Placed.behind {gap : List Char} {n : Node} {later : List (List Char × Node)} :
    ∀ {l : List (List Char × Node)} {start : Nat}, Placed start (l ++ (gap, n) :: later) → Placed n.stop later
  | [], _, h => h.2.2
  | _ :: _, _, h => h.2.2.behind

/-- Tokens in a row end before the later ones begin. -/
theorem Placed.pairwise : ∀ {l : List (List Char × Node)} {start : Nat}, Placed start l →
    (l.map Prod.snd).Pairwise fun a b => a.stop ≤ b.start
  | [], _, _ => .nil
  | (gap, n) :: l, _, h => by
    refine .cons (fun b hb => ?_) h.2.2.pairwise
    obtain ⟨q, hq, rfl⟩ := List.mem_map.1 hb
    exact h.2.2.le_start hq

theorem Placed.spells {q : List Char × Node} (tail : List Char) : ∀ {l : List (List Char × Node)} (pre : List Char),
    Placed (encode pre).length l → q ∈ l → q.2.Spells (pre ++ (spread l ++ tail))
  | (gap, n) :: l, pre, h, hq => by
    have hspread : pre ++ (spread ((gap, n) :: l) ++ tail) = pre ++ gap ++ n.text.toList ++ (spread l ++ tail) := by
      simp [spread]
    have hstart : n.start = (encode (pre ++ gap)).length := by rw [h.1, encode_append, List.length_append]
    have hstop : n.stop = (encode (pre ++ gap ++ n.text.toList)).length := by
      rw [h.2.1, hstart, encode_append (pre ++ gap), List.length_append]
    rw [hspread]
    rcases List.mem_cons.1 hq with rfl | hq
    · exact ⟨pre ++ gap, spread l ++ tail, rfl, hstart, hstop⟩
    · exact Placed.spells tail _ (hstop ▸ h.2.2) hq

theorem exists_layout_from (pre : List Char) : ∀ {nodes : List Node} {rest : List Char} {stop : Nat},
    cs = pre ++ rest → Ordered cs (encode pre).length stop nodes →
    ∃ l tail, l.map Prod.snd = nodes ∧ rest = spread l ++ tail ∧ Placed (encode pre).length l
  | [], rest, _, _, _ => ⟨[], rest, rfl, rfl, trivial⟩
  | n :: nodes, rest, stop, hcs, h => by
    obtain ⟨hstart, ⟨pre', post, hcs', hnstart, hnstop⟩, hrest⟩ := h
    rw [hnstart] at hstart
    rw [List.append_assoc] at hcs'
    obtain ⟨gap, rfl, hgap⟩ := exists_append_of_encode_length_le (hcs.symm.trans hcs') hstart
    rw [hnstop] at hrest
    rw [← List.append_assoc] at hcs'
    obtain ⟨l, tail, hl, rfl, hplaced⟩ := exists_layout_from _ hcs' hrest
    refine ⟨(gap, n) :: l, tail, by rw [List.map_cons, hl], ?_, ?_, ?_, ?_⟩
    · rw [hgap]
      simp [spread]
    · rw [hnstart, encode_append, List.length_append]
    · rw [hnstop, hnstart, encode_append (pre ++ gap), List.length_append]
    · rw [hnstop]
      exact hplaced

/-- **A source is made of its tokens and the gaps between them.** -/
theorem exists_layout {nodes : List Node} {stop : Nat} (h : Ordered cs 0 stop nodes) :
    ∃ l tail, l.map Prod.snd = nodes ∧ cs = spread l ++ tail ∧ Placed 0 l :=
  exists_layout_from [] rfl h

end Node

/-! ## Tokens for comparison -/

namespace Token

variable {cs : List Char}

theorem exists_walk {stack : List Tree} (h : ∀ t ∈ stack, t.WellFormed cs) : ∃ l, walk (encode cs) stack = .ok l := by
  induction stack using walk.induct with
  | case1 => exact ⟨[], by rw [walk]⟩
  | case2 l ts stack hcomment ih =>
    rw [walk, if_pos hcomment]
    exact ih (List.forall_mem_cons.1 h).2
  | case3 l ts stack hcomment htoken ih =>
    obtain ⟨hroot, hstack⟩ := List.forall_mem_cons.1 h
    obtain ⟨-, w, -, -, -, -, htext⟩ := Node.exists_textBetween hroot.1 hroot.2.1 hroot.start_le_stop
    obtain ⟨later, hlater⟩ := ih hstack
    rw [walk, if_neg hcomment, if_pos htoken, htext, hlater]
    exact ⟨_, rfl⟩
  | case4 l ts stack hcomment htoken ih =>
    obtain ⟨hroot, hstack⟩ := List.forall_mem_cons.1 h
    rw [walk, if_neg hcomment, if_neg htoken]
    refine ih ?_
    rw [Tree.pushAll_eq, List.forall_mem_append]
    exact ⟨fun t ht => hroot.2.2.wellFormed_of_mem ht, hstack⟩

theorem exists_ofTree {t : Tree} (h : t.WellFormed cs) : ∃ l, ofTree (encode cs) t = .ok l :=
  exists_walk (List.forall_mem_singleton.2 h)

end Token
end Argot
