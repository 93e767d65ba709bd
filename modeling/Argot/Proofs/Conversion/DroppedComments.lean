import Argot.Proofs.Conversion.Locality
/-!
# DroppedComments — what is left between tokens when comments are dropped

Without its comments, a source keeps between two tokens the gaps that stood there.  They are empty just if the comments
between the tokens take up all the room (`separated_iff`), so tokens that only comments kept apart come together.
-/
namespace Argot
namespace Forward

open Text

variable {t : Table} {o : Options} {n : Node}

/-- The gaps before nodes, in a row. -/
def gaps (l : List (List Char × Node)) : List Char :=
  l.flatMap Prod.fst

/-- A byte stands inside of a node. -/
def Covers (n : Node) (i : Nat) : Prop :=
  n.start ≤ i ∧ i < n.stop

theorem own_of_dropped (ho : o.preserveComments = false) (hleaf : n.isLeaf = true) (hcomment : n.kind = .comment) :
    own t o n = [] := by
  rw [own, if_pos hleaf, becomes, if_pos]
  simp [contextOf, hcomment, ho]

/-- Comments that are dropped leave the gaps before them. -/
theorem joined_written_of_dropped (hcomments : o.preserveComments = false) (hquotes : o.randomQuotes = false)
    (g : Twister) : ∀ {l : List (List Char × Node)},
    (∀ q ∈ l, if q.2.isLeaf then q.2.kind = .comment else q.2.text = "") →
    Spelling.joined (written t o g l) = .ok (gaps l)
  | [], _ => rfl
  | (gap, n) :: l, h => by
    have hn := h _ List.mem_cons_self
    have hown : Spelling.joined (own t o n) = .ok [] := by
      by_cases hleaf : n.isLeaf = true
      · rw [if_pos hleaf] at hn
        rw [own_of_dropped hcomments hleaf hn]
        rfl
      · rw [if_neg hleaf] at hn
        rw [own, if_neg hleaf, hn]
        rfl
    have hrest := joined_written_of_dropped hcomments hquotes g fun q hq => h q (List.mem_cons_of_mem _ hq)
    have hcons : written t o g ((gap, n) :: l) = [.text (String.ofList gap)] ++ (own t o n ++ written t o g l) := by
      rw [written, hquotes, Bool.and_false]
      rfl
    rw [hcons]
    refine Spelling.joined_append_eq_ok_iff.2 ⟨gap, gaps l, by simp [Except.map], ?_, rfl⟩
    exact Spelling.joined_append_eq_ok_iff.2 ⟨[], gaps l, hown, hrest, rfl⟩

/-- **The gaps up to a node are empty just if the nodes before it cover every byte.** -/
theorem gaps_ne_nil_iff {gap : List Char} {b : Node} {later : List (List Char × Node)} :
    ∀ {l : List (List Char × Node)} {start : Nat}, Node.Placed start (l ++ (gap, b) :: later) →
    (gaps l ++ gap ≠ [] ↔ ∃ i, start ≤ i ∧ i < b.start ∧ ∀ q ∈ l, ¬Covers q.2 i)
  | [], start, h => by
    have hb : b.start = start + (encode gap).length := h.1
    constructor
    · intro hne
      have hpos : 0 < (encode gap).length := by
        by_contra hzero
        have hgap : gap = [] := encode_eq_nil (by omega)
        exact hne hgap
      exact ⟨start, Nat.le_refl _, by omega, fun q hq => by cases hq⟩
    · rintro ⟨i, hi, hlt, -⟩ hnil
      have hgap : gap = [] := hnil
      rw [hb, hgap] at hlt
      simp at hlt
      omega
  | (gap', n) :: l, start, h => by
    obtain ⟨hstart, hstop, hrest⟩ := h
    have ih := gaps_ne_nil_iff hrest
    have hgaps : gaps ((gap', n) :: l) ++ gap = gap' ++ (gaps l ++ gap) := by simp [gaps]
    have hbefore : ∀ q ∈ l, n.stop ≤ q.2.start := fun q hq => hrest.le_start (List.mem_append_left _ hq)
    have hb : n.stop ≤ b.start := hrest.le_start (q := (gap, b)) (by simp)
    rw [hgaps]
    by_cases hgap : gap' = []
    · -- the node begins where the others end
      have hnstart : n.start = start := by
        rw [hstart, hgap]
        rfl
      rw [hgap, List.nil_append, ih]
      constructor
      · rintro ⟨i, hi, hlt, hcover⟩
        refine ⟨i, by omega, hlt, fun q hq => ?_⟩
        rcases List.mem_cons.1 hq with rfl | hq
        · exact fun hin => absurd hin.2 (by dsimp only; omega)
        · exact hcover q hq
      · rintro ⟨i, hi, hlt, hcover⟩
        refine ⟨i, ?_, hlt, fun q hq => hcover q (List.mem_cons_of_mem _ hq)⟩
        by_contra hin
        exact hcover _ List.mem_cons_self ⟨by dsimp only; omega, by dsimp only; omega⟩
    · have hpos : 0 < (encode gap').length := by
        by_contra hzero
        exact hgap (encode_eq_nil (by omega))
      refine iff_of_true (by simp [hgap]) ⟨start, Nat.le_refl _, by omega, fun q hq hin => ?_⟩
      rcases List.mem_cons.1 hq with rfl | hq
      · have := hin.1
        dsimp only at this
        omega
      · have := hbefore q hq
        have := hin.1
        omega

/-- **What stands between two tokens when the comments between them are dropped**: the gaps that stood there.  The tokens
are kept apart just if some byte between them is in none of these comments. -/
theorem separated_iff {source : String} {tree : Tree} {nodes n₁ mid n₂ : List Node} {a b : Node}
    (hwf : tree.WellFormed source.toList) (hnodes : Node.ofTree (bytesOf source) tree = .ok nodes)
    (hquoted : ∀ n ∈ nodes, n.ByteQuoted) (hcomments : o.preserveComments = false) (hquotes : o.randomQuotes = false)
    {g : Twister} {out : Outcome} (hrun : (convert t o g (bytesOf source) tree).1 = .ok out)
    (hsplit : nodes = n₁ ++ a :: (mid ++ b :: n₂)) (ha : a.isLeaf = true) (hb : b.isLeaf = true)
    (hmid : ∀ c ∈ mid, c.isLeaf = true → c.kind = .comment) :
    ∃ l₁ gap l gap' l₂ tail, Walked source.toList tree nodes (l₁ ++ (gap, a) :: (l ++ (gap', b) :: l₂)) tail ∧
      l.map Prod.snd = mid.map Node.spot ∧
      ∃ before first second after, Spelling.joined (written t o g l₁) = .ok before ∧
        Spelling.joined (own t o a) = .ok first ∧ Spelling.joined (own t o b) = .ok second ∧
        out.code.toList = before ++ gap ++ first ++ (gaps l ++ gap') ++ second ++ after ∧
        (gaps l ++ gap' ≠ [] ↔ ∃ i, a.stop ≤ i ∧ i < b.start ∧ ∀ c ∈ mid, c.isLeaf = true → ¬Covers c i) := by
  obtain ⟨nodes', l, tail, hwalked⟩ := exists_walked hwf
  obtain rfl : nodes' = nodes := Except.ok.inj (hwalked.nodes_eq.symm.trans hnodes)
  obtain ⟨l₁, gap, later, rfl, -, hlater⟩ := hwalked.exists_split_at hsplit ha
  rw [List.map_append, List.map_cons, Node.spot_of_isLeaf hb] at hlater
  obtain ⟨l, gap', l₂, rfl, hl, -⟩ := exists_split_of_map hlater
  have hplain : ∀ n : Node, (n.kind.isDeclaration && o.randomQuotes) = false := fun n => by rw [hquotes, Bool.and_false]
  obtain ⟨-, before, first, rest, g', hbefore, hfirst, hrest, hcode⟩ := exists_around hwalked hquoted (hplain a) hrun
  obtain ⟨between, second, after, g'', hbetween, hsecond, -, rfl⟩ := exists_split_written (hplain b) hrest
  have hdropped : ∀ q ∈ l, if q.2.isLeaf then q.2.kind = .comment else q.2.text = "" := by
    intro q hq
    have hmem : q.2 ∈ mid.map Node.spot := hl ▸ List.mem_map_of_mem hq
    obtain ⟨c, hc, hspot⟩ := List.mem_map.1 hmem
    rw [← hspot, Node.isLeaf_spot]
    split
    · rename_i hleaf
      rw [Node.spot_of_isLeaf hleaf]
      exact hmid c hc hleaf
    · rename_i hleaf
      rw [Node.spot, if_neg hleaf]
  obtain rfl : between = gaps l :=
    Except.ok.inj (hbetween.symm.trans (joined_written_of_dropped hcomments hquotes g' hdropped))
  refine ⟨l₁, gap, l, gap', l₂, tail, hwalked, hl, before, first, second, after, hbefore, hfirst, hsecond, ?_, ?_⟩
  · rw [hcode]
    simp
  · have hcovers : ∀ i, (∀ q ∈ l, ¬Covers q.2 i) ↔ ∀ c ∈ mid, c.isLeaf = true → ¬Covers c i := by
      intro i
      have hspots : (∀ q ∈ l, ¬Covers q.2 i) ↔ ∀ c ∈ mid, ¬Covers c.spot i := by
        have hsame : (∀ n ∈ l.map Prod.snd, ¬Covers n i) ↔ ∀ n ∈ mid.map Node.spot, ¬Covers n i := by rw [hl]
        simpa only [List.forall_mem_map] using hsame
      rw [hspots]
      refine forall₂_congr fun c _ => ?_
      by_cases hleaf : c.isLeaf = true
      · simp [hleaf, Node.spot_of_isLeaf hleaf]
      · -- a node that is entered takes no room of its own
        refine iff_of_true (fun hin => ?_) fun h => (hleaf h).elim
        have hspot : c.spot.stop = c.spot.start := by rw [Node.spot, if_neg hleaf]
        have := hin.1
        have := hin.2
        omega
    rw [gaps_ne_nil_iff hwalked.placed.behind]
    simp only [hcovers]

/-! ## A comment between two words -/

def typeofTree : Tree :=
  .inner "unary_expression" 0 14 none
    [.token "typeof" false 0 6 "operator", .token "comment" true 6 13, .token "identifier" true 13 14 "argument"]

def typeofNode : Node :=
  .token .keyword .other "typeof" "typeof" 0 6 "operator"

def commentNode : Node :=
  .token .comment .other "comment" "/* c */" 6 13

def argumentNode : Node :=
  .token .identifier .other "identifier" "x" 13 14 "argument"

def typeofNodes : List Node :=
  [.inner .other .other "unary_expression" 0 14, typeofNode, commentNode, argumentNode]

theorem ofTree_typeofTree : Node.ofTree (bytesOf "typeof/* c */x") typeofTree = .ok typeofNodes := by decide +kernel

theorem convert_typeofTree (g : Twister) :
    (convert (Table.ofLists []) { preserveComments := false } g (bytesOf "typeof/* c */x") typeofTree).1 =
      .ok { code := "typeofx" } := by
  have hvisit : visit (Table.ofLists []) { preserveComments := false } g typeofNodes = ([.deletion 6 13], [], g) := rfl
  have happly : Edit.applyAll (bytesOf "typeof/* c */x") [.deletion 6 13] = .ok "typeofx" := by cbv
  exact convert_eq_ok_of_visit ofTree_typeofTree hvisit happly

/-- The comment between the words takes up all the room, so nothing is left there. -/
theorem nothing_between_typeof : ∃ before first between second after,
    Spelling.joined (own (Table.ofLists []) { preserveComments := false } typeofNode) = .ok first ∧
    Spelling.joined (own (Table.ofLists []) { preserveComments := false } argumentNode) = .ok second ∧
    "typeofx".toList = before ++ first ++ between ++ second ++ after ∧ between = [] := by
  have hwf : typeofTree.WellFormed "typeof/* c */x".toList := by decide
  have hstrings : ∀ n ∈ typeofNodes, n.kind ≠ .stringLiteral := by decide
  have hsplit : typeofNodes = typeofNodes.take 1 ++ typeofNode :: ([commentNode] ++ argumentNode :: []) := rfl
  obtain ⟨l₁, gap, l, gap', l₂, tail, -, -, before, first, second, after, -, hfirst, hsecond, hcode, hiff⟩ :=
    separated_iff hwf ofTree_typeofTree (fun n hn hs => (hstrings n hn hs).elim) rfl rfl
      (convert_typeofTree (Twister.ofSeed 0)) hsplit rfl rfl (by decide)
  refine ⟨before ++ gap, first, gaps l ++ gap', second, after, hfirst, hsecond, hcode, ?_⟩
  by_contra hne
  obtain ⟨i, hi, hlt, hcovers⟩ := hiff.1 hne
  exact hcovers commentNode (by decide) rfl ⟨hi, hlt⟩

/-- **Dropping a comment can glue two words together**, where nothing else stood between them. -/
theorem dropped_comment_glues :
    let t := Table.ofLists []
    let o : Options := { preserveComments := false }
    typeofTree.WellFormed "typeof/* c */x".toList ∧
    Node.ofTree (bytesOf "typeof/* c */x") typeofTree = .ok typeofNodes ∧
    tokens typeofNodes = [typeofNode, commentNode, argumentNode] ∧ typeofNode.stop < argumentNode.start ∧
    own t o typeofNode = [.text "typeof"] ∧ own t o argumentNode = [.text "x"] ∧ isNameChar 'f' = true ∧
    isNameChar 'x' = true ∧ ∀ g, (convert t o g (bytesOf "typeof/* c */x") typeofTree).1 = .ok { code := "typeofx" } :=
  ⟨by decide, ofTree_typeofTree, rfl, by decide, rfl, rfl, by decide, by decide, convert_typeofTree⟩

end Forward
end Argot
