import Mathlib
import Argot.Proofs.Conversion.TokenOutput
import Argot.Vocabulary.Record
/-!
# Locality — a token is converted where it stands

The output is what the nodes become in the order of the source, with the gaps between them copied and comments put before
declarations (`convert_eq_joined`).  It fails just where a form that is put in is no text; what is reported about a token
is said at its place and does not depend on other tokens (`convert_local`).
-/
namespace Argot
namespace Forward

open Text Argot.Part

variable {t : Table} {o : Options} {n : Node}

/-! ## The output of all nodes -/

/-- What a node adds to the output where it stands: a token what it becomes, any other node nothing of its own. -/
def own (t : Table) (o : Options) (n : Node) : List Spelling :=
  if n.isLeaf then becomes t o (contextOf o n) else [.text n.text]

/-- **The output of nodes, each after the gap before it**: the gap, a comment if the node is a declaration that is to be
decorated, and what the node itself becomes. -/
def written (t : Table) (o : Options) : Twister → List (List Char × Node) → List Spelling
  | _, [] => []
  | g, (gap, n) :: l =>
    if n.kind.isDeclaration && o.randomQuotes then
      let (saying, g) := g.choose Standard.quotes ""
      .text (String.ofList gap) :: (decorate n saying).text :: (own t o n ++ written t o g l)
    else .text (String.ofList gap) :: (own t o n ++ written t o g l)

def nodeParts (t : Table) (o : Options) (n : Node) : List Part :=
  if n.isLeaf && !n.kind.isDeclaration then tokenParts t o n else copies (encode n.text.toList)

def allParts (t : Table) (o : Options) : Twister → List (List Char × Node) → List Part
  | _, [] => []
  | g, (gap, n) :: l =>
    if n.kind.isDeclaration && o.randomQuotes then
      let (saying, g) := g.choose Standard.quotes ""
      copies (encode gap) ++ (swap [] (decorate n saying).text :: (nodeParts t o n ++ allParts t o g l))
    else copies (encode gap) ++ (nodeParts t o n ++ allParts t o g l)

theorem action_of_declaration (h : n.kind.isDeclaration = true) : (decide o n).action = .skip := by
  have hkind : n.kind = .functionDeclaration ∨ n.kind = .classDeclaration := by
    revert h
    cases n.kind <;> simp [Kind.isDeclaration]
  unfold decide Decision.of
  rcases hkind with hkind | hkind <;> rw [hkind] <;> rfl

theorem spells_nodeParts (hn : n.ByteQuoted) (hstop : n.stop = n.start + (encode n.text.toList).length) :
    Spells (nodeParts t o n) (own t o n) := by
  unfold nodeParts own
  by_cases hleaf : n.isLeaf = true
  · by_cases hdecl : n.kind.isDeclaration = true
    · -- no rule speaks about declarations
      have hbecomes : becomes t o (contextOf o n) = [.text n.text] := by
        have hcomment : n.kind ≠ .comment := by
          intro h
          rw [h] at hdecl
          cases hdecl
        exact becomes_of_skip hcomment (action_of_declaration hdecl)
      rw [if_pos hleaf, hbecomes, hdecl, hleaf]
      have h := spells_copies n.text.toList
      rwa [String.ofList_toList] at h
    · rw [if_pos hleaf, if_pos (by simp [hleaf, hdecl])]
      exact spells_tokenParts hstop hn
  · rw [if_neg hleaf, if_neg (by simp [hleaf])]
    have h := spells_copies n.text.toList
    rwa [String.ofList_toList] at h

theorem spells_allParts : ∀ {l : List (List Char × Node)} {start : Nat} (g : Twister), Node.Placed start l →
    (∀ q ∈ l, q.2.ByteQuoted) → Spells (allParts t o g l) (written t o g l)
  | [], _, _, _, _ => spells_nil
  | (gap, n) :: l, _, g, hp, hq => by
    have hn := spells_nodeParts (t := t) (o := o) (hq _ List.mem_cons_self) hp.2.1
    have hrest := fun g => spells_allParts g hp.2.2 fun q hq' => hq q (List.mem_cons_of_mem _ hq')
    rw [allParts, written]
    split
    · exact (spells_copies gap).append ((spells_swap [] _).append (hn.append (hrest _)))
    · exact (spells_copies gap).append (hn.append (hrest g))

theorem nodeParts_spec (hstop : n.stop = n.start + (encode n.text.toList).length) :
    source (nodeParts t o n) = encode n.text.toList ∧ edits n.start (nodeParts t o n) =
      if n.isLeaf && !n.kind.isDeclaration then (visitLeaf t o n).1 else [] := by
  unfold nodeParts
  split
  · exact tokenParts_spec hstop
  · exact ⟨source_copies _, edits_copies _ _⟩

/-- A node without an edit is copied. -/
theorem nodeParts_of_no_edit (h : (visitLeaf t o n).1 = []) : nodeParts t o n = copies (encode n.text.toList) := by
  unfold nodeParts tokenParts
  rw [h, ite_self]

/-- **A token that changes is cut around the change.** -/
theorem nodeParts_of_change {e : Edit} (hleaf : n.isLeaf = true) (htreat : treat t o n = .change e) :
    nodeParts t o n = around (encode n.text.toList) (e.start - n.start).toNat (e.stop - n.start).toNat e.text := by
  have hdecl : n.kind.isDeclaration = false := by
    by_contra hdecl
    rw [treat_of_skip (action_of_declaration (by simpa using hdecl))] at htreat
    cases htreat
  unfold nodeParts tokenParts
  rw [if_pos (by rw [hleaf, hdecl]; rfl), visitLeaf_of_change htreat]

/-- A token that gives way as a whole. -/
theorem nodeParts_of_whole {form : Spelling} (hleaf : n.isLeaf = true)
    (hstop : n.stop = n.start + (encode n.text.toList).length)
    (htreat : treat t o n = .change ⟨n.start, n.stop, form⟩) : nodeParts t o n = [swap (encode n.text.toList) form] := by
  have hstart : ((n.start : Int) - n.start).toNat = 0 := by omega
  have hlength : ((n.stop : Int) - n.start).toNat = (encode n.text.toList).length := by omega
  rw [nodeParts_of_change hleaf htreat]
  dsimp only
  rw [hstart, hlength]
  simp [around, copies]

/-- What the visit of a node adds to the edits and diagnostics of the nodes after it. -/
theorem visit_cons (g : Twister) (rest : List Node) : visit t o g (n :: rest) =
    if n.kind.isDeclaration && o.randomQuotes then
      let (saying, g) := g.choose Standard.quotes ""
      let (edits, notes, g) := visit t o g rest
      (decorate n saying :: edits, notes, g)
    else
      let (edits, notes) := if n.isLeaf && !n.kind.isDeclaration then visitLeaf t o n else ([], [])
      let (laterEdits, laterNotes, g) := visit t o g rest
      (edits ++ laterEdits, notes ++ laterNotes, g) := by
  rw [visit]
  cases n.kind.isDeclaration <;> cases o.randomQuotes <;> cases n.isLeaf <;> rfl

theorem visit_notes : ∀ (nodes : List Node) (g : Twister), (visit t o g nodes).2.1 = notes t o nodes
  | [], _ => rfl
  | n :: nodes, g => by
    have ih := visit_notes nodes
    rw [visit_cons]
    have hnotes : notes t o (n :: nodes) =
        (if n.isLeaf && !n.kind.isDeclaration then (visitLeaf t o n).2 else []) ++ notes t o nodes := by
      unfold notes tokens
      rw [List.filter_cons]
      split <;> simp
    rw [hnotes]
    cases hdecl : n.kind.isDeclaration <;> cases o.randomQuotes <;> cases hleaf : n.isLeaf <;> simp [ih]

theorem visit_spots : ∀ (nodes : List Node) (g : Twister), visit t o g (nodes.map Node.spot) = visit t o g nodes
  | [], _ => rfl
  | n :: nodes, g => by
    have ih := visit_spots nodes
    have hkind : n.spot.kind = n.kind := by
      unfold Node.spot
      split <;> rfl
    have hdecorate : ∀ saying, decorate n.spot saying = decorate n saying := by
      intro saying
      unfold Node.spot
      split <;> rfl
    rw [List.map_cons, visit_cons, visit_cons, hkind, Node.isLeaf_spot]
    cases hleaf : n.isLeaf with
    | false => simp [ih, hdecorate]
    | true => simp [ih, Node.spot_of_isLeaf hleaf]

/-- **The parts of all nodes make the edits of the conversion.** -/
theorem allParts_spec : ∀ {l : List (List Char × Node)} {start : Nat} (g : Twister), Node.Placed start l →
    source (allParts t o g l) = encode (Node.spread l) ∧
      edits start (allParts t o g l) = (visit t o g (l.map Prod.snd)).1
  | [], _, _, _ => ⟨rfl, rfl⟩
  | (gap, n) :: l, start, g, h => by
    obtain ⟨hstart, hstop, hrest⟩ := h
    obtain ⟨hsource, hedits⟩ := nodeParts_spec (t := t) (o := o) hstop
    have hspec := fun g => allParts_spec g hrest
    have hspread : Node.spread ((gap, n) :: l) = gap ++ (n.text.toList ++ Node.spread l) := by simp [Node.spread]
    rw [hspread, encode_append, encode_append, List.map_cons, visit_cons, allParts]
    split
    · rename_i hcond
      have hdecl : n.kind.isDeclaration = true := (Bool.and_eq_true _ _ ▸ hcond).1
      obtain ⟨hsources, heditss⟩ := hspec (g.choose Standard.quotes "").2
      rw [hdecl, Bool.not_true, Bool.and_false] at hedits
      dsimp only
      constructor
      · rw [source_append, source_copies, source, source_append, hsource, hsources, List.nil_append]
      · rw [edits_append, edits_copies, source_copies, edits, edits_append, hsource, List.length_nil, Nat.add_zero,
          ← hstart, hedits, ← hstop, heditss]
        rfl
    · obtain ⟨hsources, heditss⟩ := hspec g
      constructor
      · rw [source_append, source_append, source_copies, hsource, hsources]
      · rw [edits_append, edits_append, edits_copies, source_copies, hsource, ← hstart, hedits, ← hstop, heditss]
        split <;> rfl

/-! ## The output in place -/

/-- **A source walked**: all its nodes with the gaps before them, those that are entered just where they begin, and what
follows the last one. -/
structure Walked (cs : List Char) (tree : Tree) (nodes : List Node) (l : List (List Char × Node)) (tail : List Char) :
    Prop where
  nodes_eq : Node.ofTree (encode cs) tree = .ok nodes
  spots_eq : l.map Prod.snd = nodes.map Node.spot
  text_eq : cs = Node.spread l ++ tail
  placed : Node.Placed 0 l

variable {cs tail : List Char} {tree : Tree} {nodes : List Node} {l : List (List Char × Node)}

theorem exists_walked (h : tree.WellFormed cs) : ∃ nodes l tail, Walked cs tree nodes l tail := by
  obtain ⟨nodes, hnodes, hordered⟩ := Node.exists_spots h
  obtain ⟨l, tail, hl, hcs, hplaced⟩ := Node.exists_layout hordered
  exact ⟨nodes, l, tail, hnodes, hl, hcs, hplaced⟩

theorem exists_split_of_map {x y : List Node} (h : l.map Prod.snd = x ++ n :: y) :
    ∃ l₁ gap l₂, l = l₁ ++ (gap, n) :: l₂ ∧ l₁.map Prod.snd = x ∧ l₂.map Prod.snd = y := by
  obtain ⟨l₁, later, rfl, hx, hlater⟩ := List.map_eq_append_iff.1 h
  obtain ⟨⟨gap, m⟩, l₂, rfl, rfl, hy⟩ := List.map_eq_cons_iff.1 hlater
  exact ⟨l₁, gap, l₂, rfl, hx, hy⟩

/-- A token among the nodes is found with the gap before it. -/
theorem Walked.exists_split_at {n₁ n₂ : List Node} (h : Walked cs tree nodes l tail) (hsplit : nodes = n₁ ++ n :: n₂)
    (hleaf : n.isLeaf = true) : ∃ l₁ gap l₂, l = l₁ ++ (gap, n) :: l₂ ∧ l₁.map Prod.snd = n₁.map Node.spot ∧
      l₂.map Prod.snd = n₂.map Node.spot := by
  have hmap := h.spots_eq
  rw [hsplit, List.map_append, List.map_cons, Node.spot_of_isLeaf hleaf] at hmap
  exact exists_split_of_map hmap

theorem tokens_spots (nodes : List Node) : tokens (nodes.map Node.spot) = tokens nodes := by
  have htokens : ∀ nodes, tokens nodes = (nodes.filter Node.isLeaf).filter fun n => !n.kind.isDeclaration := by
    intro nodes
    rw [List.filter_filter]
    exact congrArg (nodes.filter ·) (funext fun n => Bool.and_comm _ _)
  rw [htokens, htokens, Node.filter_isLeaf_spots]

theorem byteQuoted_spot (h : n.ByteQuoted) : n.spot.ByteQuoted := by
  unfold Node.spot
  split
  · exact h
  · -- a node that is entered has no text of its own
    exact fun _ hlen => absurd hlen (by simp)

theorem Walked.byteQuoted (h : Walked cs tree nodes l tail) (hquoted : ∀ n ∈ nodes, n.ByteQuoted) :
    ∀ q ∈ l, q.2.ByteQuoted := by
  intro q hq
  have hmem : q.2 ∈ nodes.map Node.spot := h.spots_eq ▸ List.mem_map_of_mem hq
  obtain ⟨n, hn, hspot⟩ := List.mem_map.1 hmem
  exact hspot ▸ byteQuoted_spot (hquoted n hn)

/-- **The output is what the parts of all nodes are put together to.** -/
theorem Walked.convert_eq (h : Walked cs tree nodes l tail) (g : Twister) : (convert t o g (encode cs) tree).1 =
    (((target (allParts t o g l ++ copies (encode tail))).mapError EditError.unencodable).bind fun bytes =>
      (decodeString bytes).mapError EditError.undecodable).map fun code => { code, diagnostics := notes t o nodes } := by
  obtain ⟨hsource, hedits⟩ := allParts_spec (t := t) (o := o) g h.placed
  have hcs : encode cs = source (allParts t o g l ++ copies (encode tail)) := by
    rw [source_append, source_copies, hsource, ← encode_append, ← h.text_eq]
  have he : (visit t o g nodes).1 = edits 0 (allParts t o g l ++ copies (encode tail)) := by
    rw [edits_append, edits_copies, List.append_nil, hedits, h.spots_eq, visit_spots]
  unfold convert
  rw [h.nodes_eq]
  dsimp only
  rw [he, hcs, applyAll_edits, visit_notes]

theorem Walked.convert_eq_ok_iff (h : Walked cs tree nodes l tail) (g : Twister) {out : Outcome} :
    (convert t o g (encode cs) tree).1 = .ok out ↔ ∃ bytes ds, target (allParts t o g l ++ copies (encode tail)) = .ok bytes ∧
      decodeFrom 0 bytes = .ok ds ∧ out = { code := String.ofList ds, diagnostics := notes t o nodes } := by
  rw [h.convert_eq]
  cases target (allParts t o g l ++ copies (encode tail)) with
  | error e => simp [Except.mapError, Except.bind, Except.map]
  | ok bytes =>
    cases hdec : decodeFrom 0 bytes with
    | error e => simp [Except.mapError, Except.bind, Except.map, decodeString, decode, hdec]
    | ok ds => simp [Except.mapError, Except.bind, Except.map, decodeString, decode, hdec, eq_comm]

/-- **The output is what the nodes become, in place.** -/
theorem convert_eq_joined (h : Walked cs tree nodes l tail) (hquoted : ∀ n ∈ nodes, n.ByteQuoted) (g : Twister) :
    (convert t o g (encode cs) tree).1 =
      ((Spelling.joined (written t o g l ++ [.text (String.ofList tail)])).mapError EditError.unencodable).map
        fun code => { code := String.ofList code, diagnostics := notes t o nodes } := by
  have hspells : Spells (allParts t o g l ++ copies (encode tail)) (written t o g l ++ [.text (String.ofList tail)]) :=
    (spells_allParts g h.placed (h.byteQuoted hquoted)).append (spells_copies tail)
  rw [h.convert_eq, hspells]
  cases Spelling.joined (written t o g l ++ [.text (String.ofList tail)]) with
  | error e => rfl
  | ok code =>
    have hdecode : decodeString (encode code) = .ok (String.ofList code) := decodeString_encode code
    simp [Except.map, Except.mapError, Except.bind, hdecode]

theorem exists_written_append : ∀ (l₁ l₂ : List (List Char × Node)) (g : Twister),
    ∃ g', written t o g (l₁ ++ l₂) = written t o g l₁ ++ written t o g' l₂
  | [], _, g => ⟨g, rfl⟩
  | (gap, n) :: l₁, l₂, g => by
    obtain ⟨g₁, h₁⟩ := exists_written_append l₁ l₂ g
    obtain ⟨g₂, h₂⟩ := exists_written_append l₁ l₂ (g.choose Standard.quotes "").2
    rw [List.cons_append, written, written]
    split
    · refine ⟨g₂, ?_⟩
      dsimp only
      rw [h₂]
      simp
    · refine ⟨g₁, ?_⟩
      rw [h₁]
      simp

/-- What is put out around a node that is not decorated. -/
theorem exists_split_written {l₁ l₂ : List (List Char × Node)} {gap code : List Char} {g : Twister} {rest : List Spelling}
    (hdecl : (n.kind.isDeclaration && o.randomQuotes) = false)
    (h : Spelling.joined (written t o g (l₁ ++ (gap, n) :: l₂) ++ rest) = .ok code) :
    ∃ before self after g', Spelling.joined (written t o g l₁) = .ok before ∧ Spelling.joined (own t o n) = .ok self ∧
      Spelling.joined (written t o g' l₂ ++ rest) = .ok after ∧ code = before ++ gap ++ self ++ after := by
  obtain ⟨g', hwritten⟩ := exists_written_append l₁ ((gap, n) :: l₂) g
  have hcons : written t o g' ((gap, n) :: l₂) = [.text (String.ofList gap)] ++ (own t o n ++ written t o g' l₂) := by
    rw [written, hdecl]
    rfl
  rw [hwritten, hcons, List.append_assoc, List.append_assoc, List.append_assoc] at h
  obtain ⟨before, fromGap, hbefore, hfromGap, rfl⟩ := Spelling.joined_append_eq_ok_iff.1 h
  obtain ⟨gap', fromSelf, hgap, hfromSelf, rfl⟩ := Spelling.joined_append_eq_ok_iff.1 hfromGap
  obtain ⟨self, after, hself, hafter, rfl⟩ := Spelling.joined_append_eq_ok_iff.1 hfromSelf
  obtain rfl : gap' = gap := by simpa [Except.map] using hgap.symm
  exact ⟨before, self, after, g', hbefore, hself, hafter, by simp⟩

/-- **Where a token is in the output**: after what the nodes before it become and the gap before it. -/
theorem exists_around {l₁ l₂ : List (List Char × Node)} {gap : List Char} {g : Twister} {out : Outcome}
    (h : Walked cs tree nodes (l₁ ++ (gap, n) :: l₂) tail) (hquoted : ∀ n ∈ nodes, n.ByteQuoted)
    (hdecl : (n.kind.isDeclaration && o.randomQuotes) = false) (hrun : (convert t o g (encode cs) tree).1 = .ok out) :
    out.diagnostics = notes t o nodes ∧ ∃ before self after g', Spelling.joined (written t o g l₁) = .ok before ∧
      Spelling.joined (own t o n) = .ok self ∧
      Spelling.joined (written t o g' l₂ ++ [.text (String.ofList tail)]) = .ok after ∧
      out.code.toList = before ++ gap ++ self ++ after := by
  rw [convert_eq_joined h hquoted g] at hrun
  cases hjoined : Spelling.joined (written t o g (l₁ ++ (gap, n) :: l₂) ++ [.text (String.ofList tail)]) with
  | error e =>
    rw [hjoined] at hrun
    cases hrun
  | ok code =>
    rw [hjoined] at hrun
    obtain rfl := Except.ok.inj hrun
    obtain ⟨before, self, after, g', hbefore, hself, hafter, rfl⟩ := exists_split_written hdecl hjoined
    exact ⟨rfl, before, self, after, g', hbefore, hself, hafter, String.toList_ofList⟩

theorem isText_decorate (n : Node) (saying : String) : (decorate n saying).text.IsText := by
  unfold decorate
  split <;> exact ⟨_, rfl⟩

theorem isText_own_iff : (∀ s ∈ own t o n, s.IsText) ↔ ∀ m ∈ tokens [n], Writable t o m := by
  unfold own
  by_cases hleaf : n.isLeaf = true
  · rw [if_pos hleaf, isText_becomes_iff]
    by_cases hdecl : n.kind.isDeclaration = true
    · -- a declaration is left as it is
      have haction := action_of_declaration (o := o) hdecl
      refine iff_of_true ⟨fun h => absurd (haction.symm.trans h) (by simp), fun h => ?_⟩ (by simp [tokens, hdecl])
      exact absurd (haction.symm.trans h) (by simp)
    · simp [tokens, hleaf, hdecl]
  · rw [if_neg hleaf]
    exact iff_of_true (by simp [Spelling.isText_text]) (by simp [tokens, hleaf])

theorem isText_written_iff : ∀ (g : Twister) (l : List (List Char × Node)),
    (∀ s ∈ written t o g l, s.IsText) ↔ ∀ n ∈ tokens (l.map Prod.snd), Writable t o n
  | _, [] => by simp [written, tokens]
  | g, (gap, n) :: l => by
    have htokens : tokens (n :: l.map Prod.snd) = tokens [n] ++ tokens (l.map Prod.snd) := List.filter_append [n] _
    have hrest : ∀ g, (∀ s ∈ own t o n ++ written t o g l, s.IsText) ↔
        ∀ m ∈ tokens (n :: l.map Prod.snd), Writable t o m := by
      intro g
      simp only [htokens, List.forall_mem_append]
      rw [isText_own_iff, isText_written_iff g l]
    rw [List.map_cons, written]
    split
    · simpa only [List.forall_mem_cons, Spelling.isText_text, isText_decorate, true_and] using hrest _
    · simpa only [List.forall_mem_cons, Spelling.isText_text, true_and] using hrest g

theorem Walked.tokens_eq (h : Walked cs tree nodes l tail) : tokens (l.map Prod.snd) = tokens nodes := by
  rw [h.spots_eq, tokens_spots]

/-- **There is an output just if every token can be written.** -/
theorem Walked.exists_convert_iff (h : Walked cs tree nodes l tail) (hquoted : ∀ n ∈ nodes, n.ByteQuoted) (g : Twister) :
    (∃ out, (convert t o g (encode cs) tree).1 = .ok out) ↔ ∀ n ∈ tokens nodes, Writable t o n := by
  have hjoined : (∃ out, (convert t o g (encode cs) tree).1 = .ok out) ↔
      ∃ code, Spelling.joined (written t o g l ++ [.text (String.ofList tail)]) = .ok code := by
    rw [convert_eq_joined h hquoted g]
    cases Spelling.joined (written t o g l ++ [.text (String.ofList tail)]) <;> simp [Except.map, Except.mapError]
  rw [hjoined, Spelling.exists_joined_iff, List.forall_mem_append, isText_written_iff, h.tokens_eq]
  simp [Spelling.isText_text]

/-- What conversion reports is never an error. -/
theorem Walked.hasErrors_of_convert (h : Walked cs tree nodes l tail) {g : Twister} {out : Outcome}
    (hout : (convert t o g (encode cs) tree).1 = .ok out) : out.hasErrors = false := by
  obtain ⟨-, -, -, -, rfl⟩ := (h.convert_eq_ok_iff g).1 hout
  exact hasErrors_notes t o nodes

/-- **Conversion is local.**  The output is what the nodes become in place, or the failure of a form that cannot be
written; there is an output just if every form that is put in unchecked is a text.  Every node stands where a label of
the tree says, tokens lie in order, and what is reported is reported token by token, at most once and at its place.  A
token whose form is refused becomes its own text, with just the warning about it. -/
theorem convert_local {source : String} {tree : Tree} (hwf : tree.WellFormed source.toList)
    (hquoted : ∀ nodes, Node.ofTree (bytesOf source) tree = .ok nodes → ∀ n ∈ nodes, n.ByteQuoted) (t : Table)
    (o : Options) (g : Twister) :
    ∃ nodes l tail, Walked source.toList tree nodes l tail ∧
      (convert t o g (bytesOf source) tree).1 =
        ((Spelling.joined (written t o g l ++ [.text (String.ofList tail)])).mapError EditError.unencodable).map
          (fun code => { code := String.ofList code, diagnostics := notes t o nodes }) ∧
      ((∃ out, (convert t o g (bytesOf source) tree).1 = .ok out) ↔ ∀ n ∈ tokens nodes, Writable t o n) ∧
      (∀ n ∈ nodes, ∃ label ∈ tree.labels, n.At label) ∧
      (tokens nodes).Pairwise (fun a b => a.stop ≤ b.start) ∧
      notes t o nodes = (tokens nodes).flatMap (fun n => (visitLeaf t o n).2) ∧
      ∀ n ∈ tokens nodes,
        ((visitLeaf t o n).2 = [] ∨ ∃ d, (visitLeaf t o n).2 = [d] ∧ d.position = some ⟨n.line, n.column⟩) ∧
        (Refused t o n → becomes t o (contextOf o n) = [.text n.text] ∧
          (visitLeaf t o n).2 = [refusal n n.text (formIn t (contextOf o n))]) := by
  obtain ⟨nodes, l, tail, hwalked⟩ := exists_walked hwf
  have hquotes := hquoted nodes hwalked.nodes_eq
  refine ⟨nodes, l, tail, hwalked, convert_eq_joined hwalked hquotes g, hwalked.exists_convert_iff hquotes g,
    fun n hn => Node.exists_label hwalked.nodes_eq hn, ?_, rfl,
    fun n _ => ⟨visitLeaf_notes, fun h => ⟨h.becomes, h.notes⟩⟩⟩
  rw [← hwalked.tokens_eq]
  exact hwalked.placed.pairwise.filter _

/-- A form of two words leaves its word as it is, with one warning, and the word after it is still converted. -/
theorem two_words_are_refused :
    let t := Table.ofLists [(.keyword, [("let", "two words"), ("x", "y")])]
    let tree : Tree := .inner "lexical_declaration" 0 5 none
      [.token "let" false 0 3 "kind", .token "identifier" true 4 5 "name"]
    tree.WellFormed "let x".toList ∧ ∀ g, ∃ out, (convert t {} g (bytesOf "let x") tree).1 = .ok out ∧ out.diagnostics = [
      { message := "Failed to transform node at line 1: 'let' maps to 'two words', which is not a valid identifier",
        severity := .warning, position := some ⟨1, 1⟩ }] := by
  intro t tree
  have hwf : tree.WellFormed "let x".toList := by decide
  let letNode : Node := .token .keyword .variableDeclaration "let" "let" 0 3 "kind"
  let xNode : Node := .token .identifier .variableDeclaration "identifier" "x" 4 5 "name"
  let nodes : List Node := [.inner .variableDeclaration .other "lexical_declaration" 0 5, letNode, xNode]
  have hnodes : Node.ofTree (bytesOf "let x") tree = .ok nodes := by decide +kernel
  have hnames : ∀ n ∈ nodes, n.kind ≠ .stringLiteral ∧ (decide {} n).action ≠ .annotate := by decide
  have hquoted : ∀ nodes', Node.ofTree (bytesOf "let x") tree = .ok nodes' → ∀ n ∈ nodes', n.ByteQuoted := by
    intro nodes' hnodes' n hn hstring
    obtain rfl := Except.ok.inj (hnodes.symm.trans hnodes')
    exact ((hnames n hn).1 hstring).elim
  refine ⟨hwf, fun g => ?_⟩
  obtain ⟨nodes', l, tail, hwalked, hconvert, hwritable, -, -, -, htoken⟩ := convert_local hwf hquoted t {} g
  obtain rfl := Except.ok.inj (hnodes.symm.trans hwalked.nodes_eq)
  obtain ⟨out, hout⟩ := hwritable.2 fun n hn => by
    obtain ⟨hstring, haction⟩ := hnames n (List.mem_filter.1 hn).1
    exact ⟨fun h => (haction h).elim, fun _ h => (hstring h).elim⟩
  have hdiagnostics : out.diagnostics = notes t {} nodes := by
    rw [hout] at hconvert
    cases hjoined : Spelling.joined (written t {} g l ++ [.text (String.ofList tail)]) with
    | error e =>
      rw [hjoined] at hconvert
      cases hconvert
    | ok code =>
      rw [hjoined] at hconvert
      exact congrArg Outcome.diagnostics (Except.ok.inj hconvert)
  have hform : formIn t (contextOf {} letNode) = .text "two words" := rfl
  obtain ⟨-, hrefused⟩ := htoken letNode (by simp [tokens, nodes, letNode, Node.token, Node.inner, Kind.isDeclaration])
  obtain ⟨-, hnote⟩ := hrefused ⟨by decide, by decide, by decide, by decide⟩
  have hnotes : notes t {} nodes = [refusal letNode "let" "two words"] := by
    have hxNote : (visitLeaf t {} xNode).2 = [] := rfl
    change (visitLeaf t {} letNode).2 ++ ((visitLeaf t {} xNode).2 ++ []) = _
    rw [hnote, hxNote, hform]
    rfl
  have hline : toString 1 = "1" := by decide
  refine ⟨out, hout, ?_⟩
  rw [hdiagnostics, hnotes]
  unfold refusal
  simp only [letNode, Node.token, hline]
  rfl

/-- **Half a character in the form of an operator makes conversion fail**, though the table can be read from JSON: the
annotation cannot be written. -/
theorem half_character_fails :
    let half : Spelling := .broken [.half 0] rfl
    let t := Table.ofLists [(.operator, [("+", half)])]
    let record : Json.Value := .object [("categories", .object [("operator", .object [("+", .string half)])])]
    let tree : Tree := .inner "binary_expression" 0 3 none
      [.token "identifier" true 0 1 "left", .token "+" false 1 2 "operator", .token "identifier" true 2 3 "right"]
    (Record.ofValue record).map Record.Contents.toTable = .ok t ∧ tree.WellFormed "a+b".toList ∧
    (∀ nodes, Node.ofTree (bytesOf "a+b") tree = .ok nodes → ∀ n ∈ nodes, n.ByteQuoted) ∧
    ∀ g, (convert t { strictMode := true } g (bytesOf "a+b") tree).1 = .error (.unencodable ⟨16, [.half 0]⟩) := by
  intro half t record tree
  let nodes : List Node := [.inner .other .other "binary_expression" 0 3,
    .token .identifier .other "identifier" "a" 0 1 "left", .token .operator .other "+" "+" 1 2 "operator",
    .token .identifier .other "identifier" "b" 2 3 "right"]
  have hnodes : Node.ofTree (bytesOf "a+b") tree = .ok nodes := by decide +kernel
  have hstrings : ∀ n ∈ nodes, n.kind ≠ .stringLiteral := by decide
  refine ⟨rfl, by decide, fun nodes' hnodes' n hn hstring => ?_, fun g => ?_⟩
  · obtain rfl := Except.ok.inj (hnodes.symm.trans hnodes')
    exact (hstrings n hn hstring).elim
  · unfold convert
    rw [hnodes]
    cbv

end Forward
end Argot
