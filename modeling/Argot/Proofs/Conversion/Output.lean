import Argot.Proofs.Conversion.Splice
import Argot.Proofs.Conversion.Treatment
import Argot.Proofs.Source.OneLine
/-!
# Output — what conversion makes of a source

A token asks for one edit at most, inside of it.  So without sayings the output is read off the tokens and the gaps
between them: gaps stay, and each token gives way to its own parts (`convert_eq`).  On a well-formed tree that is all
there is to it (`exists_laid`).
-/
namespace Argot
namespace Forward

open Text Argot.Part

variable {t : Table} {o : Options} {n : Node}

/-- The nodes that can change: those that the walk does not enter and that declare nothing. -/
def tokens (nodes : List Node) : List Node :=
  nodes.filter fun n => n.isLeaf && !n.kind.isDeclaration

def notes (t : Table) (o : Options) (nodes : List Node) : Diagnostics :=
  (tokens nodes).flatMap fun n => (visitLeaf t o n).2

theorem visit_eq (hq : o.randomQuotes = false) (g : Twister) : ∀ (nodes : List Node),
    visit t o g nodes = ((tokens nodes).flatMap fun n => (visitLeaf t o n).1, notes t o nodes, g)
  | [] => rfl
  | n :: nodes => by
    have ih := visit_eq hq g nodes
    rw [visit]
    by_cases hdecl : n.kind.isDeclaration = true
    · simp [hdecl, hq, ih, tokens, notes]
    · by_cases hleaf : n.isLeaf = true
      · simp [hdecl, hleaf, ih, tokens, notes]
      · simp [hdecl, hleaf, ih, tokens, notes]

/-- A conversion by what its walk over the nodes asks for. -/
theorem convert_eq_ok_of_visit {source : List UInt8} {tree : Tree} {nodes : List Node} {edits : List Edit}
    {ds : Diagnostics} {g g' : Twister} {code : String} (hnodes : Node.ofTree source tree = .ok nodes)
    (hvisit : visit t o g nodes = (edits, ds, g')) (happly : Edit.applyAll source edits = .ok code) :
    (convert t o g source tree).1 = .ok ⟨code, ds⟩ := by
  unfold convert
  rw [hnodes]
  dsimp only
  rw [hvisit]
  dsimp only
  rw [happly]
  rfl

theorem hasErrors_notes (t : Table) (o : Options) (nodes : List Node) : (notes t o nodes).hasErrors = false := by
  unfold Diagnostics.hasErrors
  rw [List.any_eq_false]
  intro d hd
  obtain ⟨n, -, hd⟩ := List.mem_flatMap.1 hd
  unfold visitLeaf at hd
  split at hd
  · cases hd
  · split at hd
    · cases hd
    · obtain rfl := List.mem_singleton.1 hd
      exact Bool.false_ne_true
    · split at hd
      · obtain rfl := List.mem_singleton.1 hd
        exact Bool.false_ne_true
      · cases hd

/-! ## The parts of a token -/

/-- The parts of a token: its bytes, with those replaced that its edit asks for. -/
def tokenParts (t : Table) (o : Options) (n : Node) : List Part :=
  match (visitLeaf t o n).1 with
  | [] => copies (encode n.text.toList)
  | e :: _ => around (encode n.text.toList) (e.start - n.start).toNat (e.stop - n.start).toNat e.text

def spreadParts (t : Table) (o : Options) (l : List (List Char × Node)) : List Part :=
  l.flatMap fun p => copies (encode p.1) ++ tokenParts t o p.2

theorem length_le_encode : ∀ (cs : List Char), cs.length ≤ (encode cs).length
  | [] => Nat.le_refl _
  | c :: cs => by
    obtain ⟨b, bs, hb, -⟩ := decodeChar_encode c []
    have := length_le_encode cs
    rw [encode_cons, hb, List.length_cons, List.length_append, List.length_cons]
    omega

/-- **A token asks for one edit at most, inside of it**, and an edit at its start goes on to its end. -/
theorem visitLeaf_edits (hstop : n.stop = n.start + (encode n.text.toList).length) :
    (visitLeaf t o n).1 = [] ∨ ∃ i j new, i ≤ j ∧ j ≤ (encode n.text.toList).length ∧
      (0 < i ∨ j = (encode n.text.toList).length) ∧
      (visitLeaf t o n).1 = [⟨(n.start + i : Nat), (n.start + j : Nat), new⟩] := by
  unfold visitLeaf
  split
  · split
    · exact .inl rfl
    · refine .inr ⟨0, _, "", Nat.zero_le _, Nat.le_refl _, .inr rfl, ?_⟩
      rw [← hstop]
      rfl
  · cases htreat : treat t o n with
    | keep => exact .inl rfl
    | refuse => exact .inl rfl
    | change e =>
      refine .inr ?_
      rcases treat_eq_change htreat with ⟨-, -, -, rfl⟩ | ⟨-, -, hlen, rfl, -⟩ | ⟨-, -, rfl, -, -⟩
      · refine ⟨_, _, Comment.annotation n.text (t.forward n.text (some .operator)), Nat.le_refl _, Nat.le_refl _,
          .inr rfl, ?_⟩
        rw [← hstop]
        rfl
      · have hlen' : 2 ≤ (encode n.text.toList).length := hlen.trans (length_le_encode _)
        refine ⟨1, (encode n.text.toList).length - 1, t.forward (inner n.text) (decide o n).category, by omega, by omega,
          .inl Nat.one_pos, ?_⟩
        have hend : ((n.start + ((encode n.text.toList).length - 1) : Nat) : Int) = n.stop - 1 := by omega
        rw [hend]
        rfl
      · refine ⟨0, _, formOf t o n (decide o n).category, Nat.zero_le _, Nat.le_refl _, .inr rfl, ?_⟩
        rw [← hstop]
        rfl

theorem tokenParts_spec (hstop : n.stop = n.start + (encode n.text.toList).length) :
    source (tokenParts t o n) = encode n.text.toList ∧ edits n.start (tokenParts t o n) = (visitLeaf t o n).1 := by
  unfold tokenParts
  rcases visitLeaf_edits (t := t) (o := o) hstop with h | ⟨i, j, new, hij, hj, -, h⟩
  · rw [h]
    exact ⟨source_copies _, edits_copies _ _⟩
  · rw [h]
    have hi : ((n.start + i : Nat) - n.start : Int).toNat = i := by omega
    have hj' : ((n.start + j : Nat) - n.start : Int).toNat = j := by omega
    dsimp only
    rw [hi, hj']
    exact ⟨source_around new hij, edits_around new hij hj n.start⟩

theorem spreadParts_spec : ∀ {l : List (List Char × Node)} {start : Nat}, Node.Placed start l →
    source (spreadParts t o l) = encode (Node.spread l) ∧
      edits start (spreadParts t o l) = (l.map Prod.snd).flatMap fun n => (visitLeaf t o n).1
  | [], _, _ => ⟨rfl, rfl⟩
  | (gap, n) :: l, start, h => by
    obtain ⟨hstart, hstop, hrest⟩ := h
    obtain ⟨hsource, hedits⟩ := tokenParts_spec (t := t) (o := o) hstop
    obtain ⟨hsources, heditss⟩ := spreadParts_spec hrest
    have hparts : spreadParts t o ((gap, n) :: l) =
      copies (encode gap) ++ (tokenParts t o n ++ spreadParts t o l) := by simp [spreadParts]
    have hspread : Node.spread ((gap, n) :: l) = gap ++ (n.text.toList ++ Node.spread l) := by simp [Node.spread]
    rw [hparts, hspread]
    constructor
    · rw [source_append, source_append, source_copies, hsource, hsources, encode_append, encode_append]
    · rw [edits_append, edits_append, edits_copies, source_copies, hsource, ← hstart, ← hstop, hedits, heditss]
      rfl

/-! ## The output -/

/-- **A source laid out**: its nodes, its tokens with the gaps before them, and what follows the last token. -/
structure Laid (cs : List Char) (tree : Tree) (nodes : List Node) (l : List (List Char × Node)) (tail : List Char) :
    Prop where
  nodes_eq : Node.ofTree (encode cs) tree = .ok nodes
  tokens_eq : l.map Prod.snd = tokens nodes
  text_eq : cs = Node.spread l ++ tail
  placed : Node.Placed 0 l

def output (t : Table) (o : Options) (l : List (List Char × Node)) (tail : List Char) : Except EncodeError (List UInt8) :=
  target (spreadParts t o l ++ copies (encode tail))

theorem output_cons (gap : List Char) (n : Node) (l : List (List Char × Node)) (tail : List Char) :
    output t o ((gap, n) :: l) tail = (target (tokenParts t o n)).bind fun bytes =>
      (output t o l tail).map fun rest => encode gap ++ bytes ++ rest := by
  have hparts : spreadParts t o ((gap, n) :: l) ++ copies (encode tail) =
      copies (encode gap) ++ (tokenParts t o n ++ (spreadParts t o l ++ copies (encode tail))) := by simp [spreadParts]
  unfold output
  rw [hparts, target_append, target_append, target_copies]
  cases target (tokenParts t o n) with
  | error e => rfl
  | ok bytes =>
    cases target (spreadParts t o l ++ copies (encode tail)) with
    | error e => rfl
    | ok rest => simp [bind, Except.bind, pure, Except.pure, Except.map]

theorem output_cons_eq_ok_iff {gap : List Char} {l : List (List Char × Node)} {tail : List Char} {bytes : List UInt8} :
    output t o ((gap, n) :: l) tail = .ok bytes ↔ ∃ first rest, target (tokenParts t o n) = .ok first ∧
      output t o l tail = .ok rest ∧ bytes = encode gap ++ first ++ rest := by
  rw [output_cons]
  cases target (tokenParts t o n) with
  | error e => simp [Except.bind]
  | ok first =>
    cases output t o l tail with
    | error e => simp [Except.bind, Except.map]
    | ok rest => simp [Except.bind, Except.map, eq_comm]

theorem bytes_text (s : String) : (Spelling.text s).bytes = .ok (encode s.toList) := rfl

theorem exists_laid {cs : List Char} {tree : Tree} (h : tree.WellFormed cs) : ∃ nodes l tail, Laid cs tree nodes l tail := by
  obtain ⟨nodes, hnodes, hordered⟩ := Node.exists_nodes h
  have htokens : tokens nodes = (nodes.filter Node.isLeaf).filter fun n => !n.kind.isDeclaration := by
    rw [List.filter_filter]
    exact congrArg (nodes.filter ·) (funext fun n => Bool.and_comm _ _)
  obtain ⟨l, tail, hl, hcs, hplaced⟩ := Node.exists_layout (htokens ▸ hordered.filter fun n => !n.kind.isDeclaration)
  exact ⟨nodes, l, tail, hnodes, hl, hcs, hplaced⟩

/-- **The output is read off the tokens and the gaps between them.** -/
theorem convert_eq {cs : List Char} {tree : Tree} {nodes : List Node} {l : List (List Char × Node)} {tail : List Char}
    (h : Laid cs tree nodes l tail) (hq : o.randomQuotes = false) (g : Twister) :
    convert t o g (encode cs) tree = ((((output t o l tail).mapError EditError.unencodable).bind fun bytes =>
      (decodeString bytes).mapError EditError.undecodable).map fun code => { code, diagnostics := notes t o nodes }, g) := by
  obtain ⟨hsource, hedits⟩ := spreadParts_spec (t := t) (o := o) h.placed
  have hcs : encode cs = source (spreadParts t o l ++ copies (encode tail)) := by
    rw [source_append, source_copies, hsource, ← encode_append, ← h.text_eq]
  have he : (tokens nodes).flatMap (fun n => (visitLeaf t o n).1) =
      edits 0 (spreadParts t o l ++ copies (encode tail)) := by
    rw [edits_append, edits_copies, List.append_nil, hedits, h.tokens_eq]
  unfold convert
  rw [h.nodes_eq]
  dsimp only
  rw [visit_eq hq, he, hcs]
  dsimp only
  rw [applyAll_edits]
  rfl

/-- A source is converted where every form can be written and what comes out is a text. -/
theorem convert_eq_ok_iff {cs : List Char} {tree : Tree} {nodes : List Node} {l : List (List Char × Node)}
    {tail : List Char} (h : Laid cs tree nodes l tail) (hq : o.randomQuotes = false) (g : Twister) {out : Outcome} :
    (convert t o g (encode cs) tree).1 = .ok out ↔ ∃ bytes ds, output t o l tail = .ok bytes ∧
      decodeFrom 0 bytes = .ok ds ∧ out = { code := String.ofList ds, diagnostics := notes t o nodes } := by
  rw [convert_eq h hq]
  cases output t o l tail with
  | error e => simp [Except.mapError, Except.bind, Except.map]
  | ok bytes =>
    cases hdec : decodeFrom 0 bytes with
    | error e => simp [Except.mapError, Except.bind, Except.map, decodeString, decode, hdec]
    | ok ds => simp [Except.mapError, Except.bind, Except.map, decodeString, decode, hdec, eq_comm]

end Forward
end Argot
