import Mathlib
import Argot.Proofs.Conversion.Output
import Argot.Proofs.Conversion.WholeWords
import Argot.Proofs.Vocabulary.Agreement
import Argot.Proofs.Session.Calls
/-!
# ThereAndBack — a source that comes back

Where the forms of a table are names and its operators are none, a source comes back from its conversion if every token
that changes is a whole word, no other word of the source is a form, and what is put out holds no generated comment.  The
pieces of the output are clean in the sense of `Reverse.Piece.Clean`, so the way back undoes them (`convert_convert`), and
a session reports the round trip as equivalent (`comes_back`).
-/
namespace Argot

open Text

/-- **A table that can be taken back**: its entries agree, forms other than those of operators are names, and no operator
holds a character of names. -/
structure Table.Invertible (t : Table) : Prop where
  reachable : t.Reachable
  integrity : t.integrity = []
  forms : ∀ c, c ≠ .operator → ∀ p ∈ (t.entries c).toList, ∃ form : String, p.2 = .text form ∧
    (∀ x ∈ form.toList, isNameChar x = true) ∧ Forward.isNameForm form = true
  operators : ∀ p ∈ (t.entries .operator).toList, ∀ x ∈ p.1.points, x.any isNameChar = false

/-- Options without decorators' names, annotations and sayings, that keep comments. -/
structure Options.Plain (o : Options) : Prop where
  framework : o.framework ≠ .angular
  comments : o.preserveComments = true
  strict : o.strictMode = false
  quotes : o.randomQuotes = false
  seed : o.seed ≠ some .missing

namespace Forward

open Argot.Part Reverse

variable {t : Table} {o : Options} {n : Node}

def Rewritten (t : Table) (o : Options) (n : Node) : Prop :=
  ∃ e, treat t o n = .change e

/-- **A source whose words are told apart**: tokens that are rewritten are whole words, and no other word is a form that
the way back replaces. -/
structure Apart (t : Table) (o : Options) (cs : List Char) (nodes : List Node) : Prop where
  words : ∀ n ∈ tokens nodes, Rewritten t o n → ∃ pre w post, Run cs pre w post ∧ n.start = (encode pre).length ∧
    n.stop = (encode (pre ++ w)).length
  others : ∀ pre w post, Run cs pre w post → t.isReversible (String.ofList w) = true → ∃ n ∈ tokens nodes,
    Rewritten t o n ∧ n.start = (encode pre).length ∧ n.stop = (encode (pre ++ w)).length

/-! ## What a token gives way to -/

/-- Without Angular, a token that changes gives way as a whole to the form that is looked up. -/
theorem treat_plain (ho : o.Plain) {e : Edit} (h : treat t o n = .change e) :
    n.kind ≠ .comment ∧ e = ⟨n.start, n.stop, t.forward n.text (decide o n).category⟩ ∧
      t.forward n.text (decide o n).category ≠ n.text := by
  have hcomment : (decide o n).action = .substitute → n.kind ≠ .comment := by
    intro haction hkind
    unfold decide Decision.of at haction
    rw [hkind] at haction
    cases haction
  have hplain : (o.framework == .angular) = false := by simpa using ho.framework
  rcases treat_eq_change h with ⟨-, hstrict, -⟩ | ⟨haction, hkind, -⟩ | ⟨haction, -, he, hne, -⟩
  · rw [ho.strict] at hstrict
    cases hstrict
  · -- only Angular has strings that change
    have hkeys : Decision.metadataKeys o.framework = [] := by
      cases hf : o.framework with
      | angular => exact (ho.framework hf).elim
      | _ => rfl
    unfold decide Decision.of at haction
    rw [hkind] at haction
    dsimp only at haction
    rw [hkeys] at haction
    split at haction
    · cases haction
    · split at haction
      · rename_i hkey
        cases howner : n.owner <;> rw [howner] at hkey <;> simp at hkey
      · cases haction
  · have hdec : decorated? t o n = none := by
      unfold decorated?
      rw [hplain]
      simp
    rw [formOf_eq, hdec] at he hne
    exact ⟨hcomment haction, he, hne⟩

/-- **A word that is rewritten gives way to a name that goes back to it.** -/
theorem exists_form (ht : t.Invertible) (ho : o.Plain) {e : Edit} (h : treat t o n = .change e)
    (hne : n.text.toList ≠ []) (hname : ∀ c ∈ n.text.toList, isNameChar c = true) : ∃ form : String,
    e = ⟨n.start, n.stop, form⟩ ∧ t.isReversible form = true ∧ t.reverse form = n.text := by
  obtain ⟨-, he, hforward⟩ := treat_plain ho h
  -- an operator with the token's text would hold a character of names
  have hoperator : ∀ form, (t.entries .operator).get? n.text ≠ some form := by
    intro form hform
    obtain ⟨c, hc⟩ := List.exists_mem_of_ne_nil _ hne
    have := ht.operators _ ((OrderedMap.get?_eq_some_iff _ _ _).1 hform) (.char c) (List.mem_map.2 ⟨c, hc, rfl⟩)
    rw [CodePoint.any, CodePoint.char?, Option.any_some, hname c hc] at this
    cases this
  obtain ⟨c, hentry⟩ := Table.entry_of_forward rfl hforward
  have hc : c ≠ .operator := by
    rintro rfl
    exact hoperator _ hentry
  obtain ⟨form, hform, -⟩ := ht.forms c hc _ ((OrderedMap.get?_eq_some_iff _ _ _).1 hentry)
  dsimp only at hform
  rw [hform] at he hentry
  obtain ⟨hreverse, hreversible⟩ := ht.reachable.settled.reverse_of_entry ht.integrity hentry
  refine ⟨form, he, hreversible.2 fun hfirst => ?_, hreverse⟩
  have := List.find?_some hfirst
  exact hoperator form (by simpa using this)

theorem word_of_isReversible (ht : t.Invertible) {form : String} (h : t.isReversible form = true) :
    form.toList ≠ [] ∧ ∀ c ∈ form.toList, isNameChar c = true := by
  unfold Table.isReversible at h
  cases hlookup : t.lookup? form with
  | none =>
    rw [hlookup] at h
    cases h
  | some a =>
    rw [hlookup] at h
    have hwins := Table.winner?_mem ((ht.reachable.settled.winners form).symm.trans hlookup)
    obtain ⟨form', hform', hname, hstart⟩ := ht.forms a.category (by simpa using h) _ hwins
    dsimp only at hform'
    obtain rfl : form = form' := Spelling.text.inj hform'
    refine ⟨fun hnil => ?_, hname⟩
    unfold isNameForm at hstart
    dsimp only at hstart
    rw [hnil] at hstart
    cases hstart

/-! ## The pieces of the output -/

def tokenPieces (t : Table) (o : Options) (n : Node) : List Piece :=
  match treat t o n with
  | .change e => [.swap n.text.toList e.text.shown.toList]
  | _ => n.text.toList.map .keep

/-- The pieces of tokens, the gaps before them and what follows. -/
def pieces (t : Table) (o : Options) (l : List (List Char × Node)) (tail : List Char) : List Piece :=
  (l.flatMap fun p => p.1.map Piece.keep ++ tokenPieces t o p.2) ++ tail.map .keep

theorem pieces_cons (gap : List Char) (n : Node) (l : List (List Char × Node)) (tail : List Char) :
    pieces t o ((gap, n) :: l) tail = gap.map .keep ++ (tokenPieces t o n ++ pieces t o l tail) := by
  simp [pieces]

theorem tokenPieces_of_change {form : String} (h : treat t o n = .change ⟨n.start, n.stop, form⟩) :
    tokenPieces t o n = [.swap n.text.toList form.toList] := by
  unfold tokenPieces
  rw [h]
  rfl

theorem tokenPieces_of_not_rewritten (h : ¬Rewritten t o n) : tokenPieces t o n = n.text.toList.map .keep := by
  unfold tokenPieces
  split
  · rename_i e he
    exact (h ⟨e, he⟩).elim
  · rfl

theorem before_tokenPieces : Piece.before (tokenPieces t o n) = n.text.toList := by
  unfold tokenPieces
  split
  · simp [Piece.before]
  · exact Piece.before_keeps _

theorem before_pieces (tail : List Char) : ∀ (l : List (List Char × Node)),
    Piece.before (pieces t o l tail) = Node.spread l ++ tail
  | [] => Piece.before_keeps tail
  | (gap, n) :: l => by
    rw [pieces_cons, Piece.before_append, Piece.before_append, Piece.before_keeps, before_tokenPieces,
      before_pieces tail l]
    simp [Node.spread]

theorem visitLeaf_of_not_rewritten (ho : o.Plain) (h : ¬Rewritten t o n) : (visitLeaf t o n).1 = [] := by
  unfold visitLeaf
  rw [ho.comments]
  split
  · rfl
  · cases htreat : treat t o n with
    | keep => rfl
    | refuse => rfl
    | change e => exact (h ⟨e, htreat⟩).elim

theorem target_tokenParts (ho : o.Plain) (hstop : n.stop = n.start + (encode n.text.toList).length)
    (h : ∀ e, treat t o n = .change e → ∃ form : String, e = ⟨n.start, n.stop, form⟩) :
    target (tokenParts t o n) = .ok (encode (Piece.after (tokenPieces t o n))) := by
  by_cases hr : Rewritten t o n
  · obtain ⟨e, he⟩ := hr
    obtain ⟨form, rfl⟩ := h e he
    have hvisit : (visitLeaf t o n).1 = [⟨n.start, n.stop, form⟩] := by
      have hkind : (n.kind == .comment) = false := by simpa using (treat_plain ho he).1
      unfold visitLeaf
      rw [hkind, he]
      rfl
    unfold tokenParts
    rw [hvisit, tokenPieces_of_change he]
    have hstart : ((n.start : Int) - n.start).toNat = 0 := by omega
    have hlen : ((n.stop : Int) - n.start).toNat = (encode n.text.toList).length := by omega
    simp only [hstart, hlen, around, Piece.after, List.take_zero, List.drop_length, copies, List.map_nil, List.nil_append,
      List.append_nil, target, bytes_text]
    simp [bind, Except.bind, pure, Except.pure]
  · unfold tokenParts
    rw [visitLeaf_of_not_rewritten ho hr, tokenPieces_of_not_rewritten hr, Piece.after_keeps]
    exact target_copies _

theorem output_eq (ho : o.Plain) (tail : List Char) : ∀ {l : List (List Char × Node)} {start : Nat},
    Node.Placed start l → (∀ q ∈ l, ∀ e, treat t o q.2 = .change e → ∃ form : String, e = ⟨q.2.start, q.2.stop, form⟩) →
    output t o l tail = .ok (encode (Piece.after (pieces t o l tail)))
  | [], _, _, _ => by
    have hafter : Piece.after (pieces t o [] tail) = tail := Piece.after_keeps tail
    rw [hafter]
    exact target_copies _
  | (gap, n) :: l, _, hp, h => by
    have hrest := output_eq ho tail hp.2.2 fun q hq => h q (List.mem_cons_of_mem _ hq)
    rw [pieces_cons, Piece.after_append, Piece.after_append, Piece.after_keeps, encode_append, encode_append,
      ← List.append_assoc]
    exact output_cons_eq_ok_iff.2 ⟨_, _, target_tokenParts ho hp.2.1 (h _ List.mem_cons_self), hrest, rfl⟩

/-! ## The pieces are clean -/

variable {forms : List (List Char)} {host : List Char → List CodePoint} {cs : List Char}

theorem clean_keeps (hforms : AreWords forms) (ps : List Piece) : ∀ {xs pre : List Char},
    cs = pre ++ xs ++ Piece.before ps → (∀ pre' w post, Run cs pre' w post → (encode pre).length ≤ (encode pre').length →
      (encode pre').length < (encode (pre ++ xs)).length → w ∉ forms) →
    Piece.Clean forms host (pre ++ xs).getLast? ps → Piece.Clean forms host pre.getLast? (xs.map .keep ++ ps)
  | [], pre, _, _, h => by simpa using h
  | c :: xs, pre, hcs, hruns, h => by
    refine ⟨fun hbefore hmem => ?_, ?_⟩
    · change (c :: Piece.before (xs.map .keep ++ ps)).takeWhile isNameChar ∈ forms at hmem
      rw [Piece.before_append, Piece.before_keeps] at hmem
      obtain ⟨y, hsplit, hname, hy⟩ := exists_run isNameChar (c :: (xs ++ Piece.before ps))
      refine hruns pre _ y ⟨?_, (hforms _ hmem).1, hname, hbefore, head?_any_eq_false.2 hy⟩ (Nat.le_refl _) ?_ hmem
      · rw [List.append_assoc, ← hsplit, hcs, List.append_assoc]
        rfl
      · rw [encode_append, List.length_append]
        exact Nat.lt_add_of_pos_right (Nat.lt_of_lt_of_le (by simp) (length_le_encode (c :: xs)))
    · have hassoc : pre ++ c :: xs = pre ++ [c] ++ xs := by simp
      rw [hassoc] at hcs hruns h
      have hrest := clean_keeps hforms ps hcs (fun pre' w post hrun hle => hruns pre' w post hrun (Nat.le_trans (by
        rw [encode_append, List.length_append]
        exact Nat.le_add_right _ _) hle)) h
      rw [List.getLast?_concat] at hrest
      exact hrest

theorem clean_swap (ht : t.Invertible) (ho : o.Plain) {pre post : List Char} {ps : List Piece} {e : Edit}
    (hmem : ∀ w : String, w.toList ∈ forms ↔ t.isReversible w = true)
    (hhost : ∀ w : String, host w.toList = (t.reverse w).points) (he : treat t o n = .change e)
    (hrun : Run cs pre n.text.toList post) (hbefore : Piece.before ps = post)
    (h : Piece.Clean forms host (pre ++ n.text.toList).getLast? ps) :
    Piece.Clean forms host pre.getLast? (tokenPieces t o n ++ ps) := by
  obtain ⟨form, rfl, hreversible, hreverse⟩ := exists_form ht ho he hrun.ne_nil hrun.name
  have hlast : (pre ++ n.text.toList).getLast? = n.text.toList.getLast? := by
    rw [List.getLast?_append, List.getLast?_eq_some_getLast hrun.ne_nil]
    rfl
  have hafter : (Piece.before ps).head?.any isNameChar = false := by
    rw [hbefore]
    exact hrun.after
  have hback : host form.toList = CodePoint.ofChars n.text.toList := by
    rw [hhost, hreverse]
    rfl
  rw [tokenPieces_of_change he]
  exact ⟨hrun.before, ⟨hrun.ne_nil, hrun.name⟩, hafter, (hmem form).2 hreversible, hback, hlast ▸ h⟩

/-- A token is clean before pieces that are: it is rewritten and a run of its own, or no run that begins in it is a form. -/
theorem clean_token (ht : t.Invertible) (ho : o.Plain) (hforms : AreWords forms)
    (hmem : ∀ w : String, w.toList ∈ forms ↔ t.isReversible w = true)
    (hhost : ∀ w : String, host w.toList = (t.reverse w).points) {pre : List Char} {ps : List Piece}
    (hcs : cs = pre ++ n.text.toList ++ Piece.before ps) (hstart : n.start = (encode pre).length)
    (hstop : n.stop = (encode (pre ++ n.text.toList)).length)
    (hword : Rewritten t o n → ∃ pre' w post, Run cs pre' w post ∧ n.start = (encode pre').length ∧
      n.stop = (encode (pre' ++ w)).length)
    (hothers : ¬Rewritten t o n → ∀ pre' w post, Run cs pre' w post → n.start ≤ (encode pre').length →
      (encode pre').length < n.stop → w ∉ forms)
    (h : Piece.Clean forms host (pre ++ n.text.toList).getLast? ps) :
    Piece.Clean forms host pre.getLast? (tokenPieces t o n ++ ps) := by
  by_cases hr : Rewritten t o n
  · -- the run that the token stands for has its place, hence its text
    obtain ⟨pre', w, post, hrun, hstart', hstop'⟩ := hword hr
    obtain ⟨e, he⟩ := hr
    obtain ⟨rfl, rfl, hpost⟩ := eq_of_encode_place (hrun.text_eq.symm.trans hcs) (hstart'.symm.trans hstart)
      (hstop'.symm.trans hstop)
    exact clean_swap ht ho hmem hhost he hrun hpost.symm h
  · rw [tokenPieces_of_not_rewritten hr]
    exact clean_keeps hforms _ hcs
      (fun pre' w post hrun hle hlt => hothers hr pre' w post hrun (hstart ▸ hle) (hstop ▸ hlt)) h

/-- **The pieces of the output are clean.** -/
theorem clean_pieces (ht : t.Invertible) (ho : o.Plain) (hforms : AreWords forms)
    (hmem : ∀ w : String, w.toList ∈ forms ↔ t.isReversible w = true)
    (hhost : ∀ w : String, host w.toList = (t.reverse w).points) (tail : List Char) :
    ∀ {l : List (List Char × Node)} (pre : List Char), cs = pre ++ (Node.spread l ++ tail) →
    Node.Placed (encode pre).length l →
    (∀ q ∈ l, Rewritten t o q.2 → ∃ pre' w post, Run cs pre' w post ∧ q.2.start = (encode pre').length ∧
      q.2.stop = (encode (pre' ++ w)).length) →
    (∀ pre' w post, Run cs pre' w post → (encode pre).length ≤ (encode pre').length → w ∈ forms →
      ∃ q ∈ l, Rewritten t o q.2 ∧ q.2.start = (encode pre').length) →
    Piece.Clean forms host pre.getLast? (pieces t o l tail)
  | [], pre, hcs, _, _, hothers => by
    have hall : Piece.Clean forms host pre.getLast? (tail.map .keep ++ []) := by
      refine clean_keeps hforms [] (by simpa [Piece.before, Node.spread] using hcs) (fun pre' w post hrun hle _ hw => ?_)
        trivial
      obtain ⟨q, hq, -⟩ := hothers pre' w post hrun hle hw
      cases hq
    simpa [pieces] using hall
  | (gap, n) :: l, pre, hcs, hp, hwords, hothers => by
    -- from the back: what follows the token is clean, hence the token before it, hence the gap before that; a run that
    -- is a form is told from other runs by the byte where it begins
    have hstart : n.start = (encode (pre ++ gap)).length := by rw [hp.1, encode_append, List.length_append]
    have hstop : n.stop = (encode (pre ++ gap ++ n.text.toList)).length := by
      rw [hp.2.1, hstart, encode_append (pre ++ gap), List.length_append]
    have hcsRest : cs = pre ++ gap ++ n.text.toList ++ (Node.spread l ++ tail) := by
      rw [hcs]
      simp [Node.spread]
    have hrest : Piece.Clean forms host (pre ++ gap ++ n.text.toList).getLast? (pieces t o l tail) := by
      refine clean_pieces ht ho hforms hmem hhost tail _ hcsRest (hstop ▸ hp.2.2)
        (fun q hq => hwords q (List.mem_cons_of_mem _ hq)) fun pre' w post hrun hle hw => ?_
      obtain ⟨q, hq, hr, hqstart⟩ := hothers pre' w post hrun (by
        rw [encode_append, encode_append, List.length_append, List.length_append] at hle
        omega) hw
      rcases List.mem_cons.1 hq with rfl | hq
      · -- the word of a token that is rewritten is not empty
        obtain ⟨pre'', w', post', hrun', hstart', hstop'⟩ := hwords _ List.mem_cons_self hr
        have hpos : 0 < w'.length := List.length_pos_iff.2 hrun'.ne_nil
        have := length_le_encode w'
        rw [encode_append, List.length_append] at hstop'
        dsimp only at hqstart hstart' hstop'
        omega
      · exact ⟨q, hq, hr, hqstart⟩
    have hlater : ∀ q ∈ l, n.stop ≤ q.2.start := fun q hq => hp.2.2.le_start hq
    have htoken : Piece.Clean forms host (pre ++ gap).getLast? (tokenPieces t o n ++ pieces t o l tail) := by
      refine clean_token ht ho hforms hmem hhost (by rw [before_pieces, hcsRest]) hstart hstop
        (hwords _ List.mem_cons_self) (fun hr pre' w post hrun hle hlt hw => ?_) hrest
      have hgap : (encode pre).length ≤ (encode pre').length := Nat.le_trans (by
        rw [hp.1]
        exact Nat.le_add_right _ _) hle
      obtain ⟨q, hq, hqr, hqstart⟩ := hothers pre' w post hrun hgap hw
      rcases List.mem_cons.1 hq with rfl | hq
      · exact hr hqr
      · have := hlater q hq
        omega
    have hcsGap : cs = pre ++ gap ++ Piece.before (tokenPieces t o n ++ pieces t o l tail) := by
      rw [Piece.before_append, before_tokenPieces, before_pieces, hcsRest, List.append_assoc]
    rw [pieces_cons]
    refine clean_keeps hforms _ hcsGap (fun pre' w post hrun hle hlt hw => ?_) htoken
    obtain ⟨q, hq, -, hqstart⟩ := hothers pre' w post hrun hle hw
    rcases List.mem_cons.1 hq with rfl | hq
    · dsimp only at hqstart
      omega
    · have := hlater q hq
      have := hp.2.1
      omega

/-! ## The round trip -/

/-- **A source whose words are told apart is converted, and the way back gives it again.** -/
theorem convert_convert {source : String} {tree : Tree} {nodes : List Node} (ht : t.Invertible) (ho : o.Plain)
    (hwf : tree.WellFormed source.toList) (hnodes : Node.ofTree (bytesOf source) tree = .ok nodes)
    (hapart : Apart t o source.toList nodes)
    (hstrip : ∀ g out, (convert t o g (bytesOf source) tree).1 = .ok out → Comment.strip out.code = out.code) :
    ∃ code, (∀ g, (convert t o g (bytesOf source) tree).1 = .ok { code, diagnostics := notes t o nodes }) ∧
      Reverse.convert t code = .text source := by
  obtain ⟨nodes', l, tail, hlaid⟩ := exists_laid hwf
  obtain rfl : nodes' = nodes := Except.ok.inj (hlaid.nodes_eq.symm.trans hnodes)
  have hmem : ∀ q ∈ l, q.2 ∈ tokens nodes' := fun q hq => hlaid.tokens_eq ▸ List.mem_map_of_mem hq
  -- a token that changes has the text of the run that it covers
  have hedit : ∀ q ∈ l, ∀ e, treat t o q.2 = .change e → ∃ form : String, e = ⟨q.2.start, q.2.stop, form⟩ := by
    intro q hq e he
    obtain ⟨pre, w, post, hrun, hstart, hstop⟩ := hapart.words _ (hmem q hq) ⟨e, he⟩
    obtain ⟨pre', post', htext, hstart', hstop'⟩ := Node.Placed.spells tail [] hlaid.placed hq
    rw [List.nil_append, ← hlaid.text_eq] at htext
    obtain ⟨-, rfl, -⟩ := eq_of_encode_place (hrun.text_eq.symm.trans htext) (hstart.symm.trans hstart')
      (hstop.symm.trans hstop')
    obtain ⟨form, he', -⟩ := exists_form ht ho he hrun.ne_nil hrun.name
    exact ⟨form, he'⟩
  have hout := output_eq ho tail hlaid.placed hedit
  let code := String.ofList (Piece.after (pieces t o l tail))
  have hrun : ∀ g, (convert t o g (bytesOf source) tree).1 = .ok { code, diagnostics := notes t o nodes' } := fun g =>
    (convert_eq_ok_iff hlaid ho.quotes g).2 ⟨_, _, hout, decode_encode _, rfl⟩
  refine ⟨code, hrun, ?_⟩
  obtain ⟨fs, hfs, hconvert⟩ := exists_forms ht.reachable.settled
  have hforms : AreWords (fs.map String.toList) := by
    intro form hform
    obtain ⟨w, hw, rfl⟩ := List.mem_map.1 hform
    exact word_of_isReversible ht ((hfs w).1 hw)
  have hmemForms : ∀ w : String, w.toList ∈ fs.map String.toList ↔ t.isReversible w = true := by
    intro w
    rw [← hfs w]
    constructor
    · intro h
      obtain ⟨w', hw', heq⟩ := List.mem_map.1 h
      exact String.toList_injective heq ▸ hw'
    · exact List.mem_map_of_mem
  have hcode : Comment.stripChars code.toList = Piece.after (pieces t o l tail) := by
    have h := congrArg String.toList (hstrip (Twister.ofSeed 0) _ (hrun _))
    rw [Comment.strip, String.toList_ofList] at h
    exact h.trans String.toList_ofList
  have hclean : Piece.Clean (fs.map String.toList) (fun form => (t.reverse (String.ofList form)).points) none
      (pieces t o l tail) := by
    refine clean_pieces ht ho hforms hmemForms (fun w => by rw [String.ofList_toList]) tail [] hlaid.text_eq
      hlaid.placed (fun q hq => hapart.words _ (hmem q hq)) fun pre' w post hrun _ hw => ?_
    obtain ⟨n, hn, hr, hstart, -⟩ := hapart.others pre' w post hrun ((hmemForms (String.ofList w)).1 (by
      rwa [String.toList_ofList]))
    rw [← hlaid.tokens_eq] at hn
    obtain ⟨q, hq, rfl⟩ := List.mem_map.1 hn
    exact ⟨q, hq, hr, hstart⟩
  rw [hconvert, hcode]
  unfold replaceTexts
  rw [Piece.replaceFrom_after hforms hclean rfl, before_pieces, ← hlaid.text_eq]
  exact Spelling.ofPoints_points (.text source)

/-- **A source whose words are told apart comes back**, by the two conversions and by the calls of a session, and the round
trip is reported as equivalent. -/
theorem comes_back {source : String} {tree : Tree} {nodes : List Node} (ht : t.Invertible) (ho : o.Plain)
    (hwf : tree.WellFormed source.toList) (hfault : tree.fault? = none)
    (hnodes : Node.ofTree (bytesOf source) tree = .ok nodes) (hapart : Apart t o source.toList nodes)
    (hstrip : ∀ g out, (convert t o g (bytesOf source) tree).1 = .ok out → Comment.strip out.code = out.code) :
    ∃ there : Outcome, (∀ g, (convert t o g (bytesOf source) tree).1 = .ok there) ∧
      Reverse.convert t there.code = .text source ∧
      ∀ (parse : Parser Id) (r : Session) (options : Option Options), options.getD r.options = o →
        r.table (r.keyOf o) = t → parse (Sniff.dialect source o) source = tree →
        (r.forward parse source options).1 = .ok there ∧
        ((r.forward parse source options).2.reverse parse there.code options).1 = .ok { code := source } ∧
        ∃ report, (RoundTrip.check parse r source options).1 = .ok report ∧ report.equivalent = true := by
  obtain ⟨code, hthere, hback⟩ := convert_convert ht ho hwf hnodes hapart hstrip
  refine ⟨_, hthere, hback, fun parse r options hoptions htable hparse => ?_⟩
  obtain ⟨g, hg⟩ := r.exists_generatorFor ho.seed
  obtain ⟨l, hl⟩ := Token.exists_ofTree hwf
  -- the call on the way there, whether its options are given or the session's own
  have hcall : ∀ options : Option Options, options.getD r.options = o → ∃ r' : Session,
      r.forward parse source options = (.ok { code, diagnostics := notes t o nodes }, r') ∧ r'.options = r.options ∧
        r'.table (r'.keyOf o) = t := by
    intro options hoptions
    refine ⟨(r.ensure (r.keyOf o)).keepGenerator (convert t o g (bytesOf source) tree).2, ?_,
      Session.options_ensure r (r.keyOf o), ?_⟩
    · rw [Session.forward_eq hoptions hparse hfault hg, htable]
      dsimp only
      rw [hthere g]
      rfl
    · change (r.ensure (r.keyOf o)).table ((r.ensure (r.keyOf o)).keyOf o) = t
      rw [Session.keyOf_ensure, Session.table_ensure, htable]
  have hreturn : ∀ (r' : Session) (options : Option Options), options.getD r'.options = o → r'.table (r'.keyOf o) = t →
      (r'.reverse parse code options).1 = .ok { code := source } := by
    intro r' options hoptions htable'
    rw [Session.reverse_eq hoptions (htable'.symm ▸ hback) hparse hfault]
  obtain ⟨r', hforward, hoptions', htable'⟩ := hcall options hoptions
  obtain ⟨r'', hforward'', -, htable''⟩ := hcall (some o) rfl
  have hcheck := RoundTrip.check_eq hoptions hforward'' (hasErrors_notes t o nodes) (hreturn r'' (some o) rfl htable'') rfl
    (RoundTrip.tokens_eq hparse hfault hl) (RoundTrip.tokens_eq hparse hfault hl)
  rw [hforward]
  refine ⟨rfl, hreturn r' options (hoptions' ▸ hoptions) htable', _, hcheck, ?_⟩
  unfold RoundTrip.report
  rw [RoundTrip.mismatch?_self]
  rfl

theorem let_comes_back :
    let t := Table.ofLists [(.keyword, [("let", "hold")])]
    let tree : Tree := .inner "lexical_declaration" 0 5 none
      [.token "let" false 0 3 "kind", .inner "variable_declarator" 4 5 none [.token "identifier" true 4 5 "name"]]
    let parse : Parser Id := fun _ _ => tree
    let r : Session := { custom := some t }
    (r.forward parse "let x").1 = .ok { code := "hold x" } ∧ Reverse.convert t "hold x" = "let x" ∧
      ∃ report, (RoundTrip.check parse r "let x").1 = .ok report ∧ report.equivalent = true := by
  intro t tree parse r
  have hnameLet : "let".toList.all isNameChar = true := by decide
  have hnameHold : "hold".toList.all isNameChar = true := by decide
  have hstrip : Comment.strip "hold x" = "hold x" := by cbv
  have hentries : ∀ c, (t.entries c).toList = if c = .keyword then [(.text "let", .text "hold")] else [] := by
    intro c
    cases c <;> rfl
  have ht : t.Invertible := by
    refine ⟨Table.reachable_ofLists _ _, by decide, fun c _ p hp => ?_, fun p hp => ?_⟩
    · rw [hentries] at hp
      split at hp
      · obtain rfl := List.mem_singleton.1 hp
        exact ⟨"hold", rfl, List.all_eq_true.1 hnameHold, by decide⟩
      · cases hp
    · rw [hentries] at hp
      cases hp
  let nodes : List Node := [.inner .variableDeclaration .other "lexical_declaration" 0 5,
    .token .keyword .variableDeclaration "let" "let" 0 3 "kind",
    .inner .variableDeclaration .variableDeclaration "variable_declarator" 4 5,
    .token .identifier .variableDeclaration "identifier" "x" 4 5 "name"]
  have hnodes : Node.ofTree (bytesOf "let x") tree = .ok nodes := by decide +kernel
  have hconvert : ∀ g, (convert t {} g (bytesOf "let x") tree).1 = .ok { code := "hold x" } := by
    intro g
    unfold convert
    rw [hnodes]
    cbv
  have hapart : Apart t {} "let x".toList nodes := by
    refine ⟨fun n hn hr => ?_, fun pre w post hrun hform => ?_⟩
    · rcases List.mem_cons.1 hn with rfl | hn
      · exact ⟨[], "let".toList, " x".toList, ⟨rfl, by decide, List.all_eq_true.1 hnameLet, rfl, rfl⟩, rfl, rfl⟩
      · obtain rfl := List.mem_singleton.1 hn
        obtain ⟨e, he⟩ := hr
        cases he
    · -- the only form has a letter that the source has not
      have hforms : t.reversibleForms = [.text "hold"] := by decide
      rw [← Table.mem_reversibleForms, hforms, List.mem_singleton] at hform
      have hw : w = "hold".toList := String.ofList_injective (Spelling.text.inj hform)
      have hmem : 'h' ∈ "let x".toList := by
        rw [hrun.text_eq, hw]
        simp
      exact absurd hmem (by decide)
  obtain ⟨there, hthere, hback, hsession⟩ := comes_back ht ⟨by decide, rfl, rfl, rfl, by decide⟩ (by decide) rfl hnodes
    hapart fun g out hout => Except.ok.inj ((hconvert g).symm.trans hout) ▸ hstrip
  obtain rfl := Except.ok.inj ((hconvert (Twister.ofSeed 0)).symm.trans (hthere _))
  obtain ⟨hforward, -, hcheck⟩ := hsession parse r none rfl rfl rfl
  exact ⟨hforward, hback, hcheck⟩

end Forward
end Argot
