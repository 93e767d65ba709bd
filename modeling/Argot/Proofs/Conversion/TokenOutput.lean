import Argot.Proofs.Conversion.Output
import Argot.Proofs.Text.Spelling
/-!
# TokenOutput — what a token becomes

What a token becomes is a function of its surroundings, the table and the options (`becomes`), and its parts spell just
that (`spells_tokenParts`).  A token that changes in no way becomes its own text (`joined_becomes_of_unchanged`).
-/
namespace Argot

open Text

namespace Part

/-- **Parts that spell the spellings**: what they are put together to is the text of these. -/
def Spells (ps : List Part) (ss : List Spelling) : Prop :=
  target ps = (Spelling.joined ss).map encode

theorem spells_nil : Spells [] [] := rfl

theorem spells_copies (cs : List Char) : Spells (copies (encode cs)) [.text (String.ofList cs)] := by
  simp [Spells, Except.map]

theorem spells_swap (old : List UInt8) (new : Spelling) : Spells [swap old new] [new] := by
  unfold Spells
  cases new with
  | text s =>
    have hbytes : (Spelling.text s).bytes = .ok (encode s.toList) := rfl
    rw [target, hbytes]
    simp [target, bind, Except.bind, pure, Except.pure, Except.map]
  | broken ps h => rfl

theorem Spells.congr {ps : List Part} {ss rest : List Spelling} (h : Spells ps ss)
    (heq : Spelling.joined ss = Spelling.joined rest) : Spells ps rest :=
  h.trans (by rw [heq])

theorem Spells.append {ps qs : List Part} {ss rest : List Spelling} (h : Spells ps ss) (h' : Spells qs rest) :
    Spells (ps ++ qs) (ss ++ rest) := by
  unfold Spells at h h' ⊢
  rw [target_append, Spelling.joined_append, h, h']
  cases Spelling.joined ss with
  | error e => rfl
  | ok first =>
    cases Spelling.joined rest with
    | error e => rfl
    | ok later => simp [bind, Except.bind, pure, Except.pure, Except.map]

end Part

namespace Node

/-- A string of two characters or more stands between characters of one byte. -/
def ByteQuoted (n : Node) : Prop :=
  n.kind = .stringLiteral → 2 ≤ n.text.length →
    (encode (n.text.toList.take 1)).length = 1 ∧ (encode (n.text.toList.drop (n.text.length - 1))).length = 1

end Node

namespace Forward

open Argot.Part

variable {t : Table} {o : Options} {n : Node} {c : Context}

/-! ## What a token becomes -/

def contextOf (o : Options) (n : Node) : Context :=
  { kind := n.kind, parent := n.parent, slot := n.slot, text := n.text, framework := o.framework, owner := n.owner }

/-- The form of a token in its surroundings; that of a decorator's name is looked up with the at sign first under
Angular. -/
def formIn (t : Table) (c : Context) : Spelling :=
  let decorated := t.forward ("@" ++ c.text) (some .frameworkIdentifier)
  let name? :=
    if c.parent == .decorator && c.framework == .angular && decorated != "@" ++ c.text then decorated.behindAt? else none
  name?.getD (t.forward c.text (Decision.of c).category)

/-- A string with another text between its quotes. -/
def requoted (t : Table) (c : Context) : List Spelling :=
  [.text (String.ofList (c.text.toList.take 1)), t.forward (inner c.text) (Decision.of c).category,
    .text (String.ofList (c.text.toList.drop (c.text.length - 1)))]

/-- **What a token becomes**, piece by piece, in its surroundings. -/
def becomes (t : Table) (o : Options) (c : Context) : List Spelling :=
  if c.kind == .comment && !o.preserveComments then []
  else match (Decision.of c).action with
    | .skip => [.text c.text]
    | .annotate =>
      if o.strictMode && t.hasHost c.text (some .operator) then
        [.text c.text, Comment.annotation c.text (t.forward c.text (some .operator))]
      else [.text c.text]
    | .substitute =>
      if c.kind == .stringLiteral then (if c.text.length < 2 then [.text c.text] else requoted t c)
      else if isNameForm (formIn t c) then [formIn t c] else [.text c.text]

theorem decide_eq (o : Options) (n : Node) : decide o n = Decision.of (contextOf o n) := rfl

theorem formOf_eq_formIn : formOf t o n (decide o n).category = formIn t (contextOf o n) := rfl

/-- A text of two characters or more is its first character, what is between, and its last one. -/
theorem split_ends {cs : List Char} (hlen : 2 ≤ cs.length) :
    cs.take 1 ++ (cs.drop 1).dropLast ++ cs.drop (cs.length - 1) = cs := by
  have hinner : (cs.drop 1).dropLast = (cs.drop 1).take (cs.length - 1 - 1) := by
    rw [List.dropLast_eq_take, List.length_drop]
  have hlast : cs.drop (cs.length - 1) = (cs.drop 1).drop (cs.length - 1 - 1) := by
    rw [List.drop_drop]
    congr 1
    omega
  rw [hinner, hlast, List.append_assoc, List.take_append_drop, List.take_append_drop]

/-- A string whose form is what stands between its quotes comes out as it is. -/
theorem joined_requoted (hlen : 2 ≤ n.text.length) (h : t.forward (inner n.text) (decide o n).category = inner n.text) :
    Spelling.joined (requoted t (contextOf o n)) = .ok n.text.toList := by
  have hrequoted : requoted t (contextOf o n) = [.text (String.ofList (n.text.toList.take 1)), .text (inner n.text),
      .text (String.ofList (n.text.toList.drop (n.text.length - 1)))] := by
    rw [← h]
    rfl
  have hlen' : 2 ≤ n.text.toList.length := by rwa [String.length_toList]
  have hsplit := split_ends hlen'
  rw [String.length_toList, List.append_assoc] at hsplit
  rw [hrequoted]
  simp only [Spelling.joined_text_cons, Spelling.joined_nil, Except.map, inner, String.toList_ofList, List.append_nil,
    hsplit]

section
variable (hcomment : n.kind ≠ .comment)
include hcomment

theorem not_dropped : ¬(n.kind == .comment && !o.preserveComments) = true := by
  simp [hcomment]

theorem becomes_of_skip (h : (decide o n).action = .skip) : becomes t o (contextOf o n) = [.text n.text] := by
  rw [decide_eq] at h
  unfold becomes
  rw [h]
  exact if_neg (not_dropped hcomment)

theorem becomes_of_annotate (h : (decide o n).action = .annotate) : becomes t o (contextOf o n) =
    if o.strictMode && t.hasHost n.text (some .operator) then
      [.text n.text, Comment.annotation n.text (t.forward n.text (some .operator))]
    else [.text n.text] := by
  rw [decide_eq] at h
  unfold becomes
  rw [h]
  exact if_neg (not_dropped hcomment)

theorem becomes_of_substitute (h : (decide o n).action = .substitute) : becomes t o (contextOf o n) =
    if n.kind == .stringLiteral then (if n.text.length < 2 then [.text n.text] else requoted t (contextOf o n))
    else if isNameForm (formIn t (contextOf o n)) then [formIn t (contextOf o n)] else [.text n.text] := by
  rw [decide_eq] at h
  unfold becomes
  rw [h]
  exact if_neg (not_dropped hcomment)

/-- **A token that does not change becomes its own text.** -/
theorem joined_becomes_of_unchanged (h : ∀ e, treat t o n ≠ .change e) :
    Spelling.joined (becomes t o (contextOf o n)) = .ok n.text.toList := by
  have htext : Spelling.joined [.text n.text] = .ok n.text.toList := by simp [Except.map]
  unfold treat at h
  dsimp only at h
  cases haction : (decide o n).action with
  | skip =>
    rw [becomes_of_skip hcomment haction]
    exact htext
  | annotate =>
    rw [haction] at h
    rw [becomes_of_annotate hcomment haction]
    dsimp only [treatOperator] at h
    split at h
    · exact (h _ rfl).elim
    · rename_i hcond
      rw [if_neg hcond]
      exact htext
  | substitute =>
    rw [haction] at h
    rw [becomes_of_substitute hcomment haction]
    dsimp only at h
    split at h
    · rename_i hstring
      rw [if_pos hstring]
      unfold treatString at h
      split at h
      · rename_i hlen
        rw [if_pos hlen]
        exact htext
      · rename_i hlen
        rw [if_neg hlen]
        dsimp only at h
        split at h
        · rename_i hform
          exact joined_requoted (by omega) (by simpa using hform)
        · exact (h _ rfl).elim
    · rename_i hstring
      rw [if_neg hstring]
      unfold treatName at h
      rw [formOf_eq_formIn] at h
      dsimp only at h
      split at h
      · rename_i hform
        have hform' : formIn t (contextOf o n) = n.text := by simpa using hform
        rw [hform', ite_self]
        exact htext
      · split at h
        · exact (h _ rfl).elim
        · rename_i hname
          rw [if_neg hname]
          exact htext

end

/-! ## The parts of a token spell what it becomes -/

theorem tokenParts_of_change {i j : Nat} {new : Spelling}
    (h : (visitLeaf t o n).1 = [⟨(n.start + i : Nat), (n.start + j : Nat), new⟩]) :
    tokenParts t o n = around (encode n.text.toList) i j new := by
  have hi : ((n.start + i : Nat) - n.start : Int).toNat = i := by omega
  have hj : ((n.start + j : Nat) - n.start : Int).toNat = j := by omega
  unfold tokenParts
  rw [h]
  dsimp only
  rw [hi, hj]

theorem spells_around (pre w post : List Char) (new : Spelling) :
    Spells (around (encode (pre ++ w ++ post)) (encode pre).length (encode (pre ++ w)).length new)
      [.text (String.ofList pre), new, .text (String.ofList post)] := by
  have htake : (encode (pre ++ w ++ post)).take (encode pre).length = encode pre := by
    rw [List.append_assoc, encode_append]
    exact List.take_left
  have hdrop : (encode (pre ++ w ++ post)).drop (encode (pre ++ w)).length = encode post := by
    rw [encode_append (pre ++ w)]
    exact List.drop_left
  unfold around
  rw [htake, hdrop]
  exact (spells_copies pre).append ((spells_swap _ new).append (spells_copies post))

theorem spells_whole (cs : List Char) (new : Spelling) : Spells (around (encode cs) 0 (encode cs).length new) [new] := by
  have h := spells_around [] cs [] new
  rw [List.nil_append, List.append_nil] at h
  refine h.congr ?_
  cases new with
  | text s => simp [Except.map]
  | broken ps h => rfl

theorem spells_after (cs : List Char) (new : Spelling) :
    Spells (around (encode cs) (encode cs).length (encode cs).length new) [.text (String.ofList cs), new] := by
  have h := spells_around cs [] [] new
  rw [List.append_nil, List.append_nil] at h
  refine h.congr ?_
  cases new with
  | text s => simp [Except.map]
  | broken ps h => rfl

theorem spells_requoted (hn : n.ByteQuoted) (hs : n.kind = .stringLiteral) (hlen : 2 ≤ n.text.length) :
    Spells (around (encode n.text.toList) 1 ((encode n.text.toList).length - 1)
      (t.forward (inner n.text) (decide o n).category)) (requoted t (contextOf o n)) := by
  obtain ⟨hfront, hback⟩ := hn hs hlen
  have hlen' : 2 ≤ n.text.toList.length := by rwa [String.length_toList]
  have hsplit := split_ends hlen'
  rw [String.length_toList] at hsplit
  have h := spells_around (n.text.toList.take 1) (n.text.toList.drop 1).dropLast
    (n.text.toList.drop (n.text.length - 1)) (t.forward (inner n.text) (decide o n).category)
  have hstop : (encode (n.text.toList.take 1 ++ (n.text.toList.drop 1).dropLast)).length =
      (encode n.text.toList).length - 1 := by
    conv => rhs; rw [← hsplit]
    rw [encode_append (_ ++ _), List.length_append, hback, Nat.add_sub_cancel]
  rw [hstop, hfront, hsplit] at h
  exact h

theorem spells_of_no_edit (hvisit : (visitLeaf t o n).1 = [])
    (hjoined : Spelling.joined (becomes t o (contextOf o n)) = .ok n.text.toList) :
    Spells (tokenParts t o n) (becomes t o (contextOf o n)) := by
  unfold tokenParts
  rw [hvisit]
  refine (spells_copies n.text.toList).congr (Eq.trans ?_ hjoined.symm)
  simp [Except.map]

section
variable (hstop : n.stop = n.start + (encode n.text.toList).length)
include hstop

theorem spells_of_comment (hcomment : n.kind = .comment) :
    Spells (tokenParts t o n) (becomes t o (contextOf o n)) := by
  have hkind : (n.kind == .comment) = true := by simp [hcomment]
  by_cases hpreserve : o.preserveComments = true
  · refine spells_of_no_edit (by simp [visitLeaf, hkind, hpreserve]) ?_
    have hcond : ((contextOf o n).kind == .comment && !o.preserveComments) = false := by simp [hpreserve]
    have haction : (Decision.of (contextOf o n)).action = .skip := by
      unfold Decision.of contextOf
      rw [hcomment]
      rfl
    unfold becomes
    rw [hcond, haction]
    simp [contextOf, Except.map]
  · have hcond : ((contextOf o n).kind == .comment && !o.preserveComments) = true := by
      simp [contextOf, hcomment, hpreserve]
    have hvisit : (visitLeaf t o n).1 =
        [⟨(n.start + 0 : Nat), (n.start + (encode n.text.toList).length : Nat), ""⟩] := by
      rw [← hstop]
      simp [visitLeaf, hkind, hpreserve, Edit.deletion]
    rw [tokenParts_of_change hvisit, becomes, if_pos hcond]
    refine (spells_whole _ _).congr ?_
    simp [Except.map]

theorem spells_of_change (hn : n.ByteQuoted) (hcomment : n.kind ≠ .comment) {e : Edit} (htreat : treat t o n = .change e)
    (hvisit : (visitLeaf t o n).1 = [e]) : Spells (tokenParts t o n) (becomes t o (contextOf o n)) := by
  rcases treat_eq_change htreat with ⟨haction, hstrict, hhost, rfl⟩ | ⟨haction, hs, hlen, rfl, -⟩ |
    ⟨haction, hs, rfl, -, hname⟩
  · have hplace : (visitLeaf t o n).1 = [⟨(n.start + (encode n.text.toList).length : Nat),
        (n.start + (encode n.text.toList).length : Nat),
        Comment.annotation n.text (t.forward n.text (some .operator))⟩] := by
      rw [hvisit, ← hstop]
      rfl
    rw [becomes_of_annotate hcomment haction, hstrict, hhost, tokenParts_of_change hplace]
    refine (spells_after _ _).congr ?_
    simp
  · have hstring : (n.kind == .stringLiteral) = true := by simp [hs]
    have hlen' : 2 ≤ (encode n.text.toList).length := by
      have := length_le_encode n.text.toList
      rw [String.length_toList] at this
      omega
    have hplace : (visitLeaf t o n).1 = [⟨(n.start + 1 : Nat), (n.start + ((encode n.text.toList).length - 1) : Nat),
        t.forward (inner n.text) (decide o n).category⟩] := by
      have hend : ((n.start + ((encode n.text.toList).length - 1) : Nat) : Int) = n.stop - 1 := by omega
      rw [hvisit, hend]
      rfl
    rw [becomes_of_substitute hcomment haction, if_pos hstring, if_neg (by omega), tokenParts_of_change hplace]
    exact spells_requoted hn hs hlen
  · have hstring : ¬(n.kind == .stringLiteral) = true := by simp [hs]
    rw [formOf_eq_formIn] at hname hvisit
    have hplace : (visitLeaf t o n).1 = [⟨(n.start + 0 : Nat), (n.start + (encode n.text.toList).length : Nat),
        formIn t (contextOf o n)⟩] := by
      rw [hvisit, ← hstop]
      rfl
    rw [becomes_of_substitute hcomment haction, if_neg hstring, if_pos hname, tokenParts_of_change hplace]
    exact spells_whole _ _

/-- **The parts of a token spell what it becomes.** -/
theorem spells_tokenParts (hn : n.ByteQuoted) : Spells (tokenParts t o n) (becomes t o (contextOf o n)) := by
  by_cases hcomment : n.kind = .comment
  · exact spells_of_comment hstop hcomment
  · have hkind : (n.kind == .comment) = false := by simp [hcomment]
    cases htreat : treat t o n with
    | keep =>
      refine spells_of_no_edit (by simp [visitLeaf, hkind, htreat]) (joined_becomes_of_unchanged hcomment ?_)
      exact fun e he => by rw [htreat] at he; cases he
    | refuse text form =>
      refine spells_of_no_edit (by simp [visitLeaf, hkind, htreat]) (joined_becomes_of_unchanged hcomment ?_)
      exact fun e he => by rw [htreat] at he; cases he
    | change e => exact spells_of_change hstop hn hcomment htreat (by simp [visitLeaf, hkind, htreat])

end

/-! ## Forms that are put in unchecked -/

/-- **The forms that a token puts in without a look at them are texts**: that in the annotation of an operator and that
between the quotes of a string. -/
structure Writable (t : Table) (o : Options) (n : Node) : Prop where
  annotated : (decide o n).action = .annotate → o.strictMode = true → t.hasHost n.text (some .operator) = true →
    (t.forward n.text (some .operator)).IsText
  requoted : (decide o n).action = .substitute → n.kind = .stringLiteral → 2 ≤ n.text.length →
    (t.forward (inner n.text) (decide o n).category).IsText

theorem isText_annotation_iff {operator : String} {form : Spelling} :
    (Comment.annotation operator form).IsText ↔ form.IsText := by
  unfold Comment.annotation
  constructor
  · rintro ⟨text, h⟩
    obtain ⟨x, hx⟩ := (Spelling.text_of_append_text h).1
    exact (Spelling.text_of_append_text hx).2
  · rintro ⟨text, rfl⟩
    exact ⟨_, rfl⟩

theorem isText_of_isNameForm {form : Spelling} (h : isNameForm form = true) : form.IsText := by
  cases form with
  | text s => exact ⟨s, rfl⟩
  | broken ps hps => cases h

theorem kind_ne_comment {action : Action} (h : (decide o n).action = action) (hne : action ≠ .skip) :
    n.kind ≠ .comment := by
  intro hkind
  apply hne
  rw [← h]
  unfold decide Decision.of
  rw [hkind]
  rfl

/-- **What a token becomes is a text just if those forms are.** -/
theorem isText_becomes_iff : (∀ s ∈ becomes t o (contextOf o n), s.IsText) ↔ Writable t o n := by
  cases haction : (decide o n).action with
  | skip =>
    refine iff_of_true ?_ ⟨fun h => ?_, fun h => ?_⟩
    · by_cases hcomment : n.kind = .comment
      · unfold becomes
        split
        · simp
        · rw [← decide_eq, haction]
          simp [Spelling.isText_text]
      · rw [becomes_of_skip hcomment haction]
        simp [Spelling.isText_text]
    · rw [haction] at h
      cases h
    · rw [haction] at h
      cases h
  | annotate =>
    rw [becomes_of_annotate (kind_ne_comment haction (by decide)) haction]
    constructor
    · intro h
      refine ⟨fun _ hstrict hhost => ?_, fun h' => ?_⟩
      · rw [hstrict, hhost] at h
        exact isText_annotation_iff.1 (h _ (List.mem_cons_of_mem _ List.mem_cons_self))
      · rw [haction] at h'
        cases h'
    · intro h
      split
      · rename_i hcond
        rw [Bool.and_eq_true] at hcond
        simpa [Spelling.isText_text, isText_annotation_iff] using h.annotated haction hcond.1 hcond.2
      · simp [Spelling.isText_text]
  | substitute =>
    rw [becomes_of_substitute (kind_ne_comment haction (by decide)) haction]
    constructor
    · intro h
      refine ⟨fun h' => ?_, fun _ hs hlen => ?_⟩
      · rw [haction] at h'
        cases h'
      · rw [if_pos (by simp [hs]), if_neg (by omega)] at h
        exact h _ (by rw [requoted, ← decide_eq]; exact List.mem_cons_of_mem _ List.mem_cons_self)
    · intro h
      split
      · rename_i hs
        split
        · simp [Spelling.isText_text]
        · rename_i hlen
          simp only [requoted, List.mem_cons, List.not_mem_nil, or_false, forall_eq_or_imp, forall_eq,
            Spelling.isText_text, true_and, and_true]
          exact h.requoted haction (by simpa using hs) (by omega)
      · split
        · rename_i hname
          simpa using isText_of_isNameForm hname
        · simp [Spelling.isText_text]

/-! ## What is reported about a token -/

/-- **At most one thing is reported about a token, at its place.** -/
theorem visitLeaf_notes : (visitLeaf t o n).2 = [] ∨
    ∃ d, (visitLeaf t o n).2 = [d] ∧ d.position = some ⟨n.line, n.column⟩ := by
  unfold visitLeaf
  split
  · exact .inl rfl
  · split
    · exact .inl rfl
    · exact .inr ⟨_, rfl, rfl⟩
    · split
      · exact .inr ⟨_, rfl, rfl⟩
      · exact .inl rfl

/-- **A token whose form is refused**: the form would replace it as a name, but does not read as one. -/
structure Refused (t : Table) (o : Options) (n : Node) : Prop where
  decided : (decide o n).action = .substitute
  kind : n.kind ≠ .stringLiteral
  changes : formIn t (contextOf o n) ≠ .text n.text
  form : isNameForm (formIn t (contextOf o n)) = false

theorem Refused.becomes (h : Refused t o n) : becomes t o (contextOf o n) = [.text n.text] := by
  have hkind : ¬(n.kind == .stringLiteral) = true := by simpa using h.kind
  rw [becomes_of_substitute (kind_ne_comment h.decided (by decide)) h.decided, if_neg hkind, h.form]
  rfl

theorem Refused.notes (h : Refused t o n) :
    (visitLeaf t o n).2 = [refusal n n.text (formIn t (contextOf o n))] := by
  have hkind : (n.kind == .stringLiteral) = false := by simpa using h.kind
  have hcomment : (n.kind == .comment) = false := by simpa using kind_ne_comment h.decided (by decide)
  have hform : (formIn t (contextOf o n) == (n.text : Spelling)) = false := by simpa using h.changes
  have htreat : treat t o n = .refuse n.text (formIn t (contextOf o n)) := by
    unfold treat
    simp only [h.decided, hkind]
    unfold treatName
    rw [formOf_eq_formIn]
    simp [hform, h.form]
  unfold visitLeaf
  rw [hcomment, htreat]
  rfl

end Forward
end Argot
