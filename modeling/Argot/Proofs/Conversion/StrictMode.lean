import Mathlib
import Argot.Proofs.Conversion.Annotation
import Argot.Proofs.Conversion.Output
import Argot.Proofs.Text.Spelling
import Argot.Vocabulary.Record
/-!
# StrictMode — annotations are decoration where they read as annotations

The output in strict mode is the output without it with comments put in after operators.  Taking annotations away gives
the latter back where every such comment is made of annotations, which depends on the operators of the table and their
forms alone (`onlyDecorates`).
-/
namespace Argot
namespace Forward

open Text Argot.Part Comment

variable {t : Table} {o : Options} {n : Node}

def strictly (o : Options) (strict : Bool) : Options :=
  { o with strictMode := strict }

def annotationChars (operator form : String) : List Char :=
  " /* GACHI: ".toList ++ (operator.toList ++ (" -> ".toList ++ (form.toList ++ " */".toList)))

/-- An operator that is annotated in strict mode. -/
def IsAnnotated (t : Table) (o : Options) (n : Node) : Prop :=
  (decide o n).action = .annotate ∧ t.hasHost n.text (some .operator) = true

theorem annotation_text (operator form : String) :
    annotation operator form = .text (String.ofList (annotationChars operator form)) := by
  unfold annotation annotationChars
  rw [Spelling.text_append, Spelling.text_append, Spelling.text_append, Spelling.text_append, Spelling.text.injEq,
    ← String.toList_inj, String.toList_ofList]
  simp only [String.toList_append, List.append_assoc]

theorem isOpened_annotationChars (operator form : String) : IsOpened (annotationChars operator form) :=
  List.prefix_append _ _

theorem form_of_annotation_bytes {operator : String} {form : Spelling} {bytes : List UInt8}
    (h : (Comment.annotation operator form).bytes = .ok bytes) : ∃ text, form = .text text := by
  obtain ⟨text, htext⟩ := Spelling.text_of_bytes_ok h
  unfold annotation at htext
  obtain ⟨x, hx⟩ := (Spelling.text_of_append_text htext).1
  exact (Spelling.text_of_append_text hx).2

theorem kind_of_annotate (h : (decide o n).action = .annotate) : n.kind = .operator := by
  unfold decide Decision.of at h
  repeat' split at h
  all_goals first | assumption | cases h

theorem tokenParts_of_annotated (h : IsAnnotated t o n) (hstop : n.stop = n.start + (encode n.text.toList).length) :
    tokenParts t (strictly o false) n = copies (encode n.text.toList) ∧
    tokenParts t (strictly o true) n = copies (encode n.text.toList) ++
      [swap [] (Comment.annotation n.text (t.forward n.text (some .operator)))] := by
  have hkind := kind_of_annotate h.1
  have hvisit : ∀ b, (visitLeaf t (strictly o b) n).1 =
      if b then [.insertion n.stop (Comment.annotation n.text (t.forward n.text (some .operator)))] else [] := by
    intro b
    have htreat : treat t (strictly o b) n = treatOperator t (strictly o b) n := by
      have hdecide : (decide (strictly o b) n).action = .annotate := h.1
      unfold treat
      simp only [hdecide]
    unfold visitLeaf
    rw [htreat, treatOperator, h.2, hkind]
    cases b <;> rfl
  unfold tokenParts
  constructor
  · rw [hvisit false]
    rfl
  · rw [hvisit true]
    have hplace : ((n.stop : Int) - n.start).toNat = (encode n.text.toList).length := by omega
    simp only [if_true, Edit.insertion, hplace]
    simp [around, copies]

theorem tokenParts_of_not_annotated (h : ¬IsAnnotated t o n) :
    tokenParts t (strictly o true) n = tokenParts t (strictly o false) n := by
  have htreat : treat t (strictly o true) n = treat t (strictly o false) n := by
    have hdecide : decide (strictly o true) n = decide (strictly o false) n := rfl
    unfold treat
    dsimp only
    rw [hdecide]
    cases haction : (decide (strictly o false) n).action with
    | skip => rfl
    | substitute => rfl
    | annotate =>
      dsimp only
      have hhost : t.hasHost n.text (some .operator) = false := by
        cases hh : t.hasHost n.text (some .operator) with
        | false => rfl
        | true => exact (h ⟨haction, hh⟩).elim
      simp [treatOperator, hhost]
  unfold tokenParts visitLeaf
  rw [htreat]
  rfl

/-! ## The output in strict mode -/

theorem startsChar_of_bytes {s : Spelling} {bytes : List UInt8} (h : s.bytes = .ok bytes) : StartsChar bytes := by
  obtain ⟨text, rfl⟩ := Spelling.text_of_bytes_ok h
  cases h
  exact startsChar_encode _

theorem startsChar_tokenParts (hstop : n.stop = n.start + (encode n.text.toList).length) {bytes : List UInt8}
    (h : target (tokenParts t o n) = .ok bytes) : StartsChar bytes := by
  unfold tokenParts at h
  rcases visitLeaf_edits (t := t) (o := o) hstop with hv | ⟨i, j, new, hij, hj, hfront, hv⟩
  · rw [hv] at h
    dsimp only at h
    rw [target_copies] at h
    cases h
    exact startsChar_encode _
  · rw [hv] at h
    have hi : ((n.start + i : Nat) - n.start : Int).toNat = i := by omega
    have hj' : ((n.start + j : Nat) - n.start : Int).toNat = j := by omega
    dsimp only at h
    rw [hi, hj', around, target_append, target_copies, target, target_copies] at h
    cases hnew : new.bytes with
    | error e =>
      rw [hnew] at h
      cases h
    | ok newBytes =>
      rw [hnew] at h
      obtain rfl := Except.ok.inj h
      rcases Nat.eq_zero_or_pos i with rfl | hpos
      · have hdrop : (encode n.text.toList).drop j = [] := by
          rw [hfront.resolve_left (Nat.lt_irrefl 0), List.drop_length]
        rw [hdrop, List.take_zero, List.append_nil]
        exact startsChar_of_bytes hnew
      · -- the first byte of the token stays
        have hstart := startsChar_encode n.text.toList
        cases hb : encode n.text.toList with
        | nil =>
          rw [hb, List.length_nil] at hj
          omega
        | cons b bs =>
          rw [hb] at hstart
          cases i with
          | zero => exact (Nat.lt_irrefl 0 hpos).elim
          | succ i => exact hstart

theorem startsChar_output : ∀ {l : List (List Char × Node)} {start : Nat} {tail : List Char} {bytes : List UInt8},
    Node.Placed start l → output t o l tail = .ok bytes → StartsChar bytes
  | [], _, tail, bytes, _, h => by
    unfold output spreadParts at h
    rw [List.flatMap_nil, List.nil_append, target_copies] at h
    cases h
    exact startsChar_encode tail
  | (gap, n) :: l, _, tail, bytes, hp, h => by
    obtain ⟨first, rest, htoken, hrest, rfl⟩ := output_cons_eq_ok_iff.1 h
    exact ((startsChar_encode gap).append (startsChar_tokenParts hp.2.1 htoken)).append (startsChar_output hp.2.2 hrest)

def Erasable (a : List Char) : Prop :=
  Annotations a ∧ IsOpened a

/-- **The output in strict mode is the output without it, with annotations put in.** -/
theorem exists_commented (tail : List Char) : ∀ {l : List (List Char × Node)} {start p : Nat} {bytes : List UInt8}
    {cs : List Char}, Node.Placed start l →
    (∀ q ∈ l, IsAnnotated t o q.2 → q.2.text.toList <:+: cs → ∃ form, t.forward q.2.text (some .operator) = .text form ∧
      Annotations (annotationChars q.2.text form)) →
    output t (strictly o false) l tail = .ok bytes → decodeFrom p bytes = .ok cs →
    ∃ bytes' ds, output t (strictly o true) l tail = .ok bytes' ∧ decodeFrom p bytes' = .ok ds ∧ Commented Erasable cs ds
  | [], _, p, bytes, cs, _, _, hout, hdec => ⟨bytes, cs, hout, hdec, Commented.refl cs⟩
  | (gap, n) :: l, start, p, bytes, cs, hp, hall, hout, hdec => by
    obtain ⟨first, rest, htoken, hrest, rfl⟩ := output_cons_eq_ok_iff.1 hout
    -- what follows the token starts with a character, so that the two parts are decoded by themselves
    obtain ⟨ds, es, rfl, hes, hother⟩ := decodeFrom_split (startsChar_output hp.2.2 hrest) _ (Nat.le_refl _) hdec
    obtain ⟨rest', es', hrest', hes', hcommented⟩ := exists_commented tail hp.2.2
      (fun q hq hann hin => hall q (List.mem_cons_of_mem _ hq) hann (hin.trans (List.suffix_append ds es).isInfix))
      hrest hes
    by_cases hann : IsAnnotated t o n
    · obtain ⟨hplain, hstrict⟩ := tokenParts_of_annotated hann hp.2.1
      rw [hplain, target_copies] at htoken
      obtain rfl := Except.ok.inj htoken
      have hds : ds = gap ++ n.text.toList := by
        have h := hother []
        rw [← encode_append, decodeFrom_encode_append, decodeFrom] at h
        simpa [Except.map] using h.symm
      obtain ⟨form, hform, herased⟩ := hall _ List.mem_cons_self hann ⟨gap, es, by rw [hds]⟩
      have htarget : target (tokenParts t (strictly o true) n) =
          .ok (encode n.text.toList ++ encode (annotationChars n.text form)) := by
        rw [hstrict, target_append, target_copies, hform, annotation_text, target, bytes_text, String.toList_ofList]
        simp [target, bind, Except.bind, pure, Except.pure]
      refine ⟨encode gap ++ (encode n.text.toList ++ encode (annotationChars n.text form)) ++ rest',
        ds ++ (annotationChars n.text form ++ es'), output_cons_eq_ok_iff.2 ⟨_, _, htarget, hrest', rfl⟩, ?_, ?_⟩
      · have hassoc : encode gap ++ (encode n.text.toList ++ encode (annotationChars n.text form)) ++ rest' =
            encode gap ++ encode n.text.toList ++ (encode (annotationChars n.text form) ++ rest') := by
          simp only [List.append_assoc]
        rw [hassoc, hother, decodeFrom_encode_append, decodeFrom_ok_of_ok _ (Nat.le_refl _) hes']
        rfl
      · exact Commented.append (.comment ⟨herased, isOpened_annotationChars _ _⟩ hcommented) ds
    · rw [← tokenParts_of_not_annotated hann] at htoken
      refine ⟨encode gap ++ first ++ rest', ds ++ es', output_cons_eq_ok_iff.2 ⟨_, _, htoken, hrest', rfl⟩, ?_,
        hcommented.append ds⟩
      rw [hother, hes']
      rfl

/-! ## Tables whose annotations are taken away again -/

/-- **Strict mode only decorates**: without its annotations, what it puts out is the output without strict mode, unless
that holds the opening of a generated comment itself. -/
def OnlyDecorates (t : Table) : Prop :=
  ∀ (o : Options) (g : Twister) (source : String) (tree : Tree) (plain : Outcome), o.randomQuotes = false →
    tree.WellFormed source.toList → (convert t (strictly o false) g (bytesOf source) tree).1 = .ok plain →
    ¬opening <:+: plain.code.toList → ¬sayingOpening <:+: plain.code.toList →
    ∃ strict, (convert t (strictly o true) g (bytesOf source) tree).1 = .ok strict ∧ strip strict.code = plain.code

/-- **The annotations of a table's operators are made of annotations**, of operators without such an opening. -/
def ErasesAnnotations (t : Table) : Prop :=
  ∀ (operator : String) (form : Spelling), (t.entries .operator).get? operator = some form →
    ¬opening <:+: operator.toList → ¬sayingOpening <:+: operator.toList →
    ∃ text, form = .text text ∧ Annotations (annotationChars operator text)

/-- A table without the mark of sayings among its operators. -/
def MarkFree (t : Table) : Prop :=
  ∀ (operator : String) (form : Spelling), (t.entries .operator).get? operator = some form →
    '♂' ∉ operator.toList ∧ .char '♂' ∉ form.points

theorem forward_of_hasHost {host : Spelling} {c : Category} (h : t.hasHost host (some c) = true) :
    (t.entries c).get? host = some (t.forward host (some c)) := by
  change ((t.entries c).get? host).isSome = true at h
  obtain ⟨form, hform⟩ := Option.isSome_iff_exists.1 h
  rw [Table.forward, hform]
  rfl

theorem onlyDecorates_of_erases (ht : ErasesAnnotations t) : OnlyDecorates t := by
  intro o g source tree plain hq hwf hplain hopening hsaying
  obtain ⟨nodes, l, tail, hlaid⟩ := exists_laid hwf
  rw [bytesOf] at hplain ⊢
  obtain ⟨bytes, cs, hout, hdec, rfl⟩ := (convert_eq_ok_iff hlaid (o := strictly o false) hq g).1 hplain
  rw [String.toList_ofList] at hopening hsaying
  have hall : ∀ q ∈ l, IsAnnotated t o q.2 → q.2.text.toList <:+: cs →
      ∃ form, t.forward q.2.text (some .operator) = .text form ∧ Annotations (annotationChars q.2.text form) := by
    intro q _ hann hin
    exact ht q.2.text _ (forward_of_hasHost hann.2) (fun h => hopening (h.trans hin)) fun h => hsaying (h.trans hin)
  obtain ⟨bytes', ds, hout', hdec', hcommented⟩ := exists_commented tail hlaid.placed hall hout hdec
  refine ⟨_, (convert_eq_ok_iff hlaid (o := strictly o true) hq g).2 ⟨bytes', ds, hout', hdec', rfl⟩, ?_⟩
  rw [Comment.strip, String.toList_ofList, stripChars_of_commented (fun _ h => h) hcommented hopening hsaying]

/-! ## A source that is one operator -/

def operatorNode (operator : String) : Node :=
  .token .operator .other "+" operator 0 (encode operator.toList).length "operator"

def operatorTree (operator : String) : Tree :=
  .inner "binary_expression" 0 (encode operator.toList).length none
    [.token "+" false 0 (encode operator.toList).length "operator"]

theorem wellFormed_operatorTree (operator : String) : (operatorTree operator).WellFormed operator.toList := by
  have hstart : IsBoundary operator.toList 0 := ⟨[], operator.toList, rfl, rfl⟩
  have hstop : IsBoundary operator.toList (encode operator.toList).length :=
    ⟨operator.toList, [], (List.append_nil _).symm, rfl⟩
  exact ⟨hstart, hstop, Nat.le_refl _, ⟨hstart, hstop, Nat.zero_le _⟩, Nat.le_refl _⟩

theorem laid_operator (operator : String) : ∃ nodes,
    Laid operator.toList (operatorTree operator) nodes [([], operatorNode operator)] [] := by
  have hroot : Kind.of "binary_expression" true false none none = .other := by decide
  have hkind : Kind.of "+" false true (some "operator") (some "binary_expression") = .operator := by decide
  have htext := Node.textBetween_encode [] operator.toList []
  simp only [List.nil_append, List.append_nil, encode_nil, List.length_nil, String.ofList_toList] at htext
  let root : Node := .inner .other .other "binary_expression" 0 (encode operator.toList).length
  refine ⟨[root, operatorNode operator], ?_, rfl, by simp [Node.spread, operatorNode, Node.token], ?_⟩
  · simp only [operatorTree, Tree.inner, Tree.token, Node.ofTree_eq_preorder, Node.preorder, Node.preorderAmong,
      List.isEmpty_cons, List.isEmpty_nil, hroot, hkind, htext]
    rfl
  · exact ⟨rfl, (Nat.zero_add _).symm, trivial⟩

theorem output_operator {operator : String} {form : Spelling} (h : (t.entries .operator).get? operator = some form) :
    output t (strictly {} false) [([], operatorNode operator)] [] = .ok (encode operator.toList) ∧
    output t (strictly {} true) [([], operatorNode operator)] [] =
      (Comment.annotation operator form).bytes.map (encode operator.toList ++ ·) := by
  have hforward : t.forward operator (some .operator) = form := by
    rw [Table.forward, h]
    rfl
  have hann : IsAnnotated t {} (operatorNode operator) := by
    refine ⟨rfl, ?_⟩
    change ((t.entries .operator).get? operator).isSome = true
    rw [h]
    rfl
  have htext : (operatorNode operator).text = operator := rfl
  obtain ⟨hplain, hstrict⟩ := tokenParts_of_annotated hann (Nat.zero_add _).symm
  rw [htext] at hplain hstrict
  have htail : ∀ b, output t (strictly {} b) [] [] = .ok [] := fun _ => rfl
  constructor
  · rw [output_cons, hplain, target_copies, htail]
    simp [Except.bind, Except.map]
  · rw [output_cons, hstrict, target_append, target_copies, htail, hforward, target]
    cases (Comment.annotation operator form).bytes with
    | error e => rfl
    | ok bytes => simp [target, bind, Except.bind, pure, Except.pure, Except.map]

theorem erases_of_onlyDecorates (hmark : MarkFree t) (ht : OnlyDecorates t) : ErasesAnnotations t := by
  intro operator form hform hopening hsaying
  obtain ⟨nodes, hlaid⟩ := laid_operator operator
  obtain ⟨hplain, hstrict⟩ := output_operator hform
  have hlist : (String.ofList operator.toList).toList = operator.toList := String.toList_ofList
  have hplainRun := (convert_eq_ok_iff hlaid (o := strictly {} false) rfl (Twister.ofSeed 0)).2
    ⟨_, _, hplain, decode_encode operator.toList, rfl⟩
  obtain ⟨strict, hrun, hstrip⟩ := ht {} (Twister.ofSeed 0) operator (operatorTree operator) _ rfl
    (wellFormed_operatorTree operator) hplainRun (hlist.symm ▸ hopening) (hlist.symm ▸ hsaying)
  obtain ⟨bytes, ds, hout, hdec, rfl⟩ := (convert_eq_ok_iff hlaid (o := strictly {} true) rfl (Twister.ofSeed 0)).1 hrun
  rw [hstrict] at hout
  cases hbytes : (Comment.annotation operator form).bytes with
  | error e =>
    rw [hbytes] at hout
    cases hout
  | ok annotationBytes =>
    obtain ⟨text, rfl⟩ := form_of_annotation_bytes hbytes
    refine ⟨text, rfl, ?_⟩
    rw [annotation_text, bytes_text, String.toList_ofList] at hout
    obtain rfl := Except.ok.inj hout
    dsimp only at hdec
    rw [← encode_append] at hdec
    obtain rfl := Except.ok.inj ((decode_encode _).symm.trans hdec)
    have hchars : stripChars (operator.toList ++ annotationChars operator text) = operator.toList := by
      have h := congrArg String.toList hstrip
      rw [Comment.strip, String.toList_ofList, String.toList_ofList] at h
      exact h.trans hlist
    obtain ⟨hoperator, htext⟩ := hmark operator _ hform
    have htext' : '♂' ∉ text.toList := fun h => htext (List.mem_map.2 ⟨_, h, rfl⟩)
    refine annotations_of_stripChars (isOpened_annotationChars _ _) hopening ?_ hchars
    unfold annotationChars
    simp only [List.mem_append, not_or]
    exact ⟨hoperator, by decide, hoperator, by decide, htext', by decide⟩

/-- **When strict mode only decorates**: it does where the annotation of each operator is made of annotations, and only
there, unless the mark of sayings stands among the operators. -/
theorem onlyDecorates (t : Table) : (ErasesAnnotations t → OnlyDecorates t) ∧
    (MarkFree t → OnlyDecorates t → ErasesAnnotations t) :=
  ⟨onlyDecorates_of_erases, erases_of_onlyDecorates⟩

/-- **A form of two words loses code**: its annotation is no annotation by itself, so what is taken away goes on to the
end of the next one. -/
theorem two_words_lose_code :
    let t := Table.ofLists [(.operator, [("+", "plus one"), ("-", "minus")])]
    let record : Json.Value := .object [("categories", .object [("operator", .object
      [("+", .string "plus one"), ("-", .string "minus")])])]
    let tree : Tree := .inner "binary_expression" 0 9 none
      [.inner "binary_expression" 0 5 "left"
        [.token "identifier" true 0 1 "left", .token "+" false 2 3 "operator", .token "identifier" true 4 5 "right"],
        .token "-" false 6 7 "operator", .token "identifier" true 8 9 "right"]
    (Record.ofValue record).map Record.Contents.toTable = .ok t ∧ tree.WellFormed "a + b - c".toList ∧
    ∀ g, (convert t (strictly {} false) g (bytesOf "a + b - c") tree).1 = .ok { code := "a + b - c" } ∧
    (convert t (strictly {} true) g (bytesOf "a + b - c") tree).1 =
      .ok { code := "a + /* GACHI: + -> plus one */ b - /* GACHI: - -> minus */ c" } ∧
    strip "a + /* GACHI: + -> plus one */ b - /* GACHI: - -> minus */ c" = "a + c" := by
  intro t record tree
  have hnodes : Node.ofTree (bytesOf "a + b - c") tree = .ok [
      .inner .other .other "binary_expression" 0 9, .inner .other .other "binary_expression" 0 5 "left",
      .token .identifier .other "identifier" "a" 0 1 "left", .token .operator .other "+" "+" 2 3 "operator",
      .token .identifier .other "identifier" "b" 4 5 "right", .token .operator .other "-" "-" 6 7 "operator",
      .token .identifier .other "identifier" "c" 8 9 "right"] := by decide +kernel
  refine ⟨rfl, by decide, fun g => ⟨?_, ?_, ?_⟩⟩
  · unfold convert
    rw [hnodes]
    cbv
  · unfold convert
    rw [hnodes]
    cbv
  · cbv

end Forward
end Argot
