import Argot.Proofs.Conversion.Locality
import Argot.Proofs.Conversion.Textual
import Argot.Proofs.Session.Calls
/-!
# Reports — what the report on a round trip says

The check of a round trip has a report unless one of its two conversions has no outcome: with a parser whose trees fit
their texts, the token lists can always be read, as each text is parsed by the same grammar again.  A report is right
about both outcomes and about the lists, and where these differ it names the first place or the two lengths
(`report_sound`).  Conversions have outcomes where the words that they put in unchecked are texts, so with a table of
texts there always is a report.
-/
namespace Argot

/-- What is asked of a parser: its trees fit the texts that they are of, and strings stand between marks of one byte. -/
structure Parser.Faithful (parse : Parser Id) : Prop where
  wellFormed : ∀ (dialect : Dialect) (text : String), Tree.WellFormed text.toList (parse dialect text)
  quoted : ∀ (dialect : Dialect) (text : String) (nodes : List Node),
    Node.ofTree (Text.bytesOf text) (parse dialect text) = .ok nodes → ∀ n ∈ nodes, n.ByteQuoted

namespace RoundTrip

/-! ## The first difference -/

/-- What tells two token lists apart: a token after what both begin with, or the lengths where one begins the other. -/
inductive Differ (before after : List Token) : String → Prop where
  | token (same rest rest' : List Token) (a b : Token) (hbefore : before = same ++ a :: rest)
      (hafter : after = same ++ b :: rest') (hne : a ≠ b) :
      Differ before after ("token " ++ toString same.length ++ ": expected " ++ Text.quoted a.text ++ ", got "
        ++ Text.quoted b.text)
  | count (hbegins : before <+: after ∨ after <+: before) (hne : before.length ≠ after.length) :
      Differ before after ("token count differs: " ++ toString before.length ++ " vs " ++ toString after.length)

section
variable {α : Type} [DecidableEq α]

theorem firstDifference?_of_some : ∀ {l l' : List α} {i j : Nat} {a b : α}, firstDifference? i l l' = some (j, a, b) →
    ∃ same rest rest', l = same ++ a :: rest ∧ l' = same ++ b :: rest' ∧ a ≠ b ∧ j = i + same.length
  | [], _, _, _, _, _, h => by cases h
  | _ :: _, [], _, _, _, _, h => by cases h
  | x :: l, y :: l', i, j, a, b, h => by
    rw [firstDifference?] at h
    by_cases hxy : x = y
    · rw [if_pos hxy] at h
      obtain ⟨same, rest, rest', rfl, rfl, hne, rfl⟩ := firstDifference?_of_some h
      refine ⟨x :: same, rest, rest', rfl, by rw [hxy]; rfl, hne, ?_⟩
      rw [List.length_cons]
      omega
    · rw [if_neg hxy] at h
      obtain ⟨rfl, rfl, rfl⟩ : i = j ∧ x = a ∧ y = b := by simpa using h
      exact ⟨[], l, l', rfl, rfl, hxy, rfl⟩

theorem prefix_of_firstDifference?_eq_none : ∀ {l l' : List α} {i : Nat}, firstDifference? i l l' = none →
    l <+: l' ∨ l' <+: l
  | [], _, _, _ => .inl List.nil_prefix
  | _ :: _, [], _, _ => .inr List.nil_prefix
  | x :: l, y :: l', i, h => by
    rw [firstDifference?] at h
    by_cases hxy : x = y
    · rw [if_pos hxy] at h
      subst hxy
      exact (prefix_of_firstDifference?_eq_none h).imp (List.prefix_cons_inj x).2 (List.prefix_cons_inj x).2
    · rw [if_neg hxy] at h
      cases h

end

variable {before after : List Token}

theorem differ_of_mismatch? {text : String} (h : mismatch? before after = some text) : Differ before after text := by
  unfold mismatch? at h
  cases hfirst : firstDifference? 0 before after with
  | some d =>
    obtain ⟨j, a, b⟩ := d
    obtain ⟨same, rest, rest', hbefore, hafter, hne, rfl⟩ := firstDifference?_of_some hfirst
    rw [hfirst, Nat.zero_add] at h
    exact Option.some.inj h ▸ .token same rest rest' a b hbefore hafter hne
  | none =>
    rw [hfirst] at h
    dsimp only at h
    split at h
    · cases h
    · rename_i hne
      exact Option.some.inj h ▸ .count (prefix_of_firstDifference?_eq_none hfirst) hne

/-- **Nothing tells two lists apart just if they are the same.** -/
theorem mismatch?_eq_none_iff : mismatch? before after = none ↔ before = after := by
  constructor
  · intro h
    unfold mismatch? at h
    cases hfirst : firstDifference? 0 before after with
    | some d =>
      rw [hfirst] at h
      cases h
    | none =>
      rw [hfirst] at h
      dsimp only at h
      split at h
      · rename_i hlength
        rcases prefix_of_firstDifference?_eq_none hfirst with hbegins | hbegins
        · exact hbegins.eq_of_length hlength
        · exact (hbegins.eq_of_length hlength.symm).symm
      · cases h
  · rintro rfl
    exact mismatch?_self before

end RoundTrip

/-! ## Calls that do not get to the end -/

namespace Session

variable {r : Session} {parse : Parser Id} {o : Options} {source : String} {f : SyntaxFault} {outcome : Outcome}

theorem forward_of_fault (hfault : Tree.fault? (parse (Sniff.dialect source o) source) = some f) :
    r.forward parse source (some o) = (.ok (parseFailure "Transpilation" f), r.ensure (r.keyOf o)) := by
  unfold forward
  simp only [Option.getD_some, bind, pure]
  rw [hfault]

theorem forward_of_no_generator {e : ConversionError}
    (hfault : Tree.fault? (parse (Sniff.dialect source o) source) = none) (hg : r.generatorFor o = .error e) :
    r.forward parse source (some o) = (.error e, r.ensure (r.keyOf o)) := by
  unfold forward
  simp only [Option.getD_some, bind, pure]
  rw [hfault]
  dsimp only
  rw [generatorFor_ensure, hg]

/-- A source that was converted without an error has been parsed. -/
theorem fault?_of_forward (h : (r.forward parse source (some o)).1 = .ok outcome) (hno : outcome.hasErrors = false) :
    Tree.fault? (parse (Sniff.dialect source o) source) = none := by
  cases hfault : Tree.fault? (parse (Sniff.dialect source o) source) with
  | none => rfl
  | some f =>
    rw [forward_of_fault hfault] at h
    obtain rfl := Except.ok.inj h
    cases hno

/-- A call leaves the table of its key. -/
theorem table_keepGenerator (g : Twister) : ((r.ensure (r.keyOf o)).keepGenerator g).table
    (((r.ensure (r.keyOf o)).keepGenerator g).keyOf o) = r.table (r.keyOf o) := by
  change (r.ensure (r.keyOf o)).table ((r.ensure (r.keyOf o)).keyOf o) = _
  rw [keyOf_ensure, table_ensure]

/-- The way back has an outcome just if the host text is a text. -/
theorem exists_reverse_iff : (∃ outcome, (r.reverse parse source (some o)).1 = .ok outcome) ↔
    (Reverse.convert (r.table (r.keyOf o)) source).IsText := by
  unfold reverse
  simp only [Option.getD_some, bind, pure]
  cases Reverse.convert (r.table (r.keyOf o)) source with
  | broken points hhalf => simp [Spelling.encodable, Spelling.IsText]
  | text code =>
    refine iff_of_true ?_ (Spelling.isText_text code)
    dsimp only [Spelling.encodable]
    cases Tree.fault? (parse (Sniff.dialect code o) code) <;> exact ⟨_, rfl⟩

/-- A text that was converted back without an error has been parsed. -/
theorem fault?_of_reverse (h : (r.reverse parse source (some o)).1 = .ok outcome) (hno : outcome.hasErrors = false) :
    Tree.fault? (parse (Sniff.dialect outcome.code o) outcome.code) = none := by
  unfold reverse at h
  simp only [Option.getD_some, bind, pure] at h
  cases hencodable : (Reverse.convert (r.table (r.keyOf o)) source).encodable with
  | error e =>
    rw [hencodable] at h
    cases h
  | ok code =>
    rw [hencodable] at h
    dsimp only at h
    cases hfault : Tree.fault? (parse (Sniff.dialect code o) code) with
    | some f =>
      rw [hfault] at h
      obtain rfl := Except.ok.inj h
      cases hno
    | none =>
      rw [hfault] at h
      obtain rfl := Except.ok.inj h
      exact hfault

end Session

/-! ## Reports -/

namespace RoundTrip

variable {parse : Parser Id} {r r' : Session} {source : String} {options : Option Options} {o : Options}
  {there back : Outcome}

theorem check_of_forward_error {e : ConversionError} (ho : options.getD r.options = o)
    (hforward : r.forward parse source (some o) = (.error e, r')) :
    (check parse r source options).1 = .error (.conversion e) := by
  unfold check
  simp only [ho, bind, pure, hforward]

theorem check_of_failed_forward (ho : options.getD r.options = o)
    (hforward : r.forward parse source (some o) = (.ok there, r')) (hthere : there.hasErrors = true) :
    (check parse r source options).1 =
      .ok { equivalent := false, forward := there, mismatch := some "forward transformation failed" } := by
  unfold check
  simp only [ho, bind, pure, hforward, hthere, if_true]

theorem check_of_reverse_error {e : ConversionError} (ho : options.getD r.options = o)
    (hforward : r.forward parse source (some o) = (.ok there, r')) (hthere : there.hasErrors = false)
    (hreverse : (r'.reverse parse there.code (some o)).1 = .error e) :
    (check parse r source options).1 = .error (.conversion e) := by
  obtain ⟨outcome, r'', hrun⟩ : ∃ outcome r'', r'.reverse parse there.code (some o) = (outcome, r'') := ⟨_, _, rfl⟩
  rw [hrun] at hreverse
  obtain rfl : outcome = .error e := hreverse
  unfold check
  simp only [ho, bind, pure, hforward, hthere, hrun, Bool.false_eq_true, if_false]

theorem check_of_failed_reverse (ho : options.getD r.options = o)
    (hforward : r.forward parse source (some o) = (.ok there, r')) (hthere : there.hasErrors = false)
    (hreverse : (r'.reverse parse there.code (some o)).1 = .ok back) (hback : back.hasErrors = true) :
    (check parse r source options).1 = .ok { equivalent := false, forward := there, reverse := some back,
                                             mismatch := some "reverse transformation failed" } := by
  obtain ⟨outcome, r'', hrun⟩ : ∃ outcome r'', r'.reverse parse there.code (some o) = (outcome, r'') := ⟨_, _, rfl⟩
  rw [hrun] at hreverse
  obtain rfl : outcome = .ok back := hreverse
  unfold check
  simp only [ho, bind, pure, hforward, hthere, hrun, hback, Bool.false_eq_true, if_false, if_true]

/-- The token list of a text, as its grammar parses it. -/
def wordsOf (parse : Parser Id) (o : Options) (text : String) : Except Text.Utf8Error (List Token) :=
  Token.ofTree (Text.bytesOf text) (parse (Sniff.dialect text o) text)

/-- **A report that is right**: its outcomes are those of the two calls, the second made only if the first has no error.
It calls the round trip equivalent just if both outcomes are without errors and the token lists of the source and of what
came back are the same; where the lists are not, it says what tells them apart. -/
structure Report.IsRight (parse : Parser Id) (r : Session) (source : String) (o : Options) (report : Report) : Prop where
  forward : (r.forward parse source (some o)).1 = .ok report.forward
  reverse : if report.forward.hasErrors = true then report.reverse = none else ∃ back, report.reverse = some back ∧
    ((r.forward parse source (some o)).2.reverse parse report.forward.code (some o)).1 = .ok back
  equivalent : report.equivalent = true ↔ report.forward.hasErrors = false ∧ ∃ back, report.reverse = some back ∧
    back.hasErrors = false ∧ ∃ l, wordsOf parse o source = .ok l ∧ wordsOf parse o back.code = .ok l
  mismatch : ∀ back, report.reverse = some back → back.hasErrors = false → ∃ before after,
    wordsOf parse o source = .ok before ∧ wordsOf parse o back.code = .ok after ∧
      (before ≠ after → ∃ text, report.mismatch = some text ∧ Differ before after text)

/-- Two outcomes without errors make a report. -/
theorem isRight_of_outcomes (hparse : parse.Faithful) (ho : options.getD r.options = o)
    (hforward : r.forward parse source (some o) = (.ok there, r')) (hthere : there.hasErrors = false)
    (hreverse : (r'.reverse parse there.code (some o)).1 = .ok back) (hback : back.hasErrors = false) :
    ∃ report, (check parse r source options).1 = .ok report ∧ report.IsRight parse r source o := by
  have hwords : ∀ text, ∃ l, wordsOf parse o text = .ok l := fun text => Token.exists_ofTree (hparse.wellFormed _ text)
  obtain ⟨before, hbefore⟩ := hwords source
  obtain ⟨after, hafter⟩ := hwords back.code
  have hfault := Session.fault?_of_forward (congrArg Prod.fst hforward) hthere
  have hcheck := check_eq ho hforward hthere hreverse hback (tokens_eq rfl hfault hbefore)
    (tokens_eq rfl (Session.fault?_of_reverse hreverse hback) hafter)
  refine ⟨_, hcheck, congrArg Prod.fst hforward, ?_, ?_, ?_⟩
  · rw [report, hthere, if_neg Bool.false_ne_true, hforward]
    exact ⟨back, rfl, hreverse⟩
  · change (mismatch? before after).isNone = true ↔ _
    rw [Option.isNone_iff_eq_none, mismatch?_eq_none_iff]
    constructor
    · rintro rfl
      exact ⟨hthere, back, rfl, hback, before, hbefore, hafter⟩
    · rintro ⟨-, back', hsame, -, l, hl, hl'⟩
      obtain rfl := Option.some.inj hsame
      exact (Except.ok.inj (hbefore.symm.trans hl)).trans (Except.ok.inj (hafter.symm.trans hl')).symm
  · intro back' hsame _
    obtain rfl := Option.some.inj hsame
    refine ⟨before, after, hbefore, hafter, fun hne => ?_⟩
    obtain ⟨text, htext⟩ := Option.ne_none_iff_exists'.1 (mt mismatch?_eq_none_iff.1 hne)
    exact ⟨text, htext, differ_of_mismatch? htext⟩

/-- **There is a right report where both calls have outcomes**, or the first has an error. -/
theorem isRight_of_calls (hparse : parse.Faithful) (ho : options.getD r.options = o)
    (hforward : r.forward parse source (some o) = (.ok there, r'))
    (hreverse : there.hasErrors = false → ∃ back, (r'.reverse parse there.code (some o)).1 = .ok back) :
    ∃ report, (check parse r source options).1 = .ok report ∧ report.IsRight parse r source o := by
  cases hthere : there.hasErrors with
  | true =>
    refine ⟨_, check_of_failed_forward ho hforward hthere, congrArg Prod.fst hforward, ?_, iff_of_false Bool.false_ne_true ?_,
      fun back hback => ?_⟩
    · rw [hthere]
      rfl
    · rintro ⟨hno, -⟩
      rw [hthere] at hno
      cases hno
    · cases hback
  | false =>
    obtain ⟨back, hreverse⟩ := hreverse hthere
    cases hback : back.hasErrors with
    | false => exact isRight_of_outcomes hparse ho hforward hthere hreverse hback
    | true =>
      refine ⟨_, check_of_failed_reverse ho hforward hthere hreverse hback, congrArg Prod.fst hforward, ?_,
        iff_of_false Bool.false_ne_true ?_, ?_⟩
      · rw [hthere, if_neg Bool.false_ne_true, hforward]
        exact ⟨back, rfl, hreverse⟩
      · rintro ⟨-, back', hsame, hno, -⟩
        obtain rfl := Option.some.inj hsame
        rw [hback] at hno
        cases hno
      · intro back' hsame hno
        obtain rfl := Option.some.inj hsame
        rw [hback] at hno
        cases hno

/-- **There is a report just if the calls have outcomes, and it is right.** -/
theorem exists_report_iff (hparse : parse.Faithful) (source : String) (ho : options.getD r.options = o) :
    ((∃ report, (check parse r source options).1 = .ok report) ↔ ∃ there r',
      r.forward parse source (some o) = (.ok there, r') ∧
        (there.hasErrors = false → ∃ back, (r'.reverse parse there.code (some o)).1 = .ok back)) ∧
      ∀ report, (check parse r source options).1 = .ok report → report.IsRight parse r source o := by
  have hcalls : ∀ {report}, (check parse r source options).1 = .ok report → ∃ there r',
      r.forward parse source (some o) = (.ok there, r') ∧
        (there.hasErrors = false → ∃ back, (r'.reverse parse there.code (some o)).1 = .ok back) := by
    intro report hreport
    obtain ⟨outcome, r', hforward⟩ : ∃ outcome r', r.forward parse source (some o) = (outcome, r') := ⟨_, _, rfl⟩
    cases outcome with
    | error e =>
      rw [check_of_forward_error ho hforward] at hreport
      cases hreport
    | ok there =>
      refine ⟨there, r', hforward, fun hthere => ?_⟩
      cases hreverse : (r'.reverse parse there.code (some o)).1 with
      | ok back => exact ⟨back, rfl⟩
      | error e =>
        rw [check_of_reverse_error ho hforward hthere hreverse] at hreport
        cases hreport
  refine ⟨⟨fun ⟨report, hreport⟩ => hcalls hreport, fun ⟨there, r', hforward, hreverse⟩ => ?_⟩, fun report hreport => ?_⟩
  · obtain ⟨report, hreport, -⟩ := isRight_of_calls hparse ho hforward hreverse
    exact ⟨report, hreport⟩
  · obtain ⟨there, r', hforward, hreverse⟩ := hcalls hreport
    obtain ⟨report', hreport', hright⟩ := isRight_of_calls hparse ho hforward hreverse
    exact Except.ok.inj (hreport'.symm.trans hreport) ▸ hright

/-- The words that conversion puts in unchecked are texts, on the way there and on the way back. -/
structure IsWritable (t : Table) (o : Options) (g : Twister) (source : String) (tree : Tree) : Prop where
  there : ∀ nodes, Node.ofTree (Text.bytesOf source) tree = .ok nodes →
    ∀ n ∈ Forward.tokens nodes, Forward.Writable t o n
  back : ∀ out, (Forward.convert t o g (Text.bytesOf source) tree).1 = .ok out → (Reverse.convert t out.code).IsText

section
variable {t : Table} {g : Twister} {tree : Tree}

/-- Words can be written just if both conversions, one after the other, come to a text. -/
theorem isWritable_iff (hwf : tree.WellFormed source.toList)
    (hquoted : ∀ nodes, Node.ofTree (Text.bytesOf source) tree = .ok nodes → ∀ n ∈ nodes, n.ByteQuoted) :
    IsWritable t o g source tree ↔ ∃ out, (Forward.convert t o g (Text.bytesOf source) tree).1 = .ok out ∧
      (Reverse.convert t out.code).IsText := by
  obtain ⟨nodes, l, tail, hwalked⟩ := Forward.exists_walked hwf
  have hwritten : (∃ out, (Forward.convert t o g (Text.bytesOf source) tree).1 = .ok out) ↔
      ∀ n ∈ Forward.tokens nodes, Forward.Writable t o n :=
    hwalked.exists_convert_iff (hquoted nodes hwalked.nodes_eq) g
  constructor
  · intro h
    obtain ⟨out, hout⟩ := hwritten.2 (h.there nodes hwalked.nodes_eq)
    exact ⟨out, hout, h.back out hout⟩
  · rintro ⟨out, hout, htext⟩
    refine ⟨fun nodes' hnodes' => ?_, fun out' hout' => Except.ok.inj (hout.symm.trans hout') ▸ htext⟩
    obtain rfl := Except.ok.inj (hwalked.nodes_eq.symm.trans hnodes')
    exact hwritten.1 ⟨out, hout⟩

/-- **The calls have outcomes** if the source does not parse, or if there is a generator and all words can be written. -/
theorem calls_iff (hparse : parse.Faithful) (htree : parse (Sniff.dialect source o) source = tree) :
    (∃ there r', r.forward parse source (some o) = (.ok there, r') ∧
      (there.hasErrors = false → ∃ back, (r'.reverse parse there.code (some o)).1 = .ok back)) ↔
    tree.fault?.isSome = true ∨
      ∃ g, r.generatorFor o = .ok g ∧ IsWritable (r.table (r.keyOf o)) o g source tree := by
  subst htree
  have hwf := hparse.wellFormed (Sniff.dialect source o) source
  cases hfault : Tree.fault? (parse (Sniff.dialect source o) source) with
  | some f =>
    refine iff_of_true ⟨_, _, Session.forward_of_fault hfault, fun hno => ?_⟩ (.inl rfl)
    cases hno
  | none =>
    obtain ⟨nodes, l, tail, hwalked⟩ := Forward.exists_walked hwf
    have hoptions : (some o).getD r.options = o := rfl
    simp only [isWritable_iff hwf (hparse.quoted _ _), Option.isSome_none, Bool.false_eq_true, false_or]
    constructor
    · rintro ⟨there, r', hforward, hreverse⟩
      cases hg : r.generatorFor o with
      | error e =>
        rw [Session.forward_of_no_generator hfault hg] at hforward
        cases hforward
      | ok g =>
        rw [Session.forward_eq hoptions rfl hfault hg] at hforward
        obtain ⟨houtcome, rfl⟩ := Prod.mk.inj hforward
        cases hconvert : (Forward.convert (r.table (r.keyOf o)) o g (Text.bytesOf source)
            (parse (Sniff.dialect source o) source)).1 with
        | error e =>
          rw [hconvert] at houtcome
          cases houtcome
        | ok out =>
          rw [hconvert] at houtcome
          obtain rfl : out = there := Except.ok.inj houtcome
          have htext := Session.exists_reverse_iff.1 (hreverse (hwalked.hasErrors_of_convert hconvert))
          rw [Session.table_keepGenerator] at htext
          exact ⟨g, rfl, out, hconvert, htext⟩
    · rintro ⟨g, hg, out, hout, htext⟩
      refine ⟨out, _, (Session.forward_eq hoptions rfl hfault hg).trans
        (Prod.ext (congrArg (Except.mapError ConversionError.edit) hout) rfl), fun _ => Session.exists_reverse_iff.2 ?_⟩
      rwa [Session.table_keepGenerator]

end

/-- **The report on a round trip is sound.**  With a parser whose trees fit their texts there is a report, and not an
exception, just if the source does not parse or there is a generator and every word that is put in unchecked is a text;
a table of texts is enough.  Every report there is is right. -/
theorem report_sound (hparse : parse.Faithful) (r : Session) (source : String) (options : Option Options) :
    let o := options.getD r.options
    let t := r.table (r.keyOf o)
    let tree : Tree := parse (Sniff.dialect source o) source
    ((∃ report, (check parse r source options).1 = .ok report) ↔ tree.fault?.isSome = true ∨
      ∃ g, r.generatorFor o = .ok g ∧ IsWritable t o g source tree) ∧
    (o.seed ≠ some .missing → t.Reachable → t.IsTextual → ∃ report, (check parse r source options).1 = .ok report) ∧
    ∀ report, (check parse r source options).1 = .ok report → report.IsRight parse r source o := by
  intro o t tree
  obtain ⟨hreport, hright⟩ := exists_report_iff hparse source (rfl : options.getD r.options = o)
  have hiff := hreport.trans (calls_iff hparse (rfl : parse (Sniff.dialect source o) source = tree))
  refine ⟨hiff, fun hseed hreachable htextual => hiff.2 (.inr ?_), hright⟩
  obtain ⟨g, hg⟩ := r.exists_generatorFor hseed
  exact ⟨g, hg, fun _ _ n _ => htextual.writable o n, fun out _ => htextual.isText_convert hreachable.settled out.code⟩

/-! ## A sum of two names -/

/-- The tree of `a+b`. -/
def sumTree : Tree :=
  .inner "program" 0 3 none [.inner "expression_statement" 0 3 none [.inner "binary_expression" 0 3 none
    [.token "identifier" true 0 1 "left", .token "+" false 1 2 "operator", .token "identifier" true 2 3 "right"]]]

/-- A parser that knows the sum, and takes any other text for one token. -/
def sumParser : Parser Id := fun _ text =>
  if text = "a+b" then sumTree
  else Tree.token "program" true 0 (Text.bytesOf text).length

def sumNodes : List Node :=
  [.inner .other .other "program" 0 3, .inner .other .other "expression_statement" 0 3,
    .inner .other .other "binary_expression" 0 3, .token .identifier .other "identifier" "a" 0 1 "left",
    .token .operator .other "+" "+" 1 2 "operator", .token .identifier .other "identifier" "b" 2 3 "right"]

theorem ofTree_sumTree : Node.ofTree (Text.bytesOf "a+b") sumTree = .ok sumNodes := by decide +kernel

theorem faithful_sumParser : sumParser.Faithful where
  wellFormed _ text := by
    unfold sumParser
    split
    · rename_i h
      rw [h]
      decide
    · exact ⟨⟨[], text.toList, rfl, rfl⟩, ⟨text.toList, [], (List.append_nil _).symm, rfl⟩, Nat.zero_le _⟩
  quoted _ text nodes hnodes n hn hstring := by
    unfold sumParser at hnodes
    split at hnodes
    · rename_i h
      rw [h] at hnodes
      obtain rfl := Except.ok.inj (ofTree_sumTree.symm.trans hnodes)
      have hkinds : ∀ n ∈ sumNodes, n.kind ≠ .stringLiteral := by decide
      exact (hkinds n hn hstring).elim
    · have hkind : Kind.of "program" true true none none = .other := by decide
      simp only [Tree.token, Node.ofTree_eq_preorder, Node.preorder, List.isEmpty_nil, hkind, Bool.true_or, if_true] at hnodes
      obtain ⟨whole, -, htoken⟩ := Node.bind_eq_ok_iff.1 hnodes
      obtain rfl := Except.ok.inj htoken
      rw [List.mem_singleton.1 hn] at hstring
      cases hstring

/-- A sum comes back with a table of texts, and the report on it is right. -/
theorem report_sound_sum :
    let r : Session := { custom := some (.ofLists [(.operator, [("+", "plus")])]) }
    let report : Report := { equivalent := true, forward := { code := "a+b" }, reverse := some { code := "a+b" } }
    sumParser.Faithful ∧ (check sumParser r "a+b").1 = .ok report ∧ report.IsRight sumParser r "a+b" {} := by
  intro r report
  have htextual : (r.table (r.keyOf {})).IsTextual := by
    intro c p hp
    have hentries : ((r.table (r.keyOf {})).entries c).toList =
        if c = .operator then [(.text "+", .text "plus")] else [] := by
      cases c <;> rfl
    rw [hentries] at hp
    split at hp
    · obtain rfl := List.mem_singleton.1 hp
      exact ⟨Spelling.isText_text _, Spelling.isText_text _⟩
    · cases hp
  obtain ⟨-, hexists, hright⟩ := report_sound faithful_sumParser r "a+b" none
  obtain ⟨report', hreport'⟩ := hexists (by decide) (Table.reachable_ofLists _ _) htextual
  have hreport : (check sumParser r "a+b").1 = .ok report := by decide +kernel
  obtain rfl := Except.ok.inj (hreport'.symm.trans hreport)
  exact ⟨faithful_sumParser, hreport, hright _ hreport⟩

/-- **Half a character in the form of an operator leaves a round trip without a report**, though the table can be read
from JSON and the parser is as it should be: the annotation cannot be written. -/
theorem sum_without_report :
    let half : Spelling := .broken [.half 0] rfl
    let t := Table.ofLists [(.operator, [("+", half)])]
    let record : Json.Value := .object [("categories", .object [("operator", .object [("+", .string half)])])]
    (Record.ofValue record).map Record.Contents.toTable = .ok t ∧ sumParser.Faithful ∧
      (check sumParser { custom := some t } "a+b" (some { strictMode := true })).1 =
        .error (.conversion (.edit (.unencodable ⟨16, [.half 0]⟩))) :=
  ⟨rfl, faithful_sumParser, by decide +kernel⟩

end RoundTrip
end Argot
