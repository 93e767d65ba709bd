import Argot.Proofs.Conversion.Locality
import Argot.Proofs.Vocabulary.Agreement
/-!
# Admission — forms that are put in

A form that is offered for a token (`Offers`) takes its place or is refused with a warning.  Of a name it is asked
whether it reads as one, and a line feed at its end goes unnoticed; of the text between the quotes of a string nothing is
asked (`offered_forms_put_in`).  So each token gives way to a well-formed one only, just where no form that is offered is
a name with a line feed and none would end the string it is put in (`admitsWellFormed_iff`).
-/
namespace Argot

open Text

/-- **One name**: at most one at sign, a character that begins a name, and name characters. -/
def Text.OneName (cs : List Char) : Prop :=
  ∃ sign c rest, cs = sign ++ c :: rest ∧ (sign = [] ∨ sign = ['@']) ∧ isNameStart c = true ∧
    ∀ d ∈ rest, isNameChar d = true

/-- Characters that end a line. -/
def Text.endsLine (c : Char) : Bool :=
  c == '\n' || c == '\r' || c == '\u2028' || c == '\u2029'

namespace Spelling

variable {form : Spelling}

def IsName (form : Spelling) : Prop :=
  ∃ cs, form = .text (String.ofList cs) ∧ OneName cs

/-- A name with a line feed behind it. -/
def IsBrokenName (form : Spelling) : Prop :=
  ∃ cs, form = .text (String.ofList (cs ++ ['\n'])) ∧ OneName cs

/-- **A spelling that can stand in a string**, between quotes like the one that the string begins with. -/
def FitsQuotes (string : String) (form : Spelling) : Prop :=
  ∀ c, .char c ∈ form.points → string.toList.head? ≠ some c ∧ c ≠ '\\' ∧ endsLine c = false

theorem getLast?_trimRight (cs : List Char) : ∀ c ∈ (trimRight cs).getLast?, isBlank c = false := by
  intro c hc
  unfold trimRight at hc
  rw [List.getLast?_reverse] at hc
  have := List.head?_dropWhile_not isBlank cs.reverse
  rw [Option.mem_def.1 hc] at this
  exact this

/-- A trimmed spelling does not end in a line feed. -/
theorem getLast?_of_isTrimmed (h : form.isTrimmed = true) : form.points.getLast? ≠ some (.char '\n') := by
  have hblank : isBlank '\n' = true := by decide
  cases form with
  | text s =>
    intro hlast
    have hlast : s.toList.getLast? = some '\n' := by
      rw [points, CodePoint.ofChars, List.getLast?_map] at hlast
      obtain ⟨c, hc, heq⟩ := Option.map_eq_some_iff.1 hlast
      rw [hc, CodePoint.char.inj heq]
    have htrim : trimRight (s.toList.dropWhile isBlank) = s.toList := by
      have := congrArg String.toList (beq_iff_eq.1 h)
      rwa [trim, String.toList_ofList] at this
    have := getLast?_trimRight (s.toList.dropWhile isBlank) '\n' (by rw [htrim]; exact hlast)
    rw [hblank] at this
    cases this
  | broken ps hps =>
    intro hlast
    have hlast : ps.getLast? = some (.char '\n') := hlast
    have h : (!(ps.head?.any (·.any isBlank) || ps.getLast?.any (·.any isBlank))) = true := h
    rw [hlast, Option.any_some, CodePoint.any, CodePoint.char?, Option.any_some, hblank, Bool.or_true] at h
    cases h

end Spelling

namespace Text

theorem OneName.getLast?_ne {cs : List Char} (h : OneName cs) : cs.getLast? ≠ some '\n' := by
  obtain ⟨sign, c, rest, rfl, -, hstart, hrest⟩ := h
  rw [List.getLast?_append_of_ne_nil _ (List.cons_ne_nil c rest)]
  intro hlast
  rcases List.mem_cons.1 (List.mem_of_getLast? hlast) with rfl | hmem
  · exact absurd hstart (by decide)
  · exact absurd (hrest _ hmem) (by decide)

/-- How a name is read: an at sign is passed over, and the rest has to be one. -/
theorem oneName_iff {cs : List Char} : (match (if cs.head? == some '@' then cs.drop 1 else cs) with
    | c :: rest => isNameStart c && rest.all isNameChar
    | [] => false) = true ↔ OneName cs := by
  have hsign : isNameStart '@' = false := by decide
  constructor
  · intro h
    split at h
    · rename_i c rest hcs
      rw [Bool.and_eq_true, List.all_eq_true] at h
      split at hcs
      · rename_i hhead
        obtain ⟨tail, rfl⟩ : ∃ tail, cs = '@' :: tail := by
          cases cs with
          | nil => cases hhead
          | cons x tail => exact ⟨tail, by simpa using hhead⟩
        exact ⟨['@'], c, rest, congrArg ('@' :: ·) hcs, .inr rfl, h⟩
      · exact ⟨[], c, rest, hcs, .inl rfl, h⟩
    · cases h
  · rintro ⟨sign, c, rest, rfl, rfl | rfl, hstart, hrest⟩
    · have hhead : ((c :: rest).head? == some '@') = false := by
        rw [List.head?_cons, beq_eq_false_iff_ne]
        rintro ⟨rfl⟩
        rw [hsign] at hstart
        cases hstart
      rw [List.nil_append, hhead]
      simpa [hstart] using hrest
    · simpa [hstart] using hrest

end Text

theorem Spelling.IsBrokenName.getLast? {form : Spelling} (h : form.IsBrokenName) :
    form.points.getLast? = some (.char '\n') := by
  obtain ⟨cs, rfl, -⟩ := h
  rw [Spelling.points, String.toList_ofList, CodePoint.ofChars, List.getLast?_map, List.getLast?_concat]
  rfl

theorem Spelling.IsBrokenName.not_isName {form : Spelling} (h : form.IsBrokenName) : ¬form.IsName := by
  rintro ⟨cs, rfl, hone⟩
  have hlast := h.getLast?
  rw [Spelling.points, String.toList_ofList, CodePoint.ofChars, List.getLast?_map] at hlast
  obtain ⟨c, hc, heq⟩ := Option.map_eq_some_iff.1 hlast
  exact hone.getLast?_ne (CodePoint.char.inj heq ▸ hc)

namespace Forward

variable {t : Table} {o : Options} {n : Node} {form : Spelling} {e : Edit} {nodes : List Node}

/-- **A form reads as a name just if it is one, or one with a line feed behind it.** -/
theorem isNameForm_iff : isNameForm form = true ↔ form.IsName ∨ form.IsBrokenName := by
  cases form with
  | broken ps h =>
    refine iff_of_false Bool.false_ne_true ?_
    rintro (⟨cs, h, -⟩ | ⟨cs, h, -⟩) <;> cases h
  | text s =>
    have htext : ∀ cs, Spelling.text s = .text (String.ofList cs) ↔ cs = s.toList := by
      intro cs
      rw [Spelling.text.injEq, ← String.toList_inj, String.toList_ofList, eq_comm]
    have hread : isNameForm (.text s) = true ↔ OneName (Kind.withoutFinalNewline s.toList) := oneName_iff
    have hname : (Spelling.text s).IsName ↔ OneName s.toList := by simp [Spelling.IsName, htext]
    have hbroken : (Spelling.text s).IsBrokenName ↔ ∃ cs, cs ++ ['\n'] = s.toList ∧ OneName cs := by
      simp only [Spelling.IsBrokenName, htext]
    rw [hread, hname, hbroken]
    unfold Kind.withoutFinalNewline
    split
    · -- the line feed is left out
      rename_i hlast
      have hlast : s.toList.getLast? = some '\n' := by simpa using hlast
      have hsplit : s.toList.dropLast ++ ['\n'] = s.toList := List.dropLast_append_getLast? _ hlast
      constructor
      · exact fun h => .inr ⟨_, hsplit, h⟩
      · rintro (h | ⟨cs, hcs, h⟩)
        · exact (h.getLast?_ne hlast).elim
        · rwa [← hcs, List.dropLast_concat]
    · rename_i hlast
      refine ⟨.inl, ?_⟩
      rintro (h | ⟨cs, hcs, -⟩)
      · exact h
      · rw [← hcs, List.getLast?_concat] at hlast
        exact (hlast BEq.rfl).elim

/-! ## What is offered for a token -/

/-- **A form that is offered for a token**: it differs from the token's text or, for a string, from the text between the
quotes. -/
inductive Offers (t : Table) (o : Options) (n : Node) : Spelling → Prop
  | name (decided : (decide o n).action = .substitute) (kind : n.kind ≠ .stringLiteral)
      (changes : formOf t o n (decide o n).category ≠ n.text) : Offers t o n (formOf t o n (decide o n).category)
  | string (decided : (decide o n).action = .substitute) (kind : n.kind = .stringLiteral) (quoted : 2 ≤ n.text.length)
      (changes : t.forward (inner n.text) (decide o n).category ≠ inner n.text) :
      Offers t o n (t.forward (inner n.text) (decide o n).category)

/-- The edit that puts a form in the place of a token, or between the quotes of a string. -/
def putIn (n : Node) (form : Spelling) : Edit :=
  if n.kind = .stringLiteral then ⟨n.start + 1, n.stop - 1, form⟩ else ⟨n.start, n.stop, form⟩

/-- **A form that may stand where it is put.** -/
def Fits (n : Node) (form : Spelling) : Prop :=
  (n.kind = .stringLiteral → form.FitsQuotes n.text) ∧ (n.kind ≠ .stringLiteral → form.IsName)

/-- **A token gives way to a well-formed one only**: a form that fits is put in, and any other one leaves the token as it
is and brings a warning. -/
def AdmitsWellFormed (t : Table) (o : Options) (n : Node) : Prop :=
  ∀ form, Offers t o n form → (Fits n form → visitLeaf t o n = ([putIn n form], [])) ∧
    (¬Fits n form → ∃ d, visitLeaf t o n = ([], [d]) ∧ d.severity = .warning)

theorem treat_of_offers (h : Offers t o n form) : treat t o n =
    if n.kind = .stringLiteral ∨ isNameForm form = true then .change (putIn n form) else .refuse n.text form := by
  unfold treat
  cases h with
  | name decided kind changes =>
    have hform : (formOf t o n (decide o n).category == (n.text : Spelling)) = false := by simpa using changes
    simp only [decided, kind, false_or, putIn, if_false, beq_iff_eq]
    rw [treatName, hform]
    rfl
  | string decided kind quoted changes =>
    have hform : (t.forward (inner n.text) (decide o n).category == (inner n.text : Spelling)) = false := by
      simpa using changes
    simp only [decided, kind, true_or, putIn, if_true, beq_self_eq_true]
    rw [treatString, if_neg (by omega)]
    dsimp only
    rw [hform]
    rfl

theorem kind_ne_comment_of_offers (h : Offers t o n form) : n.kind ≠ .comment := by
  cases h with
  | name decided => exact kind_ne_comment decided (by decide)
  | string decided => exact kind_ne_comment decided (by decide)

/-- **What becomes of a token that a form is offered for.** -/
theorem visitLeaf_of_offers (h : Offers t o n form) : visitLeaf t o n =
    if n.kind = .stringLiteral ∨ isNameForm form = true then ([putIn n form], []) else ([], [refusal n n.text form]) := by
  have hcomment : (n.kind == .comment) = false := by simpa using kind_ne_comment_of_offers h
  unfold visitLeaf
  simp only [hcomment, treat_of_offers h]
  by_cases hput : n.kind = .stringLiteral ∨ isNameForm form = true
  · rw [if_pos hput, if_pos hput]
    rfl
  · rw [if_neg hput, if_neg hput]
    rfl

/-- **A token changes by an annotation after it, or by a form that is offered for it.** -/
theorem offers_of_change (h : treat t o n = .change e) :
    e = .insertion n.stop (Comment.annotation n.text (t.forward n.text (some .operator))) ∨
      ∃ form, Offers t o n form ∧ e = putIn n form := by
  rcases treat_eq_change h with ⟨-, -, -, rfl⟩ | ⟨hdecided, hkind, hquoted, rfl, hne⟩ | ⟨hdecided, hkind, rfl, hne, -⟩
  · exact .inl rfl
  · exact .inr ⟨_, .string hdecided hkind hquoted hne, (if_pos hkind).symm⟩
  · exact .inr ⟨_, .name hdecided hkind hne, (if_neg hkind).symm⟩

/-! ## All that is put in -/

/-- **An edit of a comment**: one that decorates a declaration, deletes a comment or annotates an operator. -/
inductive EditsComment (t : Table) (nodes : List Node) : Edit → Prop
  | decorates {n : Node} (mem : n ∈ nodes) (declares : n.kind.isDeclaration = true) (saying : String) :
      EditsComment t nodes (decorate n saying)
  | deletes {n : Node} (mem : n ∈ tokens nodes) (kind : n.kind = .comment) :
      EditsComment t nodes (.deletion n.start n.stop)
  | annotates {n : Node} (mem : n ∈ tokens nodes) :
      EditsComment t nodes (.insertion n.stop (Comment.annotation n.text (t.forward n.text (some .operator))))

theorem exists_of_mem_visit : ∀ {nodes : List Node} {g : Twister}, e ∈ (visit t o g nodes).1 →
    (∃ n ∈ nodes, n.kind.isDeclaration = true ∧ ∃ saying, e = decorate n saying) ∨
      ∃ n ∈ tokens nodes, e ∈ (visitLeaf t o n).1
  | [], _, h => nomatch h
  | n :: nodes, g, h => by
    have hlater : ∀ {g}, e ∈ (visit t o g nodes).1 →
        (∃ m ∈ n :: nodes, m.kind.isDeclaration = true ∧ ∃ saying, e = decorate m saying) ∨
          ∃ m ∈ tokens (n :: nodes), e ∈ (visitLeaf t o m).1 := by
      intro g h
      rcases exists_of_mem_visit h with ⟨m, hm, hdecorate⟩ | ⟨m, hm, hvisit⟩
      · exact .inl ⟨m, List.mem_cons_of_mem n hm, hdecorate⟩
      · exact .inr ⟨m, ((List.sublist_cons_self n nodes).filter _).subset hm, hvisit⟩
    rw [visit_cons] at h
    split at h
    · rename_i hdeclares
      rcases List.mem_cons.1 h with rfl | h
      · exact .inl ⟨n, List.mem_cons_self, (Bool.and_eq_true _ _ ▸ hdeclares).1, _, rfl⟩
      · exact hlater h
    · rcases List.mem_append.1 h with h | h
      · split at h
        · rename_i htoken
          exact .inr ⟨n, List.mem_filter.2 ⟨List.mem_cons_self, htoken⟩, h⟩
        · cases h
      · exact hlater h

theorem offers_of_mem_visitLeaf (h : e ∈ (visitLeaf t o n).1) :
    (n.kind = .comment ∧ e = .deletion n.start n.stop) ∨
    e = .insertion n.stop (Comment.annotation n.text (t.forward n.text (some .operator))) ∨
    ∃ form, Offers t o n form ∧ e = putIn n form ∧ visitLeaf t o n = ([e], []) := by
  by_cases hcomment : n.kind = .comment
  · left
    have hb : (n.kind == .comment) = true := by simpa using hcomment
    unfold visitLeaf at h
    simp only [hb, if_true] at h
    split at h
    · cases h
    · exact ⟨hcomment, List.mem_singleton.1 h⟩
  · right
    have hb : (n.kind == .comment) = false := by simpa using hcomment
    cases htreat : treat t o n with
    | keep => simp [visitLeaf, hb, htreat] at h
    | refuse => simp [visitLeaf, hb, htreat] at h
    | change e' =>
      have hvisit := visitLeaf_of_change htreat
      rw [hvisit] at h
      obtain rfl := List.mem_singleton.1 h
      rcases offers_of_change htreat with hannotates | ⟨form, hoffers, heq⟩
      · exact .inl hannotates
      · exact .inr ⟨form, hoffers, heq, hvisit⟩

/-- **A token gives way to a well-formed one only, just where** no form that is offered for it would end the string it is
put in, and none is a name with a line feed behind it. -/
theorem admitsWellFormed_iff : AdmitsWellFormed t o n ↔ ∀ form, Offers t o n form →
    (n.kind = .stringLiteral → form.FitsQuotes n.text) ∧ (n.kind ≠ .stringLiteral → ¬form.IsBrokenName) := by
  refine forall_congr' fun form => forall_congr' fun hoffers => ?_
  rw [visitLeaf_of_offers hoffers]
  by_cases hstring : n.kind = .stringLiteral
  · have hfits : Fits n form ↔ form.FitsQuotes n.text := by simp [Fits, hstring]
    simp [hstring, hfits]
  · have hfits : Fits n form ↔ form.IsName := by simp [Fits, hstring]
    by_cases hname : isNameForm form = true
    · -- of a name and one with a line feed behind it, the form is just one
      have hone : form.IsName ↔ ¬form.IsBrokenName :=
        ⟨fun h hbroken => hbroken.not_isName h, (isNameForm_iff.1 hname).resolve_right⟩
      simp [hstring, hname, hfits, hone]
    · obtain ⟨hnot, hwhole⟩ := not_or.1 (isNameForm_iff.not.1 hname)
      refine iff_of_true ⟨fun h => (hnot (hfits.1 h)).elim, fun _ => ⟨_, if_neg ?_, rfl⟩⟩
        ⟨fun h => (hstring h).elim, fun _ => hwhole⟩
      exact not_or.2 ⟨hstring, hname⟩

theorem isTrimmed_of_forward (ht : ∀ a ∈ t.atoms, a.form.isTrimmed = true) {host : Spelling}
    {category : Option Category} (hne : t.forward host category ≠ host) : (t.forward host category).isTrimmed = true := by
  obtain ⟨c, hget⟩ := Table.entry_of_forward rfl hne
  exact ht ⟨c, host, _⟩ (Table.mem_atomsIn.2 ((OrderedMap.get?_eq_some_iff _ _ _).1 hget))

theorem points_of_decorated (h : decorated? t o n = some form) :
    t.forward ("@" ++ n.text) (some .frameworkIdentifier) ≠ "@" ++ n.text ∧
      (t.forward ("@" ++ n.text) (some .frameworkIdentifier)).points = .char '@' :: form.points := by
  unfold decorated? at h
  dsimp only at h
  split at h
  · rename_i hcond
    simp only [Bool.and_eq_true, bne_iff_ne] at hcond
    refine ⟨hcond.2, ?_⟩
    unfold Spelling.behindAt? at h
    split at h
    · rename_i rest hpoints
      rw [hpoints, ← Option.some.inj h, Spelling.points_ofPoints]
    · cases h
  · cases h

/-- **Where all forms are trimmed, no name has a line feed behind it.** -/
theorem not_isBrokenName_of_offers (ht : ∀ a ∈ t.atoms, a.form.isTrimmed = true) (h : Offers t o n form) :
    ¬form.IsBrokenName := by
  intro hbroken
  have hlast := hbroken.getLast?
  cases h with
  | string decided kind quoted changes => exact Spelling.getLast?_of_isTrimmed (isTrimmed_of_forward ht changes) hlast
  | name decided kind changes =>
    rw [formOf_eq] at changes hlast
    cases hdecorated : decorated? t o n with
    | none =>
      rw [hdecorated, Option.getD_none] at changes hlast
      exact Spelling.getLast?_of_isTrimmed (isTrimmed_of_forward ht changes) hlast
    | some form =>
      rw [hdecorated, Option.getD_some] at hlast
      obtain ⟨hchanges, hpoints⟩ := points_of_decorated hdecorated
      refine Spelling.getLast?_of_isTrimmed (isTrimmed_of_forward ht hchanges) ?_
      rw [hpoints, List.getLast?_cons, hlast]
      rfl

/-- **What takes the place of a token.**  Apart from comments, everything that conversion puts into a source is a form
offered for a token, in its place: a string takes any form, a name one that is a name or a name with a line feed behind
it.  Any other form is refused with a warning, and the token stays as it is.  So a token gives way to a well-formed one
only, just where no form that is offered for it would end the string it is put in, and none is a name with a line feed
behind it; of names this is true wherever all forms of the table are trimmed. -/
theorem offered_forms_put_in (t : Table) (o : Options) (g : Twister) (nodes : List Node) :
    (∀ e ∈ (visit t o g nodes).1, EditsComment t nodes e ∨ ∃ n ∈ tokens nodes, ∃ form, Offers t o n form ∧
      e = putIn n form ∧ visitLeaf t o n = ([e], []) ∧
      (n.kind = .stringLiteral ∨ form.IsName ∨ form.IsBrokenName)) ∧
    (visit t o g nodes).2.1 = (tokens nodes).flatMap (fun n => (visitLeaf t o n).2) ∧
    (∀ n form, Offers t o n form → ¬(n.kind = .stringLiteral ∨ form.IsName ∨ form.IsBrokenName) →
      visitLeaf t o n = ([], [refusal n n.text form]) ∧ becomes t o (contextOf o n) = [.text n.text]) ∧
    (∀ n, AdmitsWellFormed t o n ↔ ∀ form, Offers t o n form →
      (n.kind = .stringLiteral → form.FitsQuotes n.text) ∧ (n.kind ≠ .stringLiteral → ¬form.IsBrokenName)) ∧
    ((∀ a ∈ t.atoms, a.form.isTrimmed = true) → ∀ n, n.kind ≠ .stringLiteral → AdmitsWellFormed t o n) := by
  refine ⟨fun e he => ?_, visit_notes nodes g, fun n form hoffers hnot => ?_, fun n => admitsWellFormed_iff,
    fun ht n hkind => admitsWellFormed_iff.2 fun form hoffers =>
      ⟨fun h => (hkind h).elim, fun _ => not_isBrokenName_of_offers ht hoffers⟩⟩
  · rcases exists_of_mem_visit he with ⟨n, hn, hdeclares, saying, rfl⟩ | ⟨n, hn, hvisit⟩
    · exact .inl (.decorates hn hdeclares saying)
    rcases offers_of_mem_visitLeaf hvisit with ⟨hkind, rfl⟩ | rfl | ⟨form, hoffers, heq, hleaf⟩
    · exact .inl (.deletes hn hkind)
    · exact .inl (.annotates hn)
    refine .inr ⟨n, hn, form, hoffers, heq, hleaf, ?_⟩
    rw [← isNameForm_iff]
    by_contra hnot
    rw [visitLeaf_of_offers hoffers, if_neg hnot] at hleaf
    cases hleaf
  · rw [← isNameForm_iff] at hnot
    refine ⟨(visitLeaf_of_offers hoffers).trans (if_neg hnot), ?_⟩
    obtain ⟨hstring, hname⟩ := not_or.1 hnot
    cases hoffers with
    | name decided kind changes => exact Refused.becomes ⟨decided, kind, changes, Bool.not_eq_true _ ▸ hname⟩
    | string decided kind => exact (hstring kind).elim

/-- **A line feed gets in behind a name, and a quote into a string**: neither is refused, and no warning is given. -/
theorem line_feed_and_quote_get_in :
    let t := Table.ofLists [(.keyword, [("let", "foo\n")]), (.phrase, [("a", "it's")])]
    let o : Options := { framework := .angular }
    let source := "let x=\x7bselector:'a'\x7d"
    let tree : Tree := .inner "lexical_declaration" 0 20 none
      [.token "let" false 0 3 "kind",
        .inner "variable_declarator" 4 20 none
          [.token "identifier" true 4 5 "name", .token "=" false 5 6,
            .inner "object" 6 20 "value"
              [.token "\x7b" false 6 7,
                .inner "pair" 7 19 none
                  [.token "property_identifier" true 7 15 "key", .token ":" false 15 16,
                    .inner "string" 16 19 "value"
                      [.token "'" false 16 17, .token "string_fragment" true 17 18, .token "'" false 18 19]],
                .token "\x7d" false 19 20]]]
    tree.WellFormed source.toList ∧
      (∃ nodes, Node.ofTree (bytesOf source) tree = .ok nodes ∧
        (∃ n ∈ nodes, n.text = "let" ∧ ¬AdmitsWellFormed t o n) ∧ ∃ n ∈ nodes, n.text = "'a'" ∧ ¬AdmitsWellFormed t o n) ∧
      ∀ g, (convert t o g (bytesOf source) tree).1 = .ok { code := "foo\n x=\x7bselector:'it's'\x7d" } := by
  intro t o source tree
  have hwf : tree.WellFormed source.toList := by decide
  let letNode : Node := .token .keyword .variableDeclaration "let" "let" 0 3 "kind"
  let string : Node :=
    { Node.token .stringLiteral .propertyAssignment "string" "'a'" 16 19 "value" with owner := some "selector" }
  let nodes : List Node := [
    .inner .variableDeclaration .other "lexical_declaration" 0 20, letNode,
    .inner .variableDeclaration .variableDeclaration "variable_declarator" 4 20,
    .token .identifier .variableDeclaration "identifier" "x" 4 5 "name",
    .token .operator .variableDeclaration "=" "=" 5 6, .inner .other .variableDeclaration "object" 6 20 "value",
    .token .operator .other "\x7b" "\x7b" 6 7, .inner .propertyAssignment .other "pair" 7 19,
    { Node.token .propertyName .propertyAssignment "property_identifier" "selector" 7 15 "key" with
      owner := some "selector" },
    { Node.token .operator .propertyAssignment ":" ":" 15 16 with owner := some "selector" },
    string, .token .operator .other "\x7d" "\x7d" 19 20]
  have hnodes : Node.ofTree (bytesOf source) tree = .ok nodes := by decide +kernel
  have hletOffer : Offers t o letNode "foo\n" := .name (by decide) (by decide) (by decide)
  have hform : t.forward (inner string.text) (decide o string).category = "it's" := by decide +kernel
  have hstringOffer : Offers t o string "it's" :=
    hform ▸ Offers.string (n := string) (by decide) rfl (by decide) (by rw [hform]; decide)
  have hbroken : Spelling.IsBrokenName "foo\n" :=
    ⟨['f', 'o', 'o'], rfl, [], 'f', ['o', 'o'], rfl, .inl rfl, by decide, List.all_eq_true.1 (by decide)⟩
  have hquote : ¬Spelling.FitsQuotes "'a'" "it's" := fun h => (h Text.singleQuote (by decide)).1 rfl
  refine ⟨hwf, ⟨nodes, hnodes, ⟨letNode, by simp [nodes], rfl, fun h => ?_⟩, string, by simp [nodes], rfl, fun h => ?_⟩,
    fun g => ?_⟩
  · exact (admitsWellFormed_iff.1 h _ hletOffer).2 (by decide) hbroken
  · exact hquote ((admitsWellFormed_iff.1 h _ hstringOffer).1 rfl)
  · have hedits : (tokens nodes).flatMap (fun n => (visitLeaf t o n).1) =
        [putIn letNode "foo\n", putIn string "it's"] := by decide +kernel
    have hnotes : notes t o nodes = [] := by decide +kernel
    have happly : Edit.applyAll (bytesOf source) [putIn letNode "foo\n", putIn string "it's"] =
        .ok "foo\n x=\x7bselector:'it's'\x7d" := by cbv
    exact convert_eq_ok_of_visit hnodes ((visit_eq rfl g nodes).trans (by rw [hedits, hnotes])) happly

end Forward
end Argot
