import Argot.Proofs.Text.Matching
import Argot.Session
/-!
# Ignored — literals and comments in a text that is validated

A literal is a comment between its marks, or parts between two quotation marks.  Wherever it stands, validation sees a
space in its place (`validate_literal`), unless a line is continued in it: a backslash does not take a line feed with
it, so such a literal does not end, its quotation mark is passed over, and what it holds counts as source.
-/
namespace Argot
namespace Validation

open Text Matcher

/-! ## Literals -/

/-- The quotation marks. -/
inductive Quote where
  | single
  | double
  | back
  deriving DecidableEq, Repr

def Quote.mark : Quote → Char
  | .single => '\x27'
  | .double => '\x22'
  | .back => '\x60'

/-- Whether a literal may go over several lines as it stands. -/
def Quote.severalLines : Quote → Bool
  | .back => true
  | _ => false

/-- A character that stands for itself between quotation marks. -/
def Quote.IsPlain (q : Quote) (c : Char) : Prop :=
  c ≠ q.mark ∧ c ≠ '\\' ∧ (c = '\n' → q.severalLines = true)

instance (q : Quote) (c : Char) : Decidable (q.IsPlain c) :=
  inferInstanceAs (Decidable (_ ∧ _ ∧ _))

/-- A part of what stands between quotation marks: a character by itself, a backslash with the character that follows
it, or a backslash with the two characters of a line end. -/
inductive Part (q : Quote) where
  | plain (c : Char) (h : q.IsPlain c)
  | escaped (c : Char)
  | lineEnd

def Part.chars {q : Quote} : Part q → List Char
  | .plain c _ => [c]
  | .escaped c => ['\\', c]
  | .lineEnd => ['\\', '\r', '\n']

/-- The part continues a line in a manner that is not foreseen. -/
def Part.Continues {q : Quote} : Part q → Prop
  | .plain .. => False
  | .escaped c => c = '\n'
  | .lineEnd => q.severalLines = false

instance {q : Quote} : (p : Part q) → Decidable p.Continues
  | .plain .. => inferInstanceAs (Decidable False)
  | .escaped c => inferInstanceAs (Decidable (c = '\n'))
  | .lineEnd => inferInstanceAs (Decidable (q.severalLines = false))

/-- A complete literal or comment. -/
inductive Literal where
  | comment (inside : List Char) (h : ¬"*/".toList <:+: inside)
  | quoted (q : Quote) (parts : List (Part q))

namespace Literal

def chars : Literal → List Char
  | .comment inside _ => "/*".toList ++ (inside ++ "*/".toList)
  | .quoted q parts => q.mark :: (parts.flatMap Part.chars ++ [q.mark])

def text (l : Literal) : String :=
  String.ofList l.chars

/-- What follows the first mark. -/
def behindMark (l : Literal) : String :=
  String.ofList l.chars.tail

/-- A line is continued in the literal. -/
def Continued : Literal → Prop
  | .comment .. => False
  | .quoted _ parts => ∃ p ∈ parts, p.Continues

instance : (l : Literal) → Decidable l.Continued
  | .comment .. => inferInstanceAs (Decidable False)
  | .quoted _ parts => inferInstanceAs (Decidable (∃ p ∈ parts, p.Continues))

end Literal

/-! ## The end of a literal -/

section
variable {mark : Char} {severalLines : Bool} {c e : Char} {rest : List Char}

theorem literalRest_mark : literalRest mark severalLines (mark :: rest) = some 1 := by
  cases rest with
  | nil => rw [literalRest, if_pos (beq_self_eq_true mark)]
  | cons e rest => rw [literalRest, if_pos (beq_self_eq_true mark)]

theorem literalRest_escape (hmark : mark ≠ '\\') : literalRest mark severalLines ('\\' :: e :: rest) =
    if e = '\n' then none else (literalRest mark severalLines rest).map (2 + ·) := by
  have hne : ('\\' == mark) = false := by simpa using hmark.symm
  rw [literalRest, hne, if_neg Bool.false_ne_true, if_pos (beq_self_eq_true _)]
  simp only [beq_iff_eq]

theorem literalRest_plain (hmark : c ≠ mark) (hescape : c ≠ '\\') (hrest : rest ≠ []) :
    literalRest mark severalLines (c :: rest) =
      if c = '\n' ∧ severalLines = false then none else (literalRest mark severalLines rest).map (1 + ·) := by
  obtain ⟨e, rest, rfl⟩ := List.exists_cons_of_ne_nil hrest
  have hne : (c == mark) = false := by simpa using hmark
  have hne' : (c == '\\') = false := by simpa using hescape
  rw [literalRest, hne, hne', if_neg Bool.false_ne_true, if_neg Bool.false_ne_true]
  simp only [Bool.and_eq_true, beq_iff_eq, Bool.not_eq_true']

end

section
variable {q : Quote} {rest : List Char}

theorem Quote.mark_ne_backslash (q : Quote) : q.mark ≠ '\\' := by
  cases q <;> decide

theorem Quote.lineFeed_ne_mark (q : Quote) : '\n' ≠ q.mark := by
  cases q <;> decide

/-- One part is passed over, unless it continues a line. -/
theorem literalRest_part (p : Part q) (hrest : rest ≠ []) : literalRest q.mark q.severalLines (p.chars ++ rest) =
    if p.Continues then none else (literalRest q.mark q.severalLines rest).map (p.chars.length + ·) := by
  cases p with
  | plain c h =>
    obtain ⟨hmark, hescape, hline⟩ := h
    have hstays : ¬(c = '\n' ∧ q.severalLines = false) := fun h => by
      rw [hline h.1] at h
      cases h.2
    exact (literalRest_plain hmark hescape hrest).trans (if_neg hstays)
  | escaped c => exact literalRest_escape q.mark_ne_backslash
  | lineEnd =>
    change literalRest q.mark q.severalLines ('\\' :: '\r' :: '\n' :: rest) =
      if q.severalLines = false then none else (literalRest q.mark q.severalLines rest).map (3 + ·)
    rw [literalRest_escape q.mark_ne_backslash, if_neg (by decide),
      literalRest_plain q.lineFeed_ne_mark (by decide) hrest]
    by_cases hlines : q.severalLines = false
    · rw [if_pos hlines, if_pos ⟨rfl, hlines⟩]
      rfl
    · rw [if_neg hlines, if_neg fun h => hlines h.2, Option.map_map]
      congr 1
      funext n
      exact (Nat.add_assoc 2 1 n).symm

/-- **A quoted literal ends with its mark, if no line is continued in it, and else it does not end.** -/
theorem literalRest_parts : ∀ parts : List (Part q), literalRest q.mark q.severalLines
    (parts.flatMap Part.chars ++ q.mark :: rest) =
      if ∃ p ∈ parts, p.Continues then none else some ((parts.flatMap Part.chars).length + 1)
  | [] => by
    rw [if_neg (by simp), List.flatMap_nil, List.nil_append, literalRest_mark]
    rfl
  | p :: parts => by
    rw [List.flatMap_cons, List.append_assoc, literalRest_part p (by simp), literalRest_parts parts]
    simp only [List.mem_cons, exists_eq_or_imp]
    by_cases hp : p.Continues
    · rw [if_pos hp, if_pos (.inl hp)]
    · rw [if_neg hp]
      by_cases hmore : ∃ p ∈ parts, p.Continues
      · rw [if_pos hmore, if_pos (.inr hmore)]
        rfl
      · rw [if_neg hmore, if_neg (not_or.2 ⟨hp, hmore⟩), Option.map_some, List.length_append, Nat.add_assoc]

end

/-! ## What is taken out of a text -/

/-- The characters that a comment or a literal may begin with. -/
def openers : List Char := ['\x27', '\x22', '\x60', '/']

theorem nonCode_of_notMem {c : Char} (h : c ∉ openers) (rest : List Char) : nonCode (c :: rest) = none := by
  simp only [openers, List.mem_cons, List.not_mem_nil, or_false, not_or] at h
  obtain ⟨hsingle, hdouble, hback, hslash⟩ := h
  simp [nonCode, oneOf, orElse, andThen, literal, word, Ne.symm hsingle, Ne.symm hdouble, Ne.symm hback, Ne.symm hslash]

theorem nonCode_of_mark (q : Quote) (rest : List Char) :
    nonCode (q.mark :: rest) = (literalRest q.mark q.severalLines rest).map (1 + ·) := by
  cases q <;> simp [nonCode, oneOf, orElse, andThen, literal, word, Quote.mark, Quote.severalLines]

theorem nonCode_of_comment (rest : List Char) : nonCode ("/*".toList ++ rest) =
    (upTo (fun _ => true) (word "*/".toList) rest).map (2 + ·) := by
  simp [nonCode, oneOf, orElse, andThen, literal, word]

/-- The end of a comment is the first one. -/
theorem upTo_comment_end {inside : List Char} (h : ¬"*/".toList <:+: inside) (rest : List Char) :
    upTo (fun _ => true) (word "*/".toList) (inside ++ ("*/".toList ++ rest)) = some (inside.length + 2) := by
  refine upTo_eq_some_iff.2 ⟨inside, "*/".toList ++ rest, 2, rfl, word_append _ _, rfl, fun _ _ => rfl, ?_⟩
  rintro a b rfl hb
  rw [Option.eq_none_iff_forall_ne_some]
  intro n hn
  obtain ⟨hfront, -⟩ := word_eq_some_iff.1 hn
  match b, hb, hfront with
  | [c], _, hfront =>
    -- the end itself does not begin with a slash
    have hslash := (List.cons_prefix_cons.1 (List.cons_prefix_cons.1 hfront).2).1
    exact absurd hslash (by decide)
  | c :: d :: b, _, hfront =>
    obtain ⟨hc, hd⟩ := List.cons_prefix_cons.1 hfront
    have hinside : "*/".toList <+: c :: d :: b :=
      List.cons_prefix_cons.2 ⟨hc, List.cons_prefix_cons.2 ⟨(List.cons_prefix_cons.1 hd).1, List.nil_prefix⟩⟩
    exact h (hinside.isInfix.trans (List.suffix_append a _).isInfix)

/-- A literal is taken out as a whole. -/
theorem nonCode_literal {l : Literal} (h : ¬l.Continued) (rest : List Char) :
    nonCode (l.chars ++ rest) = some l.chars.length := by
  cases l with
  | comment inside hinside =>
    rw [Literal.chars, List.append_assoc, List.append_assoc, nonCode_of_comment, upTo_comment_end hinside]
    simp
    omega
  | quoted q parts =>
    unfold Literal.Continued at h
    rw [Literal.chars, List.cons_append, List.append_assoc, List.singleton_append, nonCode_of_mark, literalRest_parts,
      if_neg h]
    simp
    omega

/-- Where a line is continued, nothing is taken out at the quotation mark. -/
theorem nonCode_continued {l : Literal} (h : l.Continued) (rest : List Char) : ∃ q : Quote,
    l.chars = q.mark :: l.chars.tail ∧ nonCode (l.chars ++ rest) = none := by
  cases l with
  | comment inside hinside => exact h.elim
  | quoted q parts =>
    refine ⟨q, rfl, ?_⟩
    unfold Literal.Continued at h
    rw [Literal.chars, List.cons_append, List.append_assoc, List.singleton_append, nonCode_of_mark, literalRest_parts,
      if_pos h]
    rfl

theorem replaceAll_nonCode_append {before : List Char} (h : ∀ c ∈ before, c ∉ openers) (rest : List Char) :
    replaceAll nonCode [' '] (before ++ rest) = before ++ replaceAll nonCode [' '] rest := by
  induction before with
  | nil => rfl
  | cons c before ih =>
    rw [List.cons_append, replaceAll_cons (nonCode_of_notMem (h c List.mem_cons_self) _),
      ih fun d hd => h d (List.mem_cons_of_mem _ hd), List.cons_append]

/-! ## Words end at marks and spaces -/

/-- A matcher does not look beyond a character, nor take it. -/
structure StopsAt (c : Char) (m : Matcher) : Prop where
  cut : ∀ a b, m (a ++ c :: b) = m a
  bound : ∀ a n, m a = some n → n ≤ a.length

namespace StopsAt

variable {c : Char} {m n : Matcher} {p : Char → Bool}

theorem one (h : p c = false) : StopsAt c (Matcher.one p) where
  cut
    | [], b => by simp [Matcher.one, h]
    | _ :: _, _ => rfl
  bound
    | [], k, hk => by cases hk
    | d :: a, k, hk => by
      simp only [Matcher.one] at hk
      split at hk
      · cases hk
        simp
      · cases hk

theorem many (h : p c = false) : StopsAt c (Matcher.many p) where
  cut a b := by
    unfold Matcher.many
    congr 2
    induction a with
    | nil => simp [h]
    | cons d a ih => simp only [List.cons_append, List.takeWhile_cons, ih]
  bound a k hk := by
    obtain rfl := Option.some.inj hk
    exact (List.takeWhile_prefix p).length_le

theorem optional_char {d : Char} (h : c ≠ d) : StopsAt c (Matcher.optional (word [d])) where
  cut
    | [], b => by simp [Matcher.optional, word, h.symm]
    | e :: a, b => by simp [Matcher.optional, word]
  bound a k hk := by
    rcases optional_word_eq_some_iff.1 hk with ⟨hd, rfl⟩ | ⟨-, rfl⟩
    · exact hd.length_le
    · exact Nat.zero_le _

theorem andThen (hm : StopsAt c m) (hn : StopsAt c n) : StopsAt c (m.andThen n) where
  cut a b := by
    unfold Matcher.andThen
    rw [hm.cut]
    cases hi : m a with
    | none => rfl
    | some i => rw [Option.bind_some, Option.bind_some, List.drop_append_of_le_length (hm.bound a i hi), hn.cut]
  bound a k hk := by
    obtain ⟨i, j, hi, hj, rfl⟩ := andThen_eq_some_iff.1 hk
    have hfirst := hm.bound a i hi
    have hsecond := hn.bound _ j hj
    rw [List.length_drop] at hsecond
    omega

/-- **Occurrences are those before the character and those behind it.** -/
theorem occurrencesFrom_append (hm : StopsAt c m) (b : List Char) : ∀ (a : List Char) (skip : Nat), skip ≤ a.length →
    occurrencesFrom m skip (a ++ c :: b) = occurrencesFrom m skip a ++ occurrencesFrom m 0 b
  | [], skip, hskip => by
    obtain rfl : skip = 0 := Nat.le_zero.1 hskip
    have hcut : m (c :: b) = m [] := hm.cut [] b
    have hnone : occurrencesFrom m 0 (c :: b) = occurrencesFrom m 0 b := by
      rw [occurrencesFrom, hcut]
      cases hk : m [] with
      | none => rfl
      | some k =>
        obtain rfl : k = 0 := Nat.le_zero.1 (hm.bound [] k hk)
        rfl
    exact hnone
  | x :: a, skip + 1, hskip => occurrencesFrom_append hm b a skip (Nat.le_of_succ_le_succ hskip)
  | x :: a, 0, _ => by
    rw [List.cons_append, occurrencesFrom, occurrencesFrom, ← List.cons_append, hm.cut]
    cases hk : m (x :: a) with
    | none => exact occurrencesFrom_append hm b a 0 (Nat.zero_le _)
    | some k =>
      cases k with
      | zero => exact occurrencesFrom_append hm b a 0 (Nat.zero_le _)
      | succ k =>
        have hbound : k ≤ a.length := Nat.le_of_succ_le_succ (hm.bound _ _ hk)
        dsimp only
        rw [List.take_append_of_le_length hbound, occurrencesFrom_append hm b a k hbound, List.cons_append]

end StopsAt

theorem stopsAt_wordMatcher {c : Char} (hat : c ≠ '@') (hname : isNameChar c = false) : StopsAt c wordMatcher := by
  have hfirst : (isWordChar c && !isDecimalDigit c) = false := by
    rw [isNameChar, Bool.or_eq_false_iff] at hname
    rw [hname.2, Bool.false_and]
  unfold wordMatcher
  rw [sequence_cons, sequence_cons, sequence_singleton]
  exact .andThen (.optional_char hat) (.andThen (.one hfirst) (.many hname))

/-- A quotation mark is as good as a space. -/
theorem occurrences_mark (q : Quote) (a b : List Char) :
    occurrences wordMatcher (a ++ q.mark :: b) = occurrences wordMatcher (a ++ ' ' :: b) := by
  have hmark : StopsAt q.mark wordMatcher := by
    cases q <;> exact stopsAt_wordMatcher (by decide) (by decide +kernel)
  have hspace : StopsAt ' ' wordMatcher := stopsAt_wordMatcher (by decide) (by decide +kernel)
  unfold occurrences
  rw [hmark.occurrencesFrom_append b a 0 (Nat.zero_le _), hspace.occurrencesFrom_append b a 0 (Nat.zero_le _)]

/-! ## Validation -/

theorem check_congr {source other : String} (h : words source = words other) (t : Table) :
    check t source = check t other := by
  unfold check
  rw [h]

section
variable {before : String} (hbefore : ∀ c ∈ before.toList, c ∉ openers) (after : String) {l : Literal}
include hbefore

theorem words_literal (h : ¬l.Continued) : words (before ++ l.text ++ after) = words (before ++ " " ++ after) := by
  have hne : l.chars ≠ [] := by
    cases l <;> simp [Literal.chars]
  have hspace : replaceAll nonCode [' '] (" ".toList ++ after.toList) =
      [' '] ++ replaceAll nonCode [' '] after.toList := replaceAll_cons (nonCode_of_notMem (by decide) _)
  unfold words Literal.text
  simp only [String.toList_append, String.toList_ofList, List.append_assoc]
  rw [replaceAll_nonCode_append hbefore, replaceAll_nonCode_append hbefore, replaceAll_append hne (nonCode_literal h _),
    hspace]

theorem words_continued (h : l.Continued) :
    words (before ++ l.text ++ after) = words (before ++ " " ++ l.behindMark ++ after) := by
  obtain ⟨q, hmark, hnone⟩ := nonCode_continued h after.toList
  unfold words Literal.text Literal.behindMark
  simp only [String.toList_append, String.toList_ofList, List.append_assoc]
  rw [replaceAll_nonCode_append hbefore, replaceAll_nonCode_append hbefore]
  rw [hmark, List.cons_append] at hnone ⊢
  have hspace : replaceAll nonCode [' '] (" ".toList ++ (l.chars.tail ++ after.toList)) =
      ' ' :: replaceAll nonCode [' '] (l.chars.tail ++ after.toList) :=
    replaceAll_cons (nonCode_of_notMem (by decide) _)
  rw [List.tail_cons, replaceAll_cons hnone, hspace, occurrences_mark]

end

end Validation

namespace Session

open Validation

/-- **Validation ignores a literal, whatever it holds.**  Behind a text without quotation marks and slashes, a literal or
comment is as good as a space, unless a line is continued in it; then its first mark is, and what follows counts. -/
theorem validate_literal (r : Session) (framework : Scalar) {before : String} (hbefore : ∀ c ∈ before.toList, c ∉ openers)
    (l : Literal) (after : String) :
    (¬l.Continued → r.validate (before ++ l.text ++ after) framework = r.validate (before ++ " " ++ after) framework) ∧
      (l.Continued → r.validate (before ++ l.text ++ after) framework =
        r.validate (before ++ " " ++ l.behindMark ++ after) framework) := by
  have hsame : ∀ {source other : String}, words source = words other →
      r.validate source framework = r.validate other framework := by
    intro source other h
    unfold validate
    simp only [check_congr h]
  exact ⟨fun h => hsame (words_literal hbefore after h), fun h => hsame (words_continued hbefore after h)⟩

/-- A word that no table knows, in a string with an escaped quotation mark. -/
theorem validate_literal_escaped_mark :
    let l : Literal := .quoted .single [.plain 'é' (by decide), .escaped '\x27']
    (∀ c ∈ "x = ".toList, c ∉ openers) ∧ ¬l.Continued ∧ l.text = "\x27é\\\x27\x27" ∧
      ({} : Session).validate ("x = " ++ l.text ++ ";") = ({} : Session).validate ("x = " ++ " " ++ ";") := by
  intro l
  have hbefore : ∀ c ∈ "x = ".toList, c ∉ openers := by simp [openers]
  have hclosed : ¬l.Continued := by decide
  exact ⟨hbefore, hclosed, by decide, (validate_literal {} .absent hbefore l ";").1 hclosed⟩

/-- The same word behind a backslash and a line feed: it is reported, though it is in a string. -/
theorem validate_reports_continued_string :
    let r : Session := { custom := some (.ofLists []) }
    let l : Literal := .quoted .single [.escaped '\n', .plain 'é' (by decide)]
    l.text = "\x27\\\né\x27" ∧
      (r.validate l.text).map (·.1) = .ok ⟨false, ["Unknown GachiScript keyword: \"é\""], []⟩ ∧
      (r.validate " ").map (·.1) = .ok ⟨true, [], []⟩ := by
  decide +kernel

end Session
end Argot
