import Mathlib
import Argot.Proofs.Conversion.Annotation
import Argot.Proofs.Text.Steps
/-!
# Stripping — which parts of a text are taken for generated comments

Two passes go over a text, one for annotations and one for decorations.  Each step keeps a character or takes away what
stands between an opening and the first end of a generated comment after it on its line, with the white space that goes
with it.  That is one comment just if no comment is closed in between (`strip_takes`), as in a text where each comment
with such an opening ends as a generated one does.
-/
namespace Argot
namespace Comment

open Text Matcher

def closing : List Char := "*/".toList

/-- **A single block comment**: it is opened and closed, and not closed before its end. -/
def IsBlock (c : List Char) : Prop :=
  "/*".toList <+: c ∧ closing <:+ c ∧ ¬closing <:+: c.dropLast

instance (c : List Char) : Decidable (IsBlock c) :=
  inferInstanceAs (Decidable (_ ∧ _ ∧ ¬_))

/-! ## What the matcher for decorations takes -/

def isIndent (c : Char) : Bool :=
  c == ' ' || c == '\t'

/-- The white space that goes with a decoration, before a text: a space, or a line end and the indentation after it. -/
def IsTrail (z y : List Char) : Prop :=
  z = [' '] ∨ ∃ indent, z = '\n' :: indent ∧ (∀ c ∈ indent, isIndent c = true) ∧ ∀ c ∈ y.head?, isIndent c = false

variable {cs : List Char} {n : Nat}

theorem trail_eq_some_iff : orElse (andThen (word ['\n']) (many isIndent)) (word [' ']) cs = some n ↔
    ∃ z y, IsTrail z y ∧ cs = z ++ y ∧ n = z.length := by
  constructor
  · intro h
    rcases orElse_eq_some_iff.1 h with hline | ⟨-, hspace⟩
    · obtain ⟨i, j, hi, hj, rfl⟩ := andThen_eq_some_iff.1 hline
      obtain ⟨⟨rest, rfl⟩, rfl⟩ := word_eq_some_iff.1 hi
      rw [List.drop_left] at hj
      obtain ⟨indent, y, rfl, hindent, hy, rfl⟩ := many_eq_some_iff.1 hj
      exact ⟨'\n' :: indent, y, .inr ⟨indent, rfl, hindent, hy⟩, rfl, Nat.add_comm _ _⟩
    · obtain ⟨⟨y, rfl⟩, rfl⟩ := word_eq_some_iff.1 hspace
      exact ⟨[' '], y, .inl rfl, rfl, rfl⟩
  · rintro ⟨z, y, rfl | ⟨indent, rfl, hindent, hy⟩, rfl, rfl⟩
    · rfl
    · refine orElse_eq_some_iff.2 (.inl (andThen_eq_some_iff.2 ⟨1, indent.length, rfl, ?_, Nat.add_comm _ _⟩))
      exact many_eq_some_iff.2 ⟨indent, y, rfl, hindent, hy, rfl⟩

theorem decorationEnd_eq_some_iff : decorationEnd cs = some n ↔ ∃ z y, IsTrail z y ∧
    cs = " ♂ */".toList ++ (z ++ y) ∧ n = (" ♂ */".toList ++ z).length := by
  have hend : decorationEnd = andThen (word " ♂ */".toList)
      (orElse (andThen (word ['\n']) (many isIndent)) (word [' '])) := by
    unfold decorationEnd
    rw [sequence_cons, sequence_singleton]
    rfl
  rw [hend, andThen_eq_some_iff]
  constructor
  · rintro ⟨i, j, hi, hj, rfl⟩
    obtain ⟨⟨rest, rfl⟩, rfl⟩ := word_eq_some_iff.1 hi
    rw [List.drop_left] at hj
    obtain ⟨z, y, hz, rfl, rfl⟩ := trail_eq_some_iff.1 hj
    exact ⟨z, y, hz, rfl, List.length_append.symm⟩
  · rintro ⟨z, y, hz, rfl, rfl⟩
    refine ⟨_, z.length, word_append _ _, ?_, List.length_append⟩
    rw [List.drop_left]
    exact trail_eq_some_iff.2 ⟨z, y, hz, rfl, rfl⟩

/-- What the matcher for decorations takes: a comment with such an opening to the first end of a decoration. -/
theorem decorationMatcher_eq_some (h : decorationMatcher cs = some n) : ∃ x z y, IsTrail z y ∧
    cs = "/* ♂ ".toList ++ (x ++ (" ♂ */".toList ++ z)) ++ y ∧
    n = ("/* ♂ ".toList ++ (x ++ (" ♂ */".toList ++ z))).length ∧ (∀ c ∈ x, onLine c = true) ∧
    ∀ a b, x = a ++ b → b ≠ [] → decorationEnd (b ++ (" ♂ */".toList ++ (z ++ y))) = none := by
  unfold decorationMatcher at h
  rw [sequence_cons, sequence_singleton] at h
  obtain ⟨i, j, hi, hj, rfl⟩ := andThen_eq_some_iff.1 h
  obtain ⟨⟨rest, rfl⟩, rfl⟩ := word_eq_some_iff.1 hi
  rw [List.drop_left] at hj
  obtain ⟨x, rest, k, rfl, hend, rfl, hline, hfirst⟩ := upTo_eq_some_iff.1 hj
  obtain ⟨z, y, hz, rfl, rfl⟩ := decorationEnd_eq_some_iff.1 hend
  exact ⟨x, z, y, hz, by simp only [List.append_assoc], by simp only [List.length_append], hline, hfirst⟩

/-! ## Comments that are closed once -/

/-- Two characters stand in a text just if they stand before or after a third one in it. -/
theorem pair_infix_iff {a b c : Char} (ha : a ≠ c) (hb : b ≠ c) {u v : List Char} :
    [a, b] <:+: u ++ c :: v ↔ [a, b] <:+: u ∨ [a, b] <:+: v := by
  constructor
  · rintro ⟨x, y, h⟩
    rw [List.append_assoc] at h
    rcases List.append_eq_append_iff.1 h with ⟨z, rfl, hz⟩ | ⟨z, rfl, hz⟩
    · -- the pair begins before the third character, hence ends before it
      match z, hz with
      | [], hz => exact absurd (List.cons.inj hz).1 ha
      | [d], hz => exact absurd (List.cons.inj (List.cons.inj hz).2).1 hb
      | d :: e :: z, hz =>
        obtain ⟨hd, hz⟩ := List.cons.inj hz
        obtain ⟨he, -⟩ := List.cons.inj hz
        exact .inl ⟨x, z, by rw [hd, he]; simp⟩
    · match z, hz with
      | [], hz => exact absurd (List.cons.inj hz).1.symm ha
      | d :: z, hz => exact .inr ⟨z, y, by simpa using (List.cons.inj hz).2.symm⟩
  · rintro (h | h)
    · exact h.trans (List.prefix_append _ _).isInfix
    · exact h.trans ((List.suffix_cons c v).trans (List.suffix_append u _)).isInfix

/-- A comment that is closed where it ends is a single one just if nothing between its opening and its end closes it. -/
theorem isBlock_iff {front x back : List Char} (hopen : "/*".toList <+: front) (hfront : ¬closing <:+: front)
    (hclose : ['*'] <:+ back) (hback : ¬closing <:+: back) :
    IsBlock (front ++ ' ' :: (x ++ ' ' :: (back ++ ['/']))) ↔ ¬closing <:+: x := by
  have hlast : front ++ ' ' :: (x ++ ' ' :: (back ++ ['/'])) = front ++ ' ' :: (x ++ ' ' :: back) ++ ['/'] := by simp
  have hends : closing <:+ front ++ ' ' :: (x ++ ' ' :: back) ++ ['/'] := by
    obtain ⟨start, rfl⟩ := hclose
    exact ⟨front ++ ' ' :: (x ++ ' ' :: start), by simp [closing]⟩
  have hinside : closing <:+: front ++ ' ' :: (x ++ ' ' :: back) ↔ closing <:+: x := by
    have hpair : closing = ['*', '/'] := by decide
    rw [hpair] at hfront hback ⊢
    rw [pair_infix_iff (by decide) (by decide), pair_infix_iff (by decide) (by decide)]
    tauto
  unfold IsBlock
  rw [hlast, List.dropLast_concat, hinside]
  have hopens : "/*".toList <+: front ++ ' ' :: (x ++ ' ' :: back) ++ ['/'] :=
    hopen.trans ((List.prefix_append _ _).trans (List.prefix_append _ _))
  tauto

theorem isBlock_annotation_iff {x w : List Char} (hw : IsWord w) :
    IsBlock ("/* GACHI: ".toList ++ (x ++ ending w)) ↔ ¬closing <:+: x := by
  have hword : ¬closing <:+: w := by
    intro h
    have hstar : isNameChar '*' = true := hw.2 '*' (h.subset (by decide))
    exact absurd hstar (by decide)
  have hback : ¬closing <:+: "->".toList ++ ' ' :: (w ++ ' ' :: ['*']) := by
    have hpair : closing = ['*', '/'] := by decide
    have harrow : ¬closing <:+: "->".toList := by decide
    have hstar : ¬closing <:+: ['*'] := by decide
    rw [hpair] at hword harrow hstar ⊢
    rw [pair_infix_iff (by decide) (by decide), pair_infix_iff (by decide) (by decide)]
    tauto
  have hcomment : "/* GACHI: ".toList ++ (x ++ ending w) =
      "/* GACHI:".toList ++ ' ' :: (x ++ ' ' :: ("->".toList ++ ' ' :: (w ++ ' ' :: ['*']) ++ ['/'])) := by
    simp [ending]
  rw [hcomment]
  exact isBlock_iff (by decide) (by decide) ⟨"->".toList ++ ' ' :: (w ++ [' ']), by simp⟩ hback

theorem isBlock_decoration_iff {x : List Char} :
    IsBlock ("/* ♂ ".toList ++ (x ++ " ♂ */".toList)) ↔ ¬closing <:+: x := by
  have hcomment : "/* ♂ ".toList ++ (x ++ " ♂ */".toList) =
      "/* ♂".toList ++ ' ' :: (x ++ ' ' :: ("♂ *".toList ++ ['/'])) := by
    simp
  rw [hcomment]
  exact isBlock_iff (by decide) (by decide) (by decide) (by decide)

/-- What closes a comment in a text closes it for the first time somewhere. -/
theorem exists_first_closing : ∀ {x : List Char}, closing <:+: x →
    ∃ p q, x = p ++ closing ++ q ∧ ¬closing <:+: p ++ ['*']
  | [], h => absurd (List.infix_nil.1 h) (by decide)
  | c :: x, h => by
    by_cases hfront : closing <+: c :: x
    · obtain ⟨q, hq⟩ := hfront
      exact ⟨[], q, hq.symm, by decide⟩
    · obtain ⟨p, q, rfl, hp⟩ := exists_first_closing ((List.infix_cons_iff.1 h).resolve_left hfront)
      refine ⟨c :: p, q, rfl, fun hin => ?_⟩
      rcases List.infix_cons_iff.1 hin with hpre | hin
      · have hlonger : c :: (p ++ ['*']) <+: c :: (p ++ closing ++ q) := ⟨'/' :: q, by simp [closing]⟩
        exact hfront (hpre.trans hlonger)
      · exact hp hin

/-! ## Pieces that are taken away -/

def Keeps (s : Step Char) : Prop :=
  ∃ c, s = ⟨[c], [c]⟩

/-- **A step takes one block comment away**, with at most a space before it and white space of a decoration after it. -/
def TakesOne (s : Step Char) : Prop :=
  ∃ lead comment trail, s = ⟨lead ++ (comment ++ trail), []⟩ ∧ (lead = [] ∨ lead = [' ']) ∧
    (trail = [] ∨ ∃ y, IsTrail trail y) ∧ IsBlock comment

/-- A step takes what stands from the opening of an annotation to the end of one, with `x` in between. -/
def TakesAnnotation (s : Step Char) (x : List Char) : Prop :=
  ∃ lead w, s = ⟨lead ++ ("/* GACHI: ".toList ++ (x ++ ending w)), []⟩ ∧ (lead = [] ∨ lead = [' ']) ∧ IsWord w ∧
    ∀ c ∈ x, onLine c = true

/-- A step takes what stands from the opening of a decoration to the end of one, with `x` in between. -/
def TakesDecoration (s : Step Char) (x : List Char) : Prop :=
  ∃ trail y, s = ⟨"/* ♂ ".toList ++ (x ++ " ♂ */".toList) ++ trail, []⟩ ∧ IsTrail trail y ∧ ∀ c ∈ x, onLine c = true

theorem IsTrail.slash_notMem {z y : List Char} (h : IsTrail z y) : '/' ∉ z := by
  rcases h with rfl | ⟨indent, rfl, hindent, -⟩
  · decide
  · intro hmem
    rcases List.mem_cons.1 hmem with hline | hmem
    · exact absurd hline (by decide)
    · exact absurd (hindent _ hmem) (by decide)

/-- Where a text is cut after a slash and no slash follows, is settled. -/
theorem eq_of_slash {c d z z' : List Char} (h : c ++ z = d ++ z') (hc : ['/'] <:+ c) (hd : ['/'] <:+ d)
    (hz : '/' ∉ z) (hz' : '/' ∉ z') : c = d := by
  obtain ⟨c, rfl⟩ := hc
  obtain ⟨d, rfl⟩ := hd
  rcases List.append_eq_append_iff.1 h with ⟨gap, hgap, hrest⟩ | ⟨gap, hgap, hrest⟩
  · rcases List.eq_nil_or_concat gap with rfl | ⟨gap, e, rfl⟩
    · simpa using hgap.symm
    · rw [List.concat_eq_append, ← List.append_assoc] at hgap
      obtain ⟨-, he⟩ := List.append_inj' hgap rfl
      exact (hz (by rw [hrest, List.concat_eq_append, ← he]; simp)).elim
  · rcases List.eq_nil_or_concat gap with rfl | ⟨gap, e, rfl⟩
    · simpa using hgap
    · rw [List.concat_eq_append, ← List.append_assoc] at hgap
      obtain ⟨-, he⟩ := List.append_inj' hgap rfl
      exact (hz' (by rw [hrest, List.concat_eq_append, ← he]; simp)).elim

/-- **What a step takes is one comment just if its only comment is.** -/
theorem takesOne_iff {s : Step Char} {lead comment trail : List Char} (hs : s = ⟨lead ++ (comment ++ trail), []⟩)
    (hlead : lead = [] ∨ lead = [' ']) (htrail : trail = [] ∨ ∃ y, IsTrail trail y) (hopen : ['/'] <+: comment)
    (hclose : ['/'] <:+ comment) : TakesOne s ↔ IsBlock comment := by
  constructor
  · rintro ⟨lead', comment', trail', hs', hlead', htrail', hblock⟩
    have hslash : ∀ {z : List Char}, (z = [] ∨ ∃ y, IsTrail z y) → '/' ∉ z := by
      rintro z (rfl | ⟨y, hz⟩)
      · simp
      · exact hz.slash_notMem
    obtain ⟨rest, rfl⟩ := hopen
    have hopen' : ['/'] <+: comment' := (by decide : ['/'] <+: "/*".toList).trans hblock.1
    obtain ⟨rest', rfl⟩ := hopen'
    have heq : lead ++ (['/'] ++ rest ++ trail) = lead' ++ (['/'] ++ rest' ++ trail') :=
      (Step.mk.inj (hs.symm.trans hs')).1
    have hsame : ['/'] ++ rest ++ trail = ['/'] ++ rest' ++ trail' := by
      rcases hlead with rfl | rfl <;> rcases hlead' with rfl | rfl
      · simpa using heq
      · simp at heq
      · simp at heq
      · simpa using heq
    have hclose' : ['/'] <:+ ['/'] ++ rest' := (by decide : ['/'] <:+ closing).trans hblock.2.1
    rw [eq_of_slash hsame hclose hclose' (hslash htrail) (hslash htrail')]
    exact hblock
  · exact fun hblock => ⟨lead, comment, trail, hs, hlead, htrail, hblock⟩

theorem TakesAnnotation.takesOne_iff {s : Step Char} {x : List Char} (h : TakesAnnotation s x) :
    TakesOne s ↔ ¬closing <:+: x := by
  obtain ⟨lead, w, hs, hlead, hw, -⟩ := h
  rw [← isBlock_annotation_iff hw]
  refine Comment.takesOne_iff (by simpa using hs) hlead (.inl rfl) ?_ ?_
  · exact (by decide : ['/'] <+: "/* GACHI: ".toList).trans (List.prefix_append _ _)
  · exact ⟨"/* GACHI: ".toList ++ (x ++ (" -> ".toList ++ (w ++ " *".toList))), by simp [ending]⟩

theorem TakesDecoration.takesOne_iff {s : Step Char} {x : List Char} (h : TakesDecoration s x) :
    TakesOne s ↔ ¬closing <:+: x := by
  obtain ⟨trail, y, hs, htrail, -⟩ := h
  rw [← isBlock_decoration_iff]
  refine Comment.takesOne_iff (by simpa using hs) (.inl rfl) (.inr ⟨y, htrail⟩) ?_ ?_
  · exact (by decide : ['/'] <+: "/* ♂ ".toList).trans (List.prefix_append _ _)
  · exact ⟨"/* ♂ ".toList ++ (x ++ " ♂ *".toList), by simp⟩

/-! ## The two passes -/

/-- **Each comment with such an opening that is closed on its line ends** in a certain way. -/
def Tidy (opened : List Char) (ends : List Char → List Char → Prop) (cs : List Char) : Prop :=
  ∀ pre body rest, cs = pre ++ (opened ++ (body ++ (closing ++ rest))) → (∀ c ∈ body, onLine c = true) →
    ¬closing <:+: body ++ ['*'] → ends body rest

/-- The body of a comment ends as that of an annotation. -/
def EndsAsAnnotation (body : List Char) (_ : List Char) : Prop :=
  ∃ x w, IsWord w ∧ body ++ closing = x ++ ending w

/-- The body of a comment ends as that of a decoration, and white space of one comes after the comment. -/
def EndsAsDecoration (body rest : List Char) : Prop :=
  ∃ x z y, body = x ++ " ♂ ".toList ∧ IsTrail z y ∧ rest = z ++ y

theorem annotation_step {s : Step Char} (h : s ∈ cuts annotationMatcher cs) :
    Keeps s ∨ ∃ x, TakesAnnotation s x ∧ (Tidy "/* GACHI: ".toList EndsAsAnnotation cs → ¬closing <:+: x) := by
  rcases cutsFrom_cases h with hkeep | ⟨rest, n, ⟨start, rfl⟩, hm, rfl⟩
  · exact .inl hkeep
  · obtain ⟨a, y, ⟨lead, x, w, hlead, rfl, hw, hline, hfirst⟩, rfl, rfl⟩ := annotationMatcher_eq_some_iff.1 hm
    refine .inr ⟨x, ⟨lead, w, by rw [List.take_left], hlead, hw, hline⟩, fun htidy hin => ?_⟩
    obtain ⟨p, q, rfl, hp⟩ := exists_first_closing hin
    obtain ⟨x', w', hw', hend⟩ := htidy (start ++ lead) p (q ++ (ending w ++ y)) (by simp)
      (fun c hc => hline c (by simp [hc])) hp
    -- that comment ends before the end that the match goes on to
    have hle := hfirst x' w' (q ++ ending w) hw' (by rw [← List.append_assoc x', ← hend]; simp)
    have hlen := congrArg List.length hend
    have hpos : 0 < (ending w').length := by simp [ending]
    simp only [List.length_append] at hle hlen
    omega

theorem decoration_step {s : Step Char} (h : s ∈ cuts decorationMatcher cs) :
    Keeps s ∨ ∃ x, TakesDecoration s x ∧ (Tidy "/* ♂ ".toList EndsAsDecoration cs → ¬closing <:+: x) := by
  rcases cutsFrom_cases h with hkeep | ⟨rest, n, ⟨start, rfl⟩, hm, rfl⟩
  · exact .inl hkeep
  · obtain ⟨x, z, y, hz, rfl, rfl, hline, hfirst⟩ := decorationMatcher_eq_some hm
    refine .inr ⟨x, ⟨z, y, by rw [List.take_left]; simp, hz, hline⟩, fun htidy hin => ?_⟩
    obtain ⟨p, q, rfl, hp⟩ := exists_first_closing hin
    obtain ⟨x', z', y', rfl, hz', hrest⟩ := htidy start p (q ++ (" ♂ */".toList ++ (z ++ y))) (by simp)
      (fun c hc => hline c (by simp [hc])) hp
    have hnone := hfirst x' (" ♂ ".toList ++ closing ++ q) (by simp) (by simp)
    have hsome : decorationEnd (" ♂ ".toList ++ closing ++ q ++ (" ♂ */".toList ++ (z ++ y))) =
        some (" ♂ */".toList ++ z').length :=
      decorationEnd_eq_some_iff.2 ⟨z', y', hz', by rw [List.append_assoc, hrest]; simp [closing], rfl⟩
    rw [hsome] at hnone
    cases hnone

/-- The steps of the pass that takes annotations away. -/
def annotationPass (cs : List Char) : List (Step Char) :=
  cuts annotationMatcher cs

/-- The steps of the pass after it, which takes decorations away. -/
def decorationPass (cs : List Char) : List (Step Char) :=
  cuts decorationMatcher (Step.after (annotationPass cs))

/-- **What stripping keeps and what it takes.**  Two passes take a text in order and give what is left of it.  A step of
the first keeps a character or takes what stands between the opening and the end of an annotation, one of the second that
of a decoration.  That is one block comment just if nothing inside closes a comment, which is so in a text where each
comment with such an opening ends as a generated one. -/
theorem strip_takes (text : String) :
    (Step.before (annotationPass text.toList) = text.toList ∧
      Step.before (decorationPass text.toList) = Step.after (annotationPass text.toList) ∧
      (strip text).toList = Step.after (decorationPass text.toList)) ∧
    (∀ s ∈ annotationPass text.toList, Keeps s ∨ ∃ x, TakesAnnotation s x ∧ (TakesOne s ↔ ¬closing <:+: x)) ∧
    (∀ s ∈ decorationPass text.toList, Keeps s ∨ ∃ x, TakesDecoration s x ∧ (TakesOne s ↔ ¬closing <:+: x)) ∧
    (Tidy "/* GACHI: ".toList EndsAsAnnotation text.toList → ∀ s ∈ annotationPass text.toList, Keeps s ∨ TakesOne s) ∧
    (Tidy "/* ♂ ".toList EndsAsDecoration (Step.after (annotationPass text.toList)) →
      ∀ s ∈ decorationPass text.toList, Keeps s ∨ TakesOne s) := by
  refine ⟨⟨before_cuts _, before_cuts _, ?_⟩, fun s hs => ?_, fun s hs => ?_, fun htidy s hs => ?_,
    fun htidy s hs => ?_⟩
  · rw [strip, String.toList_ofList, stripChars, decorationPass, annotationPass, after_cuts, after_cuts]
  · rcases annotation_step hs with hkeep | ⟨x, hx, -⟩
    · exact .inl hkeep
    · exact .inr ⟨x, hx, hx.takesOne_iff⟩
  · rcases decoration_step hs with hkeep | ⟨x, hx, -⟩
    · exact .inl hkeep
    · exact .inr ⟨x, hx, hx.takesOne_iff⟩
  · rcases annotation_step hs with hkeep | ⟨x, hx, hclosed⟩
    · exact .inl hkeep
    · exact .inr (hx.takesOne_iff.2 (hclosed htidy))
  · rcases decoration_step hs with hkeep | ⟨x, hx, hclosed⟩
    · exact .inl hkeep
    · exact .inr (hx.takesOne_iff.2 (hclosed htidy))

/-- A word that is found in one place only stands there. -/
theorem eq_of_only_place {cs word place pre rest : List Char}
    (honly : ∀ p ∈ cs.inits, word <+: cs.drop p.length → p = place) (h : cs = pre ++ (word ++ rest)) : pre = place := by
  refine honly pre ((List.mem_inits _ _).2 ⟨_, h.symm⟩) ?_
  rw [h, List.drop_left]
  exact List.prefix_append _ _

/-- In a text whose only such comment is a generated one, that comment is all that is taken away. -/
theorem strip_takes_annotation :
    let text := "a /* GACHI: + -> plus */ b"
    Tidy "/* GACHI: ".toList EndsAsAnnotation text.toList ∧ ∀ s ∈ annotationPass text.toList, Keeps s ∨ TakesOne s := by
  intro text
  have htidy : Tidy "/* GACHI: ".toList EndsAsAnnotation text.toList := by
    intro pre body rest htext _ _
    obtain rfl : pre = "a ".toList := eq_of_only_place (by decide) htext
    have hsplit : text.toList = "a ".toList ++ ("/* GACHI: ".toList ++ "+ -> plus */ b".toList) := by decide
    rw [hsplit] at htext
    have hend := List.append_cancel_left (List.append_cancel_left htext)
    obtain rfl : body = "+ -> plus ".toList := eq_of_only_place (by decide) hend
    exact ⟨"+".toList, "plus".toList, ⟨by decide, List.all_eq_true.1 (by decide)⟩, by decide⟩
  exact ⟨htidy, (strip_takes text).2.2.2.1 htidy⟩

/-- **The code between two comments is lost**, since the match that begins at the first goes on to the end of the other. -/
theorem strip_takes_code :
    let text := "/* GACHI: note */ f() /* x -> y */"
    annotationPass text.toList = [⟨text.toList, []⟩] ∧ strip text = "" ∧
      ¬Keeps ⟨text.toList, []⟩ ∧ ¬TakesOne ⟨text.toList, []⟩ := by
  intro text
  have htakes : TakesAnnotation ⟨text.toList, []⟩ "note */ f() /* x".toList :=
    ⟨[], "y".toList, by simp [text, ending], .inl rfl, ⟨by decide, List.all_eq_true.1 (by decide)⟩,
      List.all_eq_true.1 (by decide)⟩
  refine ⟨by cbv, by cbv, ?_, fun hone => ?_⟩
  · rintro ⟨c, hc⟩
    exact absurd (congrArg Step.given hc) (by simp)
  · exact htakes.takesOne_iff.1 hone (by decide)

end Comment
end Argot
