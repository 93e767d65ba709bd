import Argot.Conversion.Comment
import Argot.Proofs.Text.Matching
import Mathlib.Data.List.Infix
/-!
# Annotation — which comments are taken away again

The matcher for annotations takes what reads as one: on one line, from its opening to the first arrow that has a word and
the end of a comment after it (`annotationMatcher_eq_some_iff`).  Taking away everything it takes leaves nothing of a text
that is made of annotations (`annotations_iff`), and where such texts were put into a text without an opening of its own,
that text is left (`stripChars_of_commented`).
-/
namespace Argot
namespace Comment

open Text Matcher

def IsWord (w : List Char) : Prop :=
  w ≠ [] ∧ ∀ c ∈ w, isNameChar c = true

/-- The end of an annotation: an arrow, a word and the end of a comment. -/
def ending (w : List Char) : List Char :=
  " -> ".toList ++ (w ++ " */".toList)

/-- **One annotation**: after its opening stays on one line and goes on to the first end, perhaps with a space before. -/
def IsAnnotation (a : List Char) : Prop :=
  ∃ lead x w, (lead = [] ∨ lead = [' ']) ∧ a = lead ++ ("/* GACHI: ".toList ++ (x ++ ending w)) ∧ IsWord w ∧
    (∀ c ∈ x, onLine c = true) ∧
    ∀ x' w' y, IsWord w' → x ++ ending w = x' ++ (ending w' ++ y) → x.length ≤ x'.length

inductive Annotations : List Char → Prop where
  | nil : Annotations []
  | cons {a b : List Char} : IsAnnotation a → Annotations b → Annotations (a ++ b)

variable {cs ds rest w : List Char} {n : Nat}

/-! ## What the matcher takes -/

theorem annotationEnd_eq_some_iff : annotationEnd cs = some n ↔ ∃ w y, IsWord w ∧ cs = ending w ++ y ∧
    n = (ending w).length := by
  unfold annotationEnd
  rw [sequence_cons, sequence_cons, sequence_singleton]
  constructor
  · intro h
    obtain ⟨i, j, hi, hj, rfl⟩ := andThen_eq_some_iff.1 h
    obtain ⟨⟨afterArrow, rfl⟩, rfl⟩ := word_eq_some_iff.1 hi
    rw [List.drop_left] at hj
    obtain ⟨k, l, hk, hl, rfl⟩ := andThen_eq_some_iff.1 hj
    obtain ⟨w, afterWord, rfl, hne, hw, -, rfl⟩ := many1_eq_some_iff.1 hk
    rw [List.drop_left] at hl
    obtain ⟨⟨y, rfl⟩, rfl⟩ := word_eq_some_iff.1 hl
    refine ⟨w, y, ⟨hne, hw⟩, by simp [ending], ?_⟩
    rw [ending, List.length_append, List.length_append]
  · rintro ⟨w, y, hw, rfl, rfl⟩
    unfold ending
    rw [List.append_assoc, List.append_assoc]
    refine andThen_eq_some_iff.2 ⟨_, (w ++ " */".toList).length, word_append _ _, ?_, List.length_append⟩
    rw [List.drop_left]
    have hspace : isNameChar ' ' = false := by decide
    refine andThen_eq_some_iff.2 ⟨w.length, " */".toList.length, many1_eq_some_iff.2 ⟨w, _, rfl, hw.1, hw.2, ?_, rfl⟩, ?_,
      List.length_append⟩
    · simpa using hspace
    · rw [List.drop_left]
      exact word_append _ _

/-- No end of an annotation begins before the end of another one and goes on after it. -/
theorem ending_within {b w' y : List Char} (hw' : IsWord w') (h : b ++ ending w ++ rest = ending w' ++ y) :
    ∃ y', b ++ ending w = ending w' ++ y' := by
  rcases List.append_eq_append_iff.1 h with ⟨z, hz, -⟩ | ⟨z, hz, -⟩
  · -- the longer end would hold the slash of the shorter one before its own
    rcases List.eq_nil_or_concat z with rfl | ⟨z, c, rfl⟩
    · exact ⟨[], by simpa using hz.symm⟩
    · have hdrop := congrArg List.dropLast hz
      have hleft : (ending w').dropLast = " -> ".toList ++ w' ++ " *".toList := by
        have : ending w' = (" -> ".toList ++ w' ++ " *".toList) ++ ['/'] := by simp [ending]
        rw [this, List.dropLast_concat]
      rw [hleft, List.concat_eq_append, ← List.append_assoc, List.dropLast_concat] at hdrop
      have hslash : '/' ∈ " -> ".toList ++ w' ++ " *".toList := by
        rw [hdrop]
        simp [ending]
      have hword : '/' ∈ w' := by simpa using hslash
      have : isNameChar '/' = false := by decide
      rw [hw'.2 _ hword] at this
      cases this
  · exact ⟨z, hz⟩

/-- What goes on to the first end of an annotation on its line, and no other, is taken by the last part of the matcher. -/
theorem upTo_annotationEnd_eq_some_iff : upTo onLine annotationEnd cs = some n ↔
    ∃ x w y, IsWord w ∧ (∀ c ∈ x, onLine c = true) ∧
      (∀ x' w' y', IsWord w' → x ++ ending w = x' ++ (ending w' ++ y') → x.length ≤ x'.length) ∧
      cs = x ++ (ending w ++ y) ∧ n = (x ++ ending w).length := by
  rw [upTo_eq_some_iff]
  constructor
  · rintro ⟨x, rest, k, rfl, hend, rfl, hline, hfirst⟩
    obtain ⟨w, y, hw, rfl, rfl⟩ := annotationEnd_eq_some_iff.1 hend
    refine ⟨x, w, y, hw, hline, fun x' w' y' hw' hx' => ?_, rfl, List.length_append.symm⟩
    by_contra hlt
    rcases List.append_eq_append_iff.1 hx' with ⟨b, rfl, -⟩ | ⟨b, rfl, hb⟩
    · exact hlt (by simp)
    · -- the end that begins earlier would have been taken
      have hne : b ≠ [] := fun hnil => hlt (by simp [hnil])
      have hearlier : b ++ (ending w ++ y) = ending w' ++ (y' ++ y) := by
        rw [← List.append_assoc, ← hb, List.append_assoc]
      have hsome := annotationEnd_eq_some_iff.2 ⟨w', y' ++ y, hw', hearlier, rfl⟩
      cases (hfirst x' b rfl hne).symm.trans hsome
  · rintro ⟨x, w, y, hw, hline, hfirst, rfl, rfl⟩
    refine ⟨x, ending w ++ y, _, rfl, annotationEnd_eq_some_iff.2 ⟨w, y, hw, rfl, rfl⟩, List.length_append, hline,
      fun a b hab hb => ?_⟩
    by_contra hnone
    obtain ⟨k, hk⟩ := Option.ne_none_iff_exists'.1 hnone
    obtain ⟨w', y', hw', hb', -⟩ := annotationEnd_eq_some_iff.1 hk
    rw [← List.append_assoc] at hb'
    obtain ⟨y'', hy''⟩ := ending_within hw' hb'
    have hle := hfirst a w' y'' hw' (by rw [hab, List.append_assoc, hy''])
    rw [hab, List.length_append] at hle
    exact hb (List.eq_nil_of_length_eq_zero (by omega))

/-- **The matcher for annotations takes just those.** -/
theorem annotationMatcher_eq_some_iff : annotationMatcher cs = some n ↔ ∃ a y, IsAnnotation a ∧ cs = a ++ y ∧
    n = a.length := by
  unfold annotationMatcher
  rw [sequence_cons, sequence_cons, sequence_singleton]
  constructor
  · intro h
    obtain ⟨i, j, hi, hj, rfl⟩ := andThen_eq_some_iff.1 h
    have hlead : ∃ lead afterLead, (lead = [] ∨ lead = [' ']) ∧ cs = lead ++ afterLead ∧ i = lead.length := by
      rcases optional_word_eq_some_iff.1 hi with ⟨⟨afterLead, rfl⟩, rfl⟩ | ⟨-, rfl⟩
      · exact ⟨[' '], afterLead, .inr rfl, rfl, rfl⟩
      · exact ⟨[], cs, .inl rfl, rfl, rfl⟩
    obtain ⟨lead, afterLead, hlead, rfl, rfl⟩ := hlead
    rw [List.drop_left] at hj
    obtain ⟨k, l, hk, hl, rfl⟩ := andThen_eq_some_iff.1 hj
    obtain ⟨⟨afterOpening, rfl⟩, rfl⟩ := word_eq_some_iff.1 hk
    rw [List.drop_left] at hl
    obtain ⟨x, w, y, hw, hline, hfirst, rfl, rfl⟩ := upTo_annotationEnd_eq_some_iff.1 hl
    exact ⟨lead ++ ("/* GACHI: ".toList ++ (x ++ ending w)), y, ⟨lead, x, w, hlead, rfl, hw, hline, hfirst⟩,
      by simp only [List.append_assoc], by simp only [List.length_append]⟩
  · rintro ⟨a, y, ⟨lead, x, w, hlead, rfl, hw, hline, hfirst⟩, rfl, rfl⟩
    rw [List.append_assoc, List.append_assoc]
    refine andThen_eq_some_iff.2 ⟨lead.length, ("/* GACHI: ".toList ++ (x ++ ending w)).length, ?_, ?_,
      List.length_append⟩
    · refine optional_word_eq_some_iff.2 ?_
      rcases hlead with rfl | rfl
      · exact .inr ⟨by simp, rfl⟩
      · exact .inl ⟨List.prefix_append _ _, rfl⟩
    · rw [List.drop_left, List.append_assoc]
      refine andThen_eq_some_iff.2 ⟨_, (x ++ ending w).length, word_append _ _, ?_, List.length_append⟩
      rw [List.drop_left]
      exact upTo_annotationEnd_eq_some_iff.2 ⟨x, w, y, hw, hline, hfirst, rfl, rfl⟩

theorem IsAnnotation.ne_nil {a : List Char} (h : IsAnnotation a) : a ≠ [] := by
  obtain ⟨lead, x, w, -, rfl, -⟩ := h
  simp

theorem IsAnnotation.replaceAll {a : List Char} (h : IsAnnotation a) (rest : List Char) :
    replaceAll annotationMatcher [] (a ++ rest) = replaceAll annotationMatcher [] rest :=
  replaceAll_append h.ne_nil (annotationMatcher_eq_some_iff.2 ⟨a, rest, h, rfl, rfl⟩)

theorem Annotations.replaceAll {a : List Char} (h : Annotations a) (rest : List Char) :
    replaceAll annotationMatcher [] (a ++ rest) = replaceAll annotationMatcher [] rest := by
  induction h with
  | nil => rfl
  | cons ha _ ih => rw [List.append_assoc, ha.replaceAll, ih]

/-- **Taking annotations away leaves nothing just of annotations.** -/
theorem annotations_iff : ∀ {n : Nat} {a : List Char}, a.length ≤ n →
    (replaceAll annotationMatcher [] a = [] ↔ Annotations a)
  | _, [], _ => ⟨fun _ => .nil, fun _ => rfl⟩
  | 0, _ :: _, hn => absurd hn (by simp)
  | n + 1, c :: cs, hn => by
    constructor
    · intro h
      cases hm : annotationMatcher (c :: cs) with
      | none =>
        rw [replaceAll_cons hm] at h
        cases h
      | some k =>
        obtain ⟨a, y, ha, hsplit, rfl⟩ := annotationMatcher_eq_some_iff.1 hm
        have hpos : 0 < a.length := List.length_pos_iff.2 ha.ne_nil
        have hy : y.length ≤ n := by
          have := congrArg List.length hsplit
          rw [List.length_append] at this
          omega
        rw [hsplit, ha.replaceAll] at h
        rw [hsplit]
        exact .cons ha ((annotations_iff hy).1 h)
    · intro h
      have := h.replaceAll []
      rw [List.append_nil] at this
      exact this

/-! ## Comments put into a text -/

/-- What an annotation begins with, without the space at its end. -/
def opening : List Char := "/* GACHI:".toList

/-- What a decoration begins with. -/
def sayingOpening : List Char := "/* ♂ ".toList

/-- **A text with comments put in between its characters.** -/
inductive Commented (p : List Char → Prop) : List Char → List Char → Prop where
  | nil : Commented p [] []
  | char {cs ds : List Char} (c : Char) : Commented p cs ds → Commented p (c :: cs) (c :: ds)
  | comment {cs ds a : List Char} : p a → Commented p cs ds → Commented p cs (a ++ ds)

def IsOpened (a : List Char) : Prop :=
  " /* GACHI: ".toList <+: a

variable {p : List Char → Prop}

theorem Commented.append (h : Commented p cs ds) : ∀ (x : List Char), Commented p (x ++ cs) (x ++ ds)
  | [] => h
  | c :: x => .char c (h.append x)

theorem Commented.refl (cs : List Char) : Commented p cs cs := by
  simpa using Commented.nil.append cs

/-- An opening that is met in the commented text was there before: it does not reach into a comment. -/
theorem Commented.opening_starts (hp : ∀ a, p a → IsOpened a) (h : Commented p cs ds) : ∀ {m : List Char},
    m <:+ opening → m <+: ds → m <+: cs := by
  induction h with
  | nil => exact fun _ h => h
  | char c _ ih =>
    intro m hm hds
    cases m with
    | nil => exact List.nil_prefix
    | cons d m =>
      obtain ⟨rfl, hrest⟩ := List.cons_prefix_cons.1 hds
      exact List.cons_prefix_cons.2 ⟨rfl, ih ((List.suffix_cons d m).trans hm) hrest⟩
  | @comment cs ds a ha _ _ =>
    intro m hm hds
    have hopened : " /* GACHI: ".toList <+: a ++ ds := (hp a ha).trans (List.prefix_append _ _)
    have hlen : m.length ≤ " /* GACHI: ".toList.length := hm.length_le.trans (by decide)
    have hall : ∀ m ∈ opening.tails, m <+: " /* GACHI: ".toList → m = [] := by decide
    rw [hall m ((List.mem_tails _ _).2 hm) (List.prefix_of_prefix_length_le hds hopened hlen)]
    exact List.nil_prefix

/-- A character of the text itself begins no annotation, if the text has no opening. -/
theorem Commented.annotationMatcher_eq_none {c : Char} (hp : ∀ a, p a → IsOpened a) (h : Commented p cs ds)
    (hcs : ¬opening <:+: c :: cs) : annotationMatcher (c :: ds) = none := by
  cases hm : annotationMatcher (c :: ds) with
  | none => rfl
  | some k =>
    obtain ⟨a, y, ⟨lead, x, w, hlead, rfl, -⟩, hsplit, -⟩ := annotationMatcher_eq_some_iff.1 hm
    have hopening : "/* GACHI: ".toList = opening ++ [' '] := by decide
    rw [hopening] at hsplit
    rcases hlead with rfl | rfl
    · have hds : opening <+: c :: ds := by
        rw [hsplit]
        simp
      exact (hcs ((h.char c).opening_starts hp List.suffix_rfl hds).isInfix).elim
    · have hds : opening <+: ds := by
        rw [(List.cons.inj hsplit).2]
        simp
      exact (hcs ((h.opening_starts hp List.suffix_rfl hds).isInfix.trans (List.suffix_cons c cs).isInfix)).elim

theorem replaceAll_opened {a : List Char} (ha : IsOpened a) : ∀ {cs : List Char}, ¬opening <:+: cs →
    replaceAll annotationMatcher [] (cs ++ a) = cs ++ replaceAll annotationMatcher [] a
  | [], _ => rfl
  | c :: cs, hcs => by
    have hrest : ¬opening <:+: cs := fun h => hcs (h.trans (List.suffix_cons c cs).isInfix)
    have hcommented : Commented IsOpened cs (cs ++ a) := by
      have h : Commented IsOpened [] (a ++ []) := .comment ha .nil
      simpa using h.append cs
    rw [List.cons_append, replaceAll_cons (hcommented.annotationMatcher_eq_none (fun _ h => h) hcs),
      replaceAll_opened ha hrest, List.cons_append]

theorem Commented.replaceAll (hp : ∀ a, p a → Annotations a ∧ IsOpened a) (h : Commented p cs ds) :
    ¬opening <:+: cs → replaceAll annotationMatcher [] ds = cs := by
  induction h with
  | nil => exact fun _ => rfl
  | @char cs ds c h ih =>
    intro hcs
    rw [replaceAll_cons (h.annotationMatcher_eq_none (fun a ha => (hp a ha).2) hcs),
      ih fun hin => hcs (hin.trans (List.suffix_cons c cs).isInfix)]
  | comment ha _ ih =>
    intro hcs
    rw [(hp _ ha).1.replaceAll, ih hcs]

theorem replaceAll_annotation (h : ¬opening <:+: cs) : replaceAll annotationMatcher [] cs = cs := by
  have hrefl : Commented (fun _ => False) cs cs := Commented.refl cs
  exact hrefl.replaceAll (fun _ hfalse => hfalse.elim) h

theorem replaceAll_decoration (h : ¬sayingOpening <:+: cs) : replaceAll decorationMatcher [] cs = cs := by
  refine replaceAll_of_none fun xs hxs => ?_
  cases hm : decorationMatcher xs with
  | none => rfl
  | some k =>
    unfold decorationMatcher at hm
    rw [sequence_cons, sequence_singleton] at hm
    obtain ⟨i, j, hi, -, -⟩ := andThen_eq_some_iff.1 hm
    exact (h ((word_eq_some_iff.1 hi).1.isInfix.trans hxs.isInfix)).elim

/-- **Annotations that were put into a text without openings are taken away again.** -/
theorem stripChars_of_commented (hp : ∀ a, p a → Annotations a ∧ IsOpened a) (h : Commented p cs ds)
    (hopening : ¬opening <:+: cs) (hsaying : ¬sayingOpening <:+: cs) : stripChars ds = cs := by
  unfold stripChars
  rw [h.replaceAll hp hopening, replaceAll_decoration hsaying]

/-- What is left of a comment behind a text shows whether it is made of annotations. -/
theorem annotations_of_stripChars {a : List Char} (ha : IsOpened a) (hopening : ¬opening <:+: cs)
    (hmark : '♂' ∉ cs ++ a) (h : stripChars (cs ++ a) = cs) : Annotations a := by
  unfold stripChars at h
  rw [replaceAll_opened ha hopening, replaceAll_decoration] at h
  · exact (annotations_iff (Nat.le_refl _)).1 (by simpa using h)
  · intro hin
    have hmem : '♂' ∈ cs ++ Matcher.replaceAll annotationMatcher [] a := hin.subset (by decide)
    rcases List.mem_append.1 hmem with hmem | hmem
    · exact hmark (List.mem_append_left _ hmem)
    · exact hmark (List.mem_append_right _ ((replaceFrom_sublist 0 a).subset hmem))

end Comment
end Argot
