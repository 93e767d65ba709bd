import Argot.Proofs.Conversion.WholeWords
import Argot.Proofs.Vocabulary.Records
import Mathlib.Data.List.SplitBy
import Mathlib.Data.Nat.Find
/-!
# LeftmostLongest — the way back reads a text once, from left to right

At each place the way back looks for the longest form that stands there (`longest`), replaces it and goes on behind it,
or keeps one character (`scan`).  It asks what stands before and after a form in the text as it was, never in what has
been put in.  Where every form is a word of name characters, that is to replace each run of name characters that is a
form (`replaceRuns`).
-/
namespace Argot
namespace Reverse

open Text

/-- **A form stands at a place of a text**: behind the characters `done`, the next `n` spell a form that goes back, and
no name goes on before or after them. -/
structure StandsAt (t : Table) (done rest : List Char) (n : Nat) : Prop where
  le_length : n ≤ rest.length
  reversible : t.isReversible (String.ofList (rest.take n)) = true
  before : done.getLast?.any isNameChar = false
  after : (rest.drop n).head?.any isNameChar = false

instance (t : Table) (done rest : List Char) : DecidablePred (StandsAt t done rest) := fun n =>
  decidable_of_iff
    (n ≤ rest.length ∧ t.isReversible (String.ofList (rest.take n)) = true ∧ done.getLast?.any isNameChar = false ∧
      (rest.drop n).head?.any isNameChar = false)
    ⟨fun h => ⟨h.1, h.2.1, h.2.2.1, h.2.2.2⟩, fun h => ⟨h.1, h.2, h.3, h.4⟩⟩

/-- The length of the longest form that stands at a place, 0 if there is none. -/
def longest (t : Table) (done rest : List Char) : Nat :=
  Nat.findGreatest (StandsAt t done rest) rest.length

/-- **The way back, read from left to right** behind the characters `done`: the longest form gives way to its host word,
and a character at which no form stands is kept. -/
def scan (t : Table) (done : List Char) : List Char → List CodePoint
  | [] => []
  | c :: rest =>
    match longest t done (c :: rest) with
    | 0 => .char c :: scan t (done ++ [c]) rest
    | n + 1 =>
      (t.reverse (String.ofList (c :: rest.take n))).points ++ scan t (done ++ c :: rest.take n) (rest.drop n)
termination_by rest => rest.length

/-- The text with each run of name characters that is a form replaced; what stands between two of them is kept. -/
def replaceRuns (t : Table) (cs : List Char) : List CodePoint :=
  (cs.splitBy fun a b => isNameChar a == isNameChar b).flatMap fun w =>
    if t.isReversible (String.ofList w) then (t.reverse (String.ofList w)).points else CodePoint.ofChars w

variable {t : Table} {fs : List String} {forms : List (List Char)} {host : List Char → List CodePoint}
  {done rest form : List Char} {n : Nat}

/-! ## The longest form at a place -/

theorem longest_eq_zero_iff (hempty : t.isReversible "" = false) :
    longest t done rest = 0 ↔ ∀ n, ¬StandsAt t done rest n := by
  unfold longest
  rw [Nat.findGreatest_eq_zero_iff]
  refine ⟨fun h n hn => ?_, fun h n _ _ => h n⟩
  refine h (Nat.pos_of_ne_zero fun hzero => ?_) hn.le_length hn
  have := hn.reversible
  rw [hzero, List.take_zero] at this
  exact Bool.noConfusion (hempty.symm.trans this)

theorem longest_eq (hn : StandsAt t done rest n) (hlongest : ∀ m, StandsAt t done rest m → m ≤ n) :
    longest t done rest = n :=
  Nat.findGreatest_eq_iff.2 ⟨hn.le_length, fun _ => hn, fun m hlt _ hm => by
    have := hlongest m hm
    omega⟩

theorem standsAt_iff (hfs : ∀ w : String, w ∈ fs ↔ t.isReversible w = true)
    (hbefore : done.getLast?.any isNameChar = false) :
    StandsAt t done rest n ↔ ∃ form ∈ fs.map String.toList, fits rest form = true ∧ form.length = n := by
  constructor
  · intro h
    refine ⟨rest.take n, List.mem_map.2 ⟨_, (hfs _).2 h.reversible, String.toList_ofList⟩, ?_,
      List.length_take_of_le h.le_length⟩
    unfold fits
    rw [List.length_take_of_le h.le_length, h.after, List.isPrefixOf_iff_prefix.2 (List.take_prefix n rest)]
    rfl
  · rintro ⟨form, hform, hfits, rfl⟩
    obtain ⟨w, hw, rfl⟩ := List.mem_map.1 hform
    unfold fits at hfits
    rw [Bool.and_eq_true, List.isPrefixOf_iff_prefix, Bool.not_eq_true'] at hfits
    obtain ⟨hfront, hafter⟩ := hfits
    refine ⟨hfront.length_le, ?_, hbefore, hafter⟩
    rw [← List.prefix_iff_eq_take.1 hfront, String.ofList_toList]
    exact (hfs w).1 hw

/-- In a list with the longer ones first, the first that satisfies a test is the longest that does. -/
theorem length_le_of_find? {p : List Char → Bool} (hsorted : forms.Pairwise fun a b => b.length ≤ a.length)
    (hfind : forms.find? p = some form) {other : List Char} (hother : other ∈ forms) (hp : p other = true) :
    other.length ≤ form.length := by
  obtain ⟨-, earlier, later, rfl, hearlier⟩ := List.find?_eq_some_iff_append.1 hfind
  rcases List.mem_append.1 hother with hother | hother
  · have := hearlier other hother
    rw [hp] at this
    cases this
  rcases List.mem_cons.1 hother with rfl | hother
  · exact le_rfl
  · exact List.rel_of_pairwise_cons (List.pairwise_append.1 hsorted).2.1 hother

/-- **Of forms that are tried longest first, the one that is found is the longest that stands there.** -/
theorem formAt?_eq_longest (hfs : ∀ w : String, w ∈ fs ↔ t.isReversible w = true)
    (hsorted : fs.Pairwise fun a b => b.length ≤ a.length) (hempty : t.isReversible "" = false) :
    formAt? (fs.map String.toList) done.getLast? rest =
      if longest t done rest = 0 then none else some (rest.take (longest t done rest)) := by
  unfold formAt?
  cases hbefore : done.getLast?.any isNameChar with
  | true =>
    have hzero : longest t done rest = 0 := (longest_eq_zero_iff hempty).2 fun n hn => by
      rw [hn.before] at hbefore
      cases hbefore
    rw [if_pos rfl, if_pos hzero]
  | false =>
    rw [if_neg Bool.false_ne_true]
    cases hfind : (fs.map String.toList).find? (fits rest) with
    | none =>
      rw [List.find?_eq_none] at hfind
      rw [if_pos]
      refine (longest_eq_zero_iff hempty).2 fun n hn => ?_
      obtain ⟨form, hform, hfits, -⟩ := (standsAt_iff hfs hbefore).1 hn
      exact hfind form hform hfits
    | some form =>
      have hform : form ∈ fs.map String.toList := List.mem_of_find?_eq_some hfind
      have hfits : fits rest form = true := List.find?_some hfind
      have hstands := (standsAt_iff hfs hbefore).2 ⟨form, hform, hfits, rfl⟩
      have hlongest : longest t done rest = form.length := longest_eq hstands fun m hm => by
        obtain ⟨other, hother, hotherFits, rfl⟩ := (standsAt_iff hfs hbefore).1 hm
        exact length_le_of_find? (List.pairwise_map.2 hsorted) hfind hother hotherFits
      have hne : form.length ≠ 0 := fun hzero => (longest_eq_zero_iff hempty).1 (hlongest.trans hzero) _ hstands
      have hfront : form <+: rest := by
        unfold fits at hfits
        rw [Bool.and_eq_true, List.isPrefixOf_iff_prefix] at hfits
        exact hfits.1
      rw [hlongest, if_neg hne, ← List.prefix_iff_eq_take.1 hfront]

/-- **Forms tried longest first are replaced as the scan does it.** -/
theorem replaceFrom_eq_scan (hfs : ∀ w : String, w ∈ fs ↔ t.isReversible w = true)
    (hsorted : fs.Pairwise fun a b => b.length ≤ a.length) (hempty : t.isReversible "" = false)
    (done rest : List Char) :
    replaceFrom (fs.map String.toList) (fun form => (t.reverse (String.ofList form)).points) done.getLast? 0 rest =
      scan t done rest := by
  fun_induction scan t done rest with
  | case1 done =>
    have hzero : longest t done [] = 0 := rfl
    rw [replaceFrom, formAt?_eq_longest hfs hsorted hempty, if_pos hzero]
    rfl
  | case2 done c rest hzero ih =>
    rw [replaceFrom, formAt?_eq_longest hfs hsorted hempty, if_pos hzero]
    dsimp only
    rw [← ih, List.getLast?_concat]
  | case3 done c rest n hlongest ih =>
    have hlast : (done ++ c :: rest.take n).getLast? = (rest.take n).getLast?.or (some c) := by
      rw [List.getLast?_append_of_ne_nil _ (List.cons_ne_nil _ _), getLast?_cons_eq_or]
    have hskip : replaceFrom (fs.map String.toList) (fun form => (t.reverse (String.ofList form)).points) (some c)
        (rest.take n).length (rest.take n ++ rest.drop n) = _ := replaceFrom_skip _ _ _
    rw [List.take_append_drop, ← hlast, ih] at hskip
    rw [replaceFrom, formAt?_eq_longest hfs hsorted hempty, hlongest, if_neg n.succ_ne_zero, List.take_succ_cons]
    dsimp only
    rw [hskip]

/-! ## Forms that are words -/

/-- Where no form is found, the text stays. -/
theorem replaceFrom_copies {rest : List Char} : ∀ (xs : List Char) {before : Option Char},
    (∀ a c b, xs = a ++ c :: b → formAt? forms (a.getLast?.or before) (c :: (b ++ rest)) = none) →
    replaceFrom forms host before 0 (xs ++ rest) =
      CodePoint.ofChars xs ++ replaceFrom forms host (xs.getLast?.or before) 0 rest
  | [], _, _ => rfl
  | c :: xs, before, h => by
    have hnone : formAt? forms before (c :: (xs ++ rest)) = none := h [] c xs rfl
    have hlater : replaceFrom forms host (some c) 0 (xs ++ rest) = _ := replaceFrom_copies xs fun a d b hxs => by
      have hd := h (c :: a) d b (congrArg (c :: ·) hxs)
      rwa [getLast?_cons_eq_or, Option.or_assoc, Option.some_or] at hd
    rw [List.cons_append, replaceFrom, hnone]
    dsimp only
    rw [hlater, getLast?_cons_eq_or, Option.or_assoc, Option.some_or]
    rfl

/-- A run of name characters is replaced if it is a form, and stays otherwise. -/
theorem replaceFrom_run (hforms : AreWords forms) {before : Option Char} {w rest : List Char} (hne : w ≠ [])
    (hname : ∀ c ∈ w, isNameChar c = true) (hbefore : before.any isNameChar = false)
    (hafter : ∀ c ∈ rest.head?, isNameChar c = false) :
    replaceFrom forms host before 0 (w ++ rest) =
      (if w ∈ forms then host w else CodePoint.ofChars w) ++ replaceFrom forms host w.getLast? 0 rest := by
  obtain ⟨c, w, rfl⟩ := List.exists_cons_of_ne_nil hne
  have hform := formAt?_eq hforms before (c :: w ++ rest)
  rw [takeWhile_append_stop hname hafter] at hform
  by_cases hmem : c :: w ∈ forms
  · rw [if_pos ⟨hbefore, hmem⟩] at hform
    rw [if_pos hmem, getLast?_cons_eq_or, ← replaceFrom_skip]
    rw [List.cons_append] at hform ⊢
    rw [replaceFrom, hform]
  · rw [if_neg fun h => hmem h.2] at hform
    rw [if_neg hmem, replaceFrom_copies, List.getLast?_eq_some_getLast hne, Option.some_or]
    intro a d b hw
    cases a with
    | nil =>
      obtain ⟨rfl, rfl⟩ := List.cons.inj hw
      exact hform
    | cons x a =>
      -- inside of the word
      have hlast : isNameChar ((x :: a).getLast (List.cons_ne_nil x a)) = true :=
        hname _ (hw ▸ List.mem_append_left _ (List.getLast_mem _))
      unfold formAt?
      rw [List.getLast?_eq_some_getLast (List.cons_ne_nil x a), Option.some_or, Option.any_some, if_pos hlast]

/-- The first run of a text, with what comes after it. -/
theorem splitBy_run {c : Char} {w rest : List Char} (hsame : ∀ d ∈ c :: w, isNameChar d = isNameChar c)
    (hother : ∀ d ∈ rest.head?, isNameChar d ≠ isNameChar c) :
    (c :: w ++ rest).splitBy (fun a b => isNameChar a == isNameChar b) =
      (c :: w) :: rest.splitBy fun a b => isNameChar a == isNameChar b := by
  have hchain : (c :: w).IsChain fun a b => isNameChar a == isNameChar b :=
    (List.pairwise_of_forall_mem_list fun a ha b hb => beq_iff_eq.2 ((hsame a ha).trans (hsame b hb).symm)).isChain
  rw [List.splitBy_append, List.splitBy_of_isChain (List.cons_ne_nil c w) hchain, List.singleton_append]
  intro x hx d hd
  rw [hsame x (List.mem_of_getLast? hx)]
  exact beq_eq_false_iff_ne.2 (hother d hd).symm

/-- **Forms that are words are replaced run by run.** -/
theorem replaceFrom_eq_runs (hforms : AreWords forms) (before : Option Char) (cs : List Char)
    (hbefore : ∀ c ∈ before, ∀ d ∈ cs.head?, isNameChar d ≠ isNameChar c) :
    replaceFrom forms host before 0 cs = (cs.splitBy fun a b => isNameChar a == isNameChar b).flatMap fun w =>
      if w ∈ forms then host w else CodePoint.ofChars w := by
  have hnil : ([] : List Char) ∉ forms := fun h => (hforms _ h).1 rfl
  match cs with
  | [] =>
    rw [List.splitBy_nil, replaceFrom, formAt?_eq hforms, List.takeWhile_nil, if_neg fun h => hnil h.2]
    rfl
  | c :: cs =>
    -- the run that the text begins with, and what comes after it
    obtain ⟨rest, hcs, hsame, hother⟩ := exists_run (fun d => isNameChar d == isNameChar c) cs
    generalize cs.takeWhile (fun d => isNameChar d == isNameChar c) = w at hcs hsame
    subst hcs
    replace hsame : ∀ d ∈ c :: w, isNameChar d = isNameChar c :=
      List.forall_mem_cons.2 ⟨rfl, fun d hd => beq_iff_eq.1 (hsame d hd)⟩
    replace hother : ∀ d ∈ rest.head?, isNameChar d ≠ isNameChar c := fun d hd => beq_eq_false_iff_ne.1 (hother d hd)
    have hrest := replaceFrom_eq_runs hforms (c :: w).getLast? rest fun x hx d hd => by
      rw [hsame x (List.mem_of_getLast? hx)]
      exact hother d hd
    rw [← List.cons_append, splitBy_run hsame hother, List.flatMap_cons, ← hrest]
    cases hc : isNameChar c with
    | true =>
      refine replaceFrom_run hforms (List.cons_ne_nil c w) (fun d hd => (hsame d hd).trans hc) ?_ fun d hd => ?_
      · cases before with
        | none => rfl
        | some b =>
          have := hbefore b rfl c rfl
          rw [hc] at this
          simpa using this.symm
      · simpa [hc] using hother d hd
    | false =>
      have hmem : c :: w ∉ forms := fun h => by
        have := (hforms _ h).2 c List.mem_cons_self
        rw [hc] at this
        cases this
      rw [if_neg hmem, replaceFrom_copies, List.getLast?_eq_some_getLast (List.cons_ne_nil c w), Option.some_or]
      intro a d b hw
      have hd : isNameChar d = false := (hsame d (hw ▸ by simp)).trans hc
      rw [formAt?_eq hforms, List.takeWhile_cons_of_neg (by simp [hd]), if_neg fun h => hnil h.2]
termination_by cs.length
decreasing_by
  rw [List.length_cons, hcs, List.length_append]
  omega

theorem pairwise_textForms {forms : List Spelling} (h : forms.Pairwise fun a b => Table.formBefore a b = true) :
    (textForms forms).Pairwise fun a b => b.length ≤ a.length := by
  refine h.filterMap _ fun a a' hbefore b hb b' hb' => ?_
  have hlength : ∀ {s : Spelling} {w : String}, s.text? = some w → s.codes.length = w.length := fun {s w} hs => by
    cases s with
    | text s =>
      cases hs
      simp [Spelling.codes, Spelling.points, CodePoint.ofChars, String.length_toList]
    | broken => cases hs
  have := Table.formBefore_iff.1 hbefore
  rw [hlength hb, hlength hb'] at this
  omega

/-- **The way back is leftmost-longest.**  Where no form that goes back is empty, a text goes back as it is scanned once
from left to right, generated comments aside; where all these forms are words of name characters, each run of name
characters that is such a form is replaced and everything else stays. -/
theorem convert_leftmost_longest (ht : t.Reachable) (hempty : t.isReversible "" = false) (text : String) :
    convert t text = .ofPoints (scan t [] (Comment.stripChars text.toList)) ∧
    ((∀ w : String, t.isReversible w = true → ∀ c ∈ w.toList, isNameChar c = true) →
      convert t text = .ofPoints (replaceRuns t (Comment.stripChars text.toList))) := by
  have hfs : ∀ w : String, w ∈ textForms (Table.searchOrder t.reversibleForms) ↔ t.isReversible w = true := fun w =>
    mem_textForms.trans (Table.mem_searchOrder.trans Table.mem_reversibleForms)
  have hsorted := pairwise_textForms (List.pairwise_mergeSort Table.formBefore_trans Table.formBefore_total t.reversibleForms)
  have hconvert := convert_eq_replaceTexts ht.settled text
  refine ⟨?_, fun hname => ?_⟩
  · rw [hconvert, replaceTexts, ← replaceFrom_eq_scan hfs hsorted hempty]
    rfl
  · have hforms : AreWords ((textForms (Table.searchOrder t.reversibleForms)).map String.toList) := by
      intro form hform
      obtain ⟨w, hw, rfl⟩ := List.mem_map.1 hform
      have hreversible := (hfs w).1 hw
      refine ⟨fun hnil => ?_, hname w hreversible⟩
      rw [String.toList_eq_nil_iff.1 hnil, hempty] at hreversible
      cases hreversible
    have hmem : ∀ w : List Char, w ∈ (textForms (Table.searchOrder t.reversibleForms)).map String.toList ↔
        t.isReversible (String.ofList w) = true := by
      intro w
      rw [← hfs, List.mem_map]
      refine ⟨?_, fun h => ⟨_, h, String.toList_ofList⟩⟩
      rintro ⟨w, hw, rfl⟩
      rwa [String.ofList_toList]
    rw [hconvert, replaceTexts, replaceFrom_eq_runs hforms none _ fun _ h => nomatch h]
    unfold replaceRuns
    simp only [hmem]

/-- Forms that begin alike: the longest one that no name goes on after is replaced. -/
theorem convert_leftmost_longest_dashes :
    let t := Table.ofLists [(.keyword, [("for", "a-b-c"), ("if", "a-b"), ("let", "a")])]
    let words := Table.ofLists [(.keyword, [("if", "a_b"), ("let", "a")])]
    convert t "a-b-cd a-b-c a" = .text "if-cd for let" ∧
      Spelling.ofPoints (scan t [] "a-b-cd a-b-c a".toList) = .text "if-cd for let" ∧
      (∀ w : String, words.isReversible w = true → ∀ c ∈ w.toList, isNameChar c = true) ∧
      Spelling.ofPoints (replaceRuns words "a_b-a ab".toList) = .text "if-let ab" := by
  intro t words
  have ht : t.Reachable := Table.reachable_ofLists _ _
  have hwords : words.Reachable := Table.reachable_ofLists _ _
  have hforms : t.reversibleForms = ["a-b-c", "a-b", "a"].map Spelling.text := by decide
  have hwordForms : words.reversibleForms = ["a_b", "a"].map Spelling.text := by decide
  have hsearch : Table.searchOrder t.reversibleForms = ["a-b-c", "a-b", "a"].map Spelling.text :=
    hforms ▸ List.mergeSort_of_pairwise (by decide)
  have hwordSearch : Table.searchOrder words.reversibleForms = ["a_b", "a"].map Spelling.text :=
    hwordForms ▸ List.mergeSort_of_pairwise (by decide)
  have hconvert : convert t "a-b-cd a-b-c a" = .text "if-cd for let" := by
    rw [convert_eq_replaceTexts ht.settled, hsearch]
    decide +kernel
  have hconvertWords : convert words "a_b-a ab" = .text "if-let ab" := by
    rw [convert_eq_replaceTexts hwords.settled, hwordSearch]
    decide +kernel
  have hname : ∀ w : String, words.isReversible w = true → ∀ c ∈ w.toList, isNameChar c = true := by
    intro w hw
    rw [← Table.mem_reversibleForms, hwordForms, ← mem_textForms] at hw
    rcases List.mem_cons.1 hw with rfl | hw
    · exact List.all_eq_true.1 (by decide)
    rcases List.mem_singleton.1 hw with rfl
    exact List.all_eq_true.1 (by decide)
  obtain ⟨hscan, -⟩ := convert_leftmost_longest ht (by decide) "a-b-cd a-b-c a"
  obtain ⟨-, hruns⟩ := convert_leftmost_longest hwords (by decide) "a_b-a ab"
  have hstrip : Comment.stripChars "a-b-cd a-b-c a".toList = "a-b-cd a-b-c a".toList := by decide +kernel
  have hstripWords : Comment.stripChars "a_b-a ab".toList = "a_b-a ab".toList := by decide +kernel
  rw [hstrip] at hscan
  rw [hstripWords] at hruns
  exact ⟨hconvert, hscan.symm.trans hconvert, hname, (hruns hname).symm.trans hconvertWords⟩

end Reverse
end Argot
