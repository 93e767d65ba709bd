import Argot.Proofs.Conversion.Annotation
import Argot.Proofs.Conversion.Locality
import Argot.Proofs.Conversion.WholeWords
import Argot.Proofs.Text.Steps
/-!
# FidelityNotes — what the way back will replace is reported

A name that is kept is reported if its whole text is a form that goes back, while the way back looks for forms in the
text that is left when generated comments are taken away.  The way back goes over that text in steps (`stepsFrom`); a
word that stands by itself there (`StandsAlone`) is gone over in steps of its own, which replace it just if it is a form
(`turns_word`).  So of such a word the note says what becomes of it (`noted_iff_changed`).
-/
namespace Argot

open Text

namespace Reverse

variable {forms : List (List Char)} {host : List Char → List CodePoint}

/-! ## Steps of the way back -/

/-- The steps in which forms are replaced, after the first `skip` characters; the last one is at the end of the text. -/
def stepsFrom (forms : List (List Char)) (host : List Char → List CodePoint) :
    (before : Option Char) → (skip : Nat) → List Char → List (Step CodePoint)
  | before, _, [] => [⟨[], ((formAt? forms before []).map host).getD []⟩]
  | _, skip + 1, c :: rest => stepsFrom forms host (some c) skip rest
  | before, 0, c :: rest =>
    match formAt? forms before (c :: rest) with
    | none => ⟨[c], [.char c]⟩ :: stepsFrom forms host (some c) 0 rest
    | some [] => ⟨[c], host [] ++ [.char c]⟩ :: stepsFrom forms host (some c) 0 rest
    | some (x :: form) =>
      ⟨c :: rest.take form.length, host (x :: form)⟩ :: stepsFrom forms host (some c) form.length rest

theorem before_stepsFrom : ∀ (before : Option Char) (skip : Nat) (cs : List Char),
    Step.before (stepsFrom forms host before skip cs) = cs.drop skip
  | before, skip, [] => by simp [stepsFrom]
  | before, skip + 1, c :: rest => by
    rw [stepsFrom, before_stepsFrom (some c) skip rest, List.drop_succ_cons]
  | before, 0, c :: rest => by
    rw [stepsFrom]
    split
    · rw [Step.before_cons, before_stepsFrom]
      rfl
    · rw [Step.before_cons, before_stepsFrom]
      rfl
    · rw [Step.before_cons, before_stepsFrom]
      simp

theorem after_stepsFrom : ∀ (before : Option Char) (skip : Nat) (cs : List Char),
    Step.after (stepsFrom forms host before skip cs) = replaceFrom forms host before skip cs
  | before, skip, [] => by simp [stepsFrom, replaceFrom]
  | before, skip + 1, c :: rest => by
    rw [stepsFrom, replaceFrom, after_stepsFrom (some c) skip rest]
  | before, 0, c :: rest => by
    rw [stepsFrom, replaceFrom]
    cases formAt? forms before (c :: rest) with
    | none =>
      dsimp only
      rw [Step.after_cons, after_stepsFrom]
      rfl
    | some form =>
      cases form with
      | nil =>
        dsimp only
        rw [Step.after_cons, after_stepsFrom]
        simp
      | cons x form =>
        dsimp only
        rw [Step.after_cons, after_stepsFrom]

theorem stepsFrom_skip (before : Option Char) : ∀ (xs rest : List Char),
    stepsFrom forms host before xs.length (xs ++ rest) = stepsFrom forms host (xs.getLast?.or before) 0 rest
  | [], rest => rfl
  | x :: xs, rest => by
    rw [List.cons_append, List.length_cons, stepsFrom, stepsFrom_skip (some x) xs rest, getLast?_cons_eq_or,
      Option.or_assoc, Option.some_or]

/-- **No form that begins in a part of a text goes on after it**, behind a character. -/
def Within (forms : List (List Char)) (before : Option Char) (pre rest : List Char) : Prop :=
  ∀ a b form, pre = a ++ b → b ≠ [] → formAt? forms (a.getLast?.or before) (b ++ rest) = some form →
    form.length ≤ b.length

theorem Within.tail {before : Option Char} {c : Char} {pre rest : List Char} (h : Within forms before (c :: pre) rest) :
    Within forms (some c) pre rest := by
  intro a b form hpre hb hform
  refine h (c :: a) b form (by rw [hpre]; rfl) hb ?_
  rwa [getLast?_cons_eq_or, Option.or_assoc, Option.some_or]

/-- Steps end where such a part ends, and each takes some of it. -/
theorem exists_steps_of_within (host : List Char → List CodePoint) {rest : List Char} : ∀ {pre : List Char}
    {before : Option Char} {skip : Nat}, skip ≤ pre.length → Within forms before pre rest →
    ∃ first, stepsFrom forms host before skip (pre ++ rest) =
      first ++ stepsFrom forms host (pre.getLast?.or before) 0 rest ∧ (∀ s ∈ first, s.taken ≠ []) ∧
        Step.before first = pre.drop skip
  | [], before, skip, hskip, _ => by
    obtain rfl : skip = 0 := Nat.le_zero.1 hskip
    exact ⟨[], rfl, List.forall_mem_nil _, rfl⟩
  | c :: pre, before, skip + 1, hskip, h => by
    obtain ⟨first, hfirst, htakes⟩ := exists_steps_of_within host (Nat.le_of_succ_le_succ hskip) h.tail
    refine ⟨first, ?_, htakes⟩
    rw [List.cons_append, stepsFrom, hfirst, getLast?_cons_eq_or, Option.or_assoc, Option.some_or]
  | c :: pre, before, 0, _, h => by
    have hlast : pre.getLast?.or (some c) = (c :: pre).getLast?.or before := by
      rw [getLast?_cons_eq_or, Option.or_assoc, Option.some_or]
    -- a step over one character, then the steps over the others
    have hone : ∀ given, ∃ first, ⟨[c], given⟩ :: stepsFrom forms host (some c) 0 (pre ++ rest) =
        first ++ stepsFrom forms host ((c :: pre).getLast?.or before) 0 rest ∧ (∀ s ∈ first, s.taken ≠ []) ∧
          Step.before first = c :: pre := by
      intro given
      obtain ⟨first, hfirst, htakes, htaken⟩ := exists_steps_of_within host (Nat.zero_le pre.length) h.tail
      exact ⟨⟨[c], given⟩ :: first, by rw [hfirst, hlast]; rfl, List.forall_mem_cons.2 ⟨List.cons_ne_nil c [], htakes⟩,
        by rw [Step.before_cons, htaken]; rfl⟩
    rw [List.cons_append, stepsFrom]
    cases hform : formAt? forms before (c :: (pre ++ rest)) with
    | none => exact hone _
    | some form =>
      cases form with
      | nil => exact hone _
      | cons x form =>
        have hlen : form.length ≤ pre.length :=
          Nat.le_of_succ_le_succ (h [] (c :: pre) (x :: form) rfl (List.cons_ne_nil c pre) hform)
        obtain ⟨first, hfirst, htakes, htaken⟩ := exists_steps_of_within host hlen h.tail
        refine ⟨⟨c :: (pre ++ rest).take form.length, host (x :: form)⟩ :: first, ?_,
          List.forall_mem_cons.2 ⟨List.cons_ne_nil c _, htakes⟩, ?_⟩
        · dsimp only
          rw [hfirst, hlast]
          rfl
        · rw [Step.before_cons, htaken, List.take_append_of_le_length hlen]
          simp

/-- Inside of a word nothing is replaced. -/
theorem stepsFrom_of_name {rest : List Char} : ∀ (before : Option Char) {xs : List Char},
    before.any isNameChar = true → (∀ c ∈ xs, isNameChar c = true) →
    stepsFrom forms host before 0 (xs ++ rest) =
      xs.map (Step.one .char) ++ stepsFrom forms host (xs.getLast?.or before) 0 rest
  | _, [], _, _ => rfl
  | before, c :: xs, hbefore, hxs => by
    have hnone : formAt? forms before (c :: (xs ++ rest)) = none := by
      unfold formAt?
      rw [if_pos hbefore]
    have hc : isNameChar c = true := hxs c List.mem_cons_self
    rw [List.cons_append, stepsFrom, hnone]
    dsimp only
    rw [stepsFrom_of_name (some c) hc fun d hd => hxs d (List.mem_cons_of_mem c hd), getLast?_cons_eq_or,
      Option.or_assoc, Option.some_or]
    rfl

section
variable {pre w post : List Char} (host : List Char → List CodePoint) (hwithin : Within forms none pre (w ++ post))
include hwithin

/-- The steps before a part of a text end where it begins, if no form that begins before goes on after that. -/
theorem turns_of_within {middle : List (Step CodePoint)} (htakes : ∀ s ∈ middle, s.taken ≠ []) (htaken : Step.before middle = w)
    (hsteps : stepsFrom forms host pre.getLast? 0 (w ++ post) = middle ++ stepsFrom forms host w.getLast? 0 post) :
    ∃ pre' post', Step.Turns (stepsFrom forms host none 0 (pre ++ w ++ post)) pre w post pre' (Step.after middle) post' := by
  obtain ⟨first, hfirst, htakesFirst, hpre⟩ := exists_steps_of_within host (Nat.zero_le pre.length) hwithin
  rw [Option.or_none] at hfirst
  refine ⟨_, _, first, middle, stepsFrom forms host w.getLast? 0 post, ?_,
    List.forall_mem_append.2 ⟨htakesFirst, htakes⟩, ⟨hpre, htaken, ?_⟩, rfl, rfl, rfl⟩
  · rw [List.append_assoc, hfirst, hsteps, List.append_assoc]
  · exact before_stepsFrom _ _ _

/-- A form that fits at a part of a text, and is just that part, is replaced. -/
theorem turns_of_form (hne : w ≠ []) (hform : formAt? forms pre.getLast? (w ++ post) = some w) : ∃ pre' post',
    Step.Turns (stepsFrom forms host none 0 (pre ++ w ++ post)) pre w post pre' (host w) post' := by
  have hsteps : stepsFrom forms host pre.getLast? 0 (w ++ post) =
      [⟨w, host w⟩] ++ stepsFrom forms host w.getLast? 0 post := by
    clear hwithin
    cases w with
    | nil => exact (hne rfl).elim
    | cons c w =>
      rw [List.cons_append] at hform ⊢
      rw [stepsFrom, hform]
      dsimp only
      rw [List.take_left, stepsFrom_skip, getLast?_cons_eq_or]
      rfl
  have hturns := turns_of_within host hwithin (by simpa using hne) (by simp) hsteps
  simpa using hturns

/-- A word at which no form fits stays. -/
theorem turns_of_none (hne : w ≠ []) (hname : ∀ c ∈ w, isNameChar c = true)
    (hform : formAt? forms pre.getLast? (w ++ post) = none) : ∃ pre' post',
    Step.Turns (stepsFrom forms host none 0 (pre ++ w ++ post)) pre w post pre' (CodePoint.ofChars w) post' := by
  have hsteps : stepsFrom forms host pre.getLast? 0 (w ++ post) =
      w.map (Step.one .char) ++ stepsFrom forms host w.getLast? 0 post := by
    clear hwithin
    cases w with
    | nil => exact (hne rfl).elim
    | cons c w =>
      rw [List.cons_append] at hform ⊢
      rw [stepsFrom, hform]
      dsimp only
      rw [stepsFrom_of_name (some c) (hname c List.mem_cons_self) fun d hd => hname d (List.mem_cons_of_mem c hd),
        getLast?_cons_eq_or]
      rfl
  have hturns := turns_of_within host hwithin (fun s hs => Step.taken_ne_nil_of_mem_ones hs) (Step.before_ones _ _) hsteps
  rwa [Step.after_ones] at hturns

end

/-! ## A word by itself -/

/-- **No form that holds a character of no name reaches into a part of a text.** -/
def Clear (forms : List (List Char)) (pre w post : List Char) : Prop :=
  ∀ form ∈ forms, (∃ c ∈ form, isNameChar c = false) → ∀ a b, pre ++ w ++ post = a ++ form ++ b →
    (a ++ form).length ≤ pre.length ∨ (pre ++ w).length ≤ a.length

section
variable {pre w post : List Char} (hrun : Run (pre ++ w ++ post) pre w post) (hclear : Clear forms pre w post)
include hrun hclear

theorem within_of_clear : Within forms none pre (w ++ post) := by
  intro a b form hpre hb hform
  have hmem : form ∈ forms := by
    unfold formAt? at hform
    split at hform
    · cases hform
    · exact List.mem_of_find?_eq_some hform
  have hfits : fits (b ++ (w ++ post)) form = true := by
    unfold formAt? at hform
    split at hform
    · cases hform
    · exact List.find?_some hform
  by_cases hname : ∀ c ∈ form, isNameChar c = true
  · -- such a form is a run, which ends before the word does not begin one
    by_contra hlen
    have hwhole := (fits_iff hname).1 hfits
    have hbName : ∀ c ∈ b, isNameChar c = true := by
      have hbegins : b <+: form := by
        have hform' : form <+: b ++ (w ++ post) := hwhole ▸ List.takeWhile_prefix _
        exact List.prefix_of_prefix_length_le (List.prefix_append b _) hform' (by omega)
      exact fun c hc => hname c (hbegins.subset hc)
    have hlast : pre.getLast? = some (b.getLast hb) := by
      rw [hpre, List.getLast?_append, List.getLast?_eq_some_getLast hb]
      rfl
    have hbefore := hrun.before
    rw [hlast, Option.any_some, hbName _ (List.getLast_mem hb)] at hbefore
    cases hbefore
  · have hother : ∃ c ∈ form, isNameChar c = false := by simpa using hname
    unfold fits at hfits
    rw [Bool.and_eq_true, List.isPrefixOf_iff_prefix] at hfits
    obtain ⟨rest, hrest⟩ := hfits.1
    have hpos : 0 < b.length := List.length_pos_iff.2 hb
    have hends := hclear form hmem hother a rest (by rw [List.append_assoc a form, hrest, hpre]; simp)
    rw [hpre] at hends
    simp only [List.length_append] at hends
    omega

theorem formAt?_word : formAt? forms pre.getLast? (w ++ post) = if w ∈ forms then some w else none := by
  have hbefore := hrun.before
  have hafter := head?_any_eq_false.1 hrun.after
  have hfits : ∀ form ∈ forms, fits (w ++ post) form = true ↔ form = w := by
    intro form hmem
    by_cases hname : ∀ c ∈ form, isNameChar c = true
    · rw [fits_iff hname, takeWhile_append_stop hrun.name hafter]
    · have hother : ∃ c ∈ form, isNameChar c = false := by simpa using hname
      refine iff_of_false (fun hfits => ?_) (fun hw => hname (hw ▸ hrun.name))
      unfold fits at hfits
      rw [Bool.and_eq_true, List.isPrefixOf_iff_prefix] at hfits
      obtain ⟨rest, hrest⟩ := hfits.1
      have hends := hclear form hmem hother pre rest (by rw [List.append_assoc, ← hrest, List.append_assoc])
      have hw : 0 < w.length := List.length_pos_iff.2 hrun.ne_nil
      have hform : 0 < form.length := by
        obtain ⟨c, hc, -⟩ := hother
        exact List.length_pos_of_mem hc
      simp only [List.length_append] at hends
      omega
  unfold formAt?
  rw [hbefore, if_neg Bool.false_ne_true]
  split
  · rename_i hmem
    cases hfind : forms.find? (fits (w ++ post)) with
    | none => exact absurd ((hfits w hmem).2 rfl) (List.find?_eq_none.1 hfind w hmem)
    | some form =>
      rw [(hfits form (List.mem_of_find?_eq_some hfind)).1 (List.find?_some hfind)]
  · rename_i hmem
    rw [List.find?_eq_none]
    intro form hform hfit
    exact hmem ((hfits form hform).1 hfit ▸ hform)

/-- **A word that stands by itself is replaced just if it is a form.** -/
theorem turns_word (host : List Char → List CodePoint) : ∃ pre' post',
    Step.Turns (stepsFrom forms host none 0 (pre ++ w ++ post)) pre w post
      pre' (if w ∈ forms then host w else CodePoint.ofChars w) post' := by
  have hwithin := within_of_clear hrun hclear
  have hform := formAt?_word hrun hclear
  by_cases hmem : w ∈ forms
  · rw [if_pos hmem] at hform ⊢
    exact turns_of_form host hwithin hrun.ne_nil hform
  · rw [if_neg hmem] at hform ⊢
    exact turns_of_none host hwithin hrun.ne_nil hrun.name hform

end

/-! ## The way back of a table -/

variable {t : Table}

/-- The forms that the way back looks for in a text. -/
def textPattern (t : Table) : List String :=
  textForms (t.pattern?.getD [])

def backSteps (t : Table) (cs : List Char) : List (Step CodePoint) :=
  stepsFrom ((textPattern t).map String.toList) (fun form => (t.reverse (String.ofList form)).points) none 0 cs

/-- **What becomes of a part of a text on the way back**, over the two passes that take comments away and the one that
replaces forms. -/
def TurnsBack (t : Table) (pre w post : List Char) (pre' w' post' : List CodePoint) : Prop :=
  ∃ pre₁ w₁ post₁ pre₂ w₂ post₂,
    Step.Turns (Matcher.cuts Comment.annotationMatcher (pre ++ w ++ post)) pre w post pre₁ w₁ post₁ ∧
    Step.Turns (Matcher.cuts Comment.decorationMatcher (pre₁ ++ w₁ ++ post₁)) pre₁ w₁ post₁ pre₂ w₂ post₂ ∧
    Step.Turns (backSteps t (pre₂ ++ w₂ ++ post₂)) pre₂ w₂ post₂ pre' w' post'

/-- **A part of a text that is spared when generated comments are taken away**, between what is left before it and after
it. -/
def Spared (pre w post pre' post' : List Char) : Prop :=
  ∃ pre₁ post₁,
    Step.Turns (Matcher.cuts Comment.annotationMatcher (pre ++ w ++ post)) pre w post pre₁ w post₁ ∧
    Step.Turns (Matcher.cuts Comment.decorationMatcher (pre₁ ++ w ++ post₁)) pre₁ w post₁ pre' w post'

/-- **A word that stands by itself on the way back**, between what is left of a text before it and after it: no comment
that is taken away reaches into it, it is a whole run of what is left, and no form that holds other characters than those
of names reaches into it. -/
structure StandsAlone (t : Table) (pre w post pre' post' : List Char) : Prop where
  spared : Spared pre w post pre' post'
  run : Run (pre' ++ w ++ post') pre' w post'
  clear : ∀ form : String, t.isReversible form = true → (∃ c ∈ form.toList, isNameChar c = false) →
    ∀ a b, pre' ++ w ++ post' = a ++ form.toList ++ b →
      (a ++ form.toList).length ≤ pre'.length ∨ (pre' ++ w).length ≤ a.length

/-- In a text without openings of generated comments, no step that takes comments away goes over the ends of a part. -/
theorem turns_of_plain (pre w post : List Char) (hopening : ¬Comment.opening <:+: pre ++ w ++ post)
    (hsaying : ¬Comment.sayingOpening <:+: pre ++ w ++ post) :
    Step.Turns (Matcher.cuts Comment.annotationMatcher (pre ++ w ++ post)) pre w post pre w post ∧
    Step.Turns (Matcher.cuts Comment.decorationMatcher (pre ++ w ++ post)) pre w post pre w post :=
  ⟨Matcher.turns_cuts_of_unchanged (Comment.replaceAll_annotation hopening),
    Matcher.turns_cuts_of_unchanged (Comment.replaceAll_decoration hsaying)⟩

theorem spared_of_plain {pre w post : List Char} (hopening : ¬Comment.opening <:+: pre ++ w ++ post)
    (hsaying : ¬Comment.sayingOpening <:+: pre ++ w ++ post) : Spared pre w post pre post :=
  ⟨pre, post, turns_of_plain pre w post hopening hsaying⟩

theorem mem_textPattern (ht : t.Settled) {w : String} : w ∈ textPattern t ↔ t.isReversible w = true := by
  rw [textPattern, mem_textForms, ht.pattern?, ← Table.mem_reversibleForms]
  split
  · rename_i hnil
    simp [hnil]
  · exact Table.mem_searchOrder

theorem points_convert (t : Table) (text : String) :
    (convert t text).points = Step.after (backSteps t (Comment.stripChars text.toList)) := by
  unfold convert backSteps textPattern
  rw [after_stepsFrom]
  cases t.pattern? with
  | none =>
    have hnone : textForms ((none : Option (List Spelling)).getD []) = [] := rfl
    rw [hnone, List.map_nil, replaceFrom_nil]
    simp [Spelling.points]
  | some forms =>
    dsimp only
    rw [Spelling.points_ofPoints, replaceForms_ofChars]
    rfl

variable {pre w post : List Char}

/-- What is left of a text by what the two passes leave of its parts. -/
theorem stripChars_of_turns {pre₁ w₁ post₁ pre₂ w₂ post₂ : List Char}
    (h₁ : Step.Turns (Matcher.cuts Comment.annotationMatcher (pre ++ w ++ post)) pre w post pre₁ w₁ post₁)
    (h₂ : Step.Turns (Matcher.cuts Comment.decorationMatcher (pre₁ ++ w₁ ++ post₁)) pre₁ w₁ post₁ pre₂ w₂ post₂) :
    Comment.stripChars (pre ++ w ++ post) = pre₂ ++ w₂ ++ post₂ := by
  rw [Comment.stripChars, ← Matcher.after_cuts (pre ++ w ++ post), h₁.after_eq, ← Matcher.after_cuts, h₂.after_eq]

/-- The way back goes over what is left around a part that is spared. -/
theorem Spared.points_convert {pre' post' : List Char} (h : Spared pre w post pre' post') :
    (convert t (String.ofList (pre ++ w ++ post))).points = Step.after (backSteps t (pre' ++ w ++ post')) := by
  obtain ⟨pre₁, post₁, h₁, h₂⟩ := h
  rw [Reverse.points_convert, String.toList_ofList, stripChars_of_turns h₁ h₂]

theorem TurnsBack.points_convert {pre' w' post' : List CodePoint} (h : TurnsBack t pre w post pre' w' post') :
    (convert t (String.ofList (pre ++ w ++ post))).points = pre' ++ w' ++ post' := by
  obtain ⟨pre₁, w₁, post₁, pre₂, w₂, post₂, h₁, h₂, h₃⟩ := h
  rw [Reverse.points_convert, String.toList_ofList, stripChars_of_turns h₁ h₂, h₃.after_eq]

/-- A part of a text becomes one thing only on the way back. -/
theorem TurnsBack.unique {first word last first₁ word₁ last₁ : List CodePoint} (h : TurnsBack t pre w post first word last)
    (h₁ : TurnsBack t pre w post first₁ word₁ last₁) : first = first₁ ∧ word = word₁ ∧ last = last₁ := by
  obtain ⟨_, _, _, _, _, _, hannotations, hdecorations, hforms⟩ := h
  obtain ⟨_, _, _, _, _, _, hannotations₁, hdecorations₁, hforms₁⟩ := h₁
  obtain ⟨rfl, rfl, rfl⟩ := hannotations.unique hannotations₁
  obtain ⟨rfl, rfl, rfl⟩ := hdecorations.unique hdecorations₁
  exact hforms.unique hforms₁

/-- **A word that stands by itself goes back to its host word if it is reversible, and stays otherwise.** -/
theorem StandsAlone.turnsBack (ht : t.Settled) {pre' post' : List Char} (h : StandsAlone t pre w post pre' post') :
    ∃ first last, TurnsBack t pre w post first
      (if t.isReversible (String.ofList w) = true then (t.reverse (String.ofList w)).points else CodePoint.ofChars w)
      last := by
  have hclear : Clear ((textPattern t).map String.toList) pre' w post' := by
    intro form hform hother a b hab
    obtain ⟨s, hs, rfl⟩ := List.mem_map.1 hform
    exact h.clear s ((mem_textPattern ht).1 hs) hother a b hab
  have hmem : w ∈ (textPattern t).map String.toList ↔ t.isReversible (String.ofList w) = true := by
    rw [← mem_textPattern ht, List.mem_map]
    constructor
    · rintro ⟨s, hs, rfl⟩
      rwa [String.ofList_toList]
    · exact fun hs => ⟨_, hs, String.toList_ofList⟩
  obtain ⟨pre₁, post₁, h₁, h₂⟩ := h.spared
  obtain ⟨first, last, hturns⟩ := turns_word h.run hclear fun form => (t.reverse (String.ofList form)).points
  simp only [hmem] at hturns
  exact ⟨first, last, pre₁, w, post₁, pre', w, post', h₁, h₂, hturns⟩

end Reverse

namespace Forward

variable {t : Table} {o : Options} {n : Node}

/-! ## Notes about names that are kept -/

/-- **An information about a token is given**, at its place. -/
def Noted (t : Table) (o : Options) (n : Node) : Prop :=
  ∃ d ∈ (visitLeaf t o n).2, d.severity = .info ∧ d.position = some ⟨n.line, n.column⟩

theorem noted_iff (hname : n.kind.isNameLike = true) (hkeep : treat t o n = .keep) :
    Noted t o n ↔ t.isReversible n.text = true := by
  have hcomment : (n.kind == .comment) = false := by
    revert hname
    cases n.kind <;> decide
  have hnotes : (visitLeaf t o n).2 = if t.isReversible n.text then [fidelityNote t n] else [] := by
    unfold visitLeaf
    rw [hcomment, hkeep, hname]
    rfl
  unfold Noted
  rw [hnotes]
  cases t.isReversible n.text with
  | true => exact iff_of_true ⟨_, List.mem_singleton_self _, rfl, rfl⟩ rfl
  | false => exact iff_of_false (fun ⟨_, hd, _⟩ => by cases hd) Bool.false_ne_true

/-- **A name that is kept is reported just if it is reversible, and what it becomes on the way back follows from that.**
Where it stands by itself in the output, the way back changes it just if it is reported, unless it is its own host word. -/
theorem noted_iff_changed (ht : t.Reachable) {source : String} {tree : Tree} {nodes : List Node}
    (hwf : tree.WellFormed source.toList) (hnodes : Node.ofTree (bytesOf source) tree = .ok nodes)
    (hquoted : ∀ n ∈ nodes, n.ByteQuoted) {g : Twister} {out : Outcome}
    (hrun : (convert t o g (bytesOf source) tree).1 = .ok out) (hn : n ∈ nodes) (hleaf : n.isLeaf = true)
    (hname : n.kind.isNameLike = true) (hkeep : treat t o n = .keep) :
    (out.diagnostics = notes t o nodes ∧ n ∈ tokens nodes ∧ (Noted t o n ↔ t.isReversible n.text = true)) ∧
    ∃ l₁ gap l₂ tail before after, Walked source.toList tree nodes (l₁ ++ (gap, n) :: l₂) tail ∧
      Spelling.joined (written t o g l₁) = .ok before ∧
      out.code.toList = before ++ gap ++ n.text.toList ++ after ∧
      ∀ pre post, Reverse.StandsAlone t (before ++ gap) n.text.toList after pre post →
        (∃ first word last, Reverse.TurnsBack t (before ++ gap) n.text.toList after first word last) ∧
        ∀ first word last, Reverse.TurnsBack t (before ++ gap) n.text.toList after first word last →
          (Reverse.convert t out.code).points = first ++ word ++ last ∧
          (word ≠ CodePoint.ofChars n.text.toList ↔ Noted t o n ∧ t.reverse n.text ≠ n.text) := by
  have hdecl : n.kind.isDeclaration = false := by
    revert hname
    cases n.kind <;> decide
  have hcomment : n.kind ≠ .comment := by
    rintro hkind
    rw [hkind] at hname
    cases hname
  obtain ⟨nodes', l, tail, hwalked⟩ := exists_walked hwf
  obtain rfl : nodes' = nodes := Except.ok.inj (hwalked.nodes_eq.symm.trans hnodes)
  obtain ⟨n₁, n₂, hsplit⟩ := List.append_of_mem hn
  obtain ⟨l₁, gap, l₂, rfl, -⟩ := hwalked.exists_split_at hsplit hleaf
  obtain ⟨hdiagnostics, before, self, after, -, hbefore, hself, -, hcode⟩ := exists_around hwalked hquoted
    (by rw [hdecl]; rfl) hrun
  have hkept : Spelling.joined (own t o n) = .ok n.text.toList := by
    rw [own, if_pos hleaf]
    exact joined_becomes_of_unchanged hcomment fun e he => by rw [hkeep] at he; cases he
  obtain rfl : self = n.text.toList := Except.ok.inj (hself.symm.trans hkept)
  have hnoted := noted_iff (o := o) hname hkeep
  refine ⟨⟨hdiagnostics, ?_, hnoted⟩, l₁, gap, l₂, tail, before, after, hwalked, hbefore, hcode, fun pre post halone => ?_⟩
  · exact List.mem_filter.2 ⟨hn, by rw [hleaf, hdecl]; rfl⟩
  · obtain ⟨first', last', hback'⟩ := halone.turnsBack ht.settled
    rw [String.ofList_toList] at hback'
    refine ⟨⟨first', _, last', hback'⟩, fun first word last hback => ?_⟩
    obtain ⟨-, rfl, -⟩ := hback'.unique hback
    constructor
    · have hpoints := hback.points_convert
      rwa [← hcode, String.ofList_toList] at hpoints
    · rw [hnoted]
      split
      · rename_i hreversible
        refine ⟨fun hne => ⟨hreversible, fun heq => hne ?_⟩, fun hne hsame => hne.2 ?_⟩
        · rw [heq]
          rfl
        · rw [← Spelling.ofPoints_points (t.reverse n.text), hsame]
          exact Spelling.ofPoints_points (.text n.text)
      · rename_i hreversible
        exact iff_of_false (fun hne => hne rfl) fun h => hreversible h.1

/-- A name that is spelled like a form is reported, and the way back changes it. -/
theorem form_in_source_is_noted :
    let t := Table.ofLists [(.keyword, [("this", "thisBoy")])]
    let n : Node := .token .identifier .other "identifier" "thisBoy" 0 7
    let tree : Tree := .inner "program" 0 7 none [.token "identifier" true 0 7]
    tree.WellFormed "thisBoy".toList ∧ treat t {} n = .keep ∧ Noted t {} n ∧
    ∃ first word last, Reverse.TurnsBack t [] "thisBoy".toList [] first word last ∧
      word ≠ CodePoint.ofChars "thisBoy".toList := by
  intro t n tree
  have hwf : tree.WellFormed "thisBoy".toList := by decide
  have hkeep : treat t {} n = .keep := by decide
  let nodes : List Node := [.inner .other .other "program" 0 7, n]
  have hnodes : Node.ofTree (bytesOf "thisBoy") tree = .ok nodes := by decide +kernel
  have hstrings : ∀ m ∈ nodes, m.kind ≠ .stringLiteral := by decide
  have hrun : (convert t {} (Twister.ofSeed 0) (bytesOf "thisBoy") tree).1 =
      .ok { code := "thisBoy", diagnostics := [fidelityNote t n] } := by
    have hvisit : visit t {} (Twister.ofSeed 0) nodes = ([], [fidelityNote t n], Twister.ofSeed 0) := rfl
    have hcopy : Edit.applyAll (bytesOf "thisBoy") [] = .ok "thisBoy" := by cbv
    exact convert_eq_ok_of_visit hnodes hvisit hcopy
  obtain ⟨⟨-, -, hnoted⟩, l₁, gap, l₂, tail, before, after, -, -, hcode, hback⟩ := noted_iff_changed
    (Table.reachable_ofLists _ _) hwf hnodes (fun m hm hs => (hstrings m hm hs).elim) hrun (by simp [nodes]) rfl rfl hkeep
  obtain ⟨hbefore, rfl⟩ : before ++ gap = [] ∧ after = [] := by
    have hlen := congrArg List.length hcode
    simp only [List.length_append] at hlen
    have hsame : "thisBoy".toList.length = n.text.toList.length := rfl
    constructor
    · exact List.eq_nil_of_length_eq_zero (by rw [List.length_append]; omega)
    · exact List.eq_nil_of_length_eq_zero (by omega)
  rw [hbefore] at hback
  have hforms : t.reversibleForms = [.text "thisBoy"] := by decide
  have halone : Reverse.StandsAlone t [] "thisBoy".toList [] [] [] := by
    have hword : ∀ c ∈ "thisBoy".toList, isNameChar c = true := List.all_eq_true.1 (by decide)
    refine ⟨Reverse.spared_of_plain (by decide) (by decide), ⟨rfl, by decide, hword, rfl, rfl⟩,
      fun form hform hother => ?_⟩
    rw [← Table.mem_reversibleForms, hforms, List.mem_singleton] at hform
    obtain rfl := Spelling.text.inj hform
    obtain ⟨c, hc, hno⟩ := hother
    rw [hword c hc] at hno
    cases hno
  obtain ⟨⟨first, word, last, hturns⟩, hword⟩ := hback [] [] halone
  have hyes : Noted t {} n := hnoted.2 (by decide)
  exact ⟨hwf, hkeep, hyes, first, word, last, hturns, (hword first word last hturns).2.2 ⟨hyes, by decide⟩⟩

/-- **A private name is changed on the way back and not reported**: the form is found behind the sharp, while the note asks
for the whole name. -/
theorem private_name_is_not_noted :
    let t := Table.ofLists [(.keyword, [("this", "thisBoy")])]
    let n : Node := .token .propertyName .memberAccess "private_property_identifier" "#thisBoy" 2 10 "property"
    let tree : Tree := .inner "member_expression" 0 10 none
      [.token "identifier" true 0 1 "object", .token "." false 1 2,
        .token "private_property_identifier" true 2 10 "property"]
    tree.WellFormed "a.#thisBoy".toList ∧ (∃ nodes, Node.ofTree (bytesOf "a.#thisBoy") tree = .ok nodes ∧ n ∈ nodes) ∧
    treat t {} n = .keep ∧ (∀ g, (convert t {} g (bytesOf "a.#thisBoy") tree).1 = .ok { code := "a.#thisBoy" }) ∧
    ¬Noted t {} n ∧ Reverse.TurnsBack t "a.".toList "#thisBoy".toList [] (CodePoint.ofChars "a.".toList)
      (CodePoint.ofChars "#this".toList) [] := by
  intro t n tree
  have hwf : tree.WellFormed "a.#thisBoy".toList := by decide
  have hkeep : treat t {} n = .keep := by decide
  let nodes : List Node := [.inner .memberAccess .other "member_expression" 0 10,
    .token .identifier .memberAccess "identifier" "a" 0 1 "object", .token .operator .memberAccess "." "." 1 2, n]
  have hnodes : Node.ofTree (bytesOf "a.#thisBoy") tree = .ok nodes := by decide +kernel
  have hrun : ∀ g, (convert t {} g (bytesOf "a.#thisBoy") tree).1 = .ok { code := "a.#thisBoy" } := by
    intro g
    have hvisit : visit t {} g nodes = ([], [], g) := rfl
    have hcopy : Edit.applyAll (bytesOf "a.#thisBoy") [] = .ok "a.#thisBoy" := by cbv
    exact convert_eq_ok_of_visit hnodes hvisit hcopy
  have hnoted : ¬Noted t {} n := by
    rw [noted_iff rfl hkeep]
    decide
  have hsteps : Reverse.backSteps t ("a.".toList ++ "#thisBoy".toList ++ []) =
      [⟨['a'], [.char 'a']⟩, ⟨['.'], [.char '.']⟩] ++ [⟨['#'], [.char '#']⟩,
        ⟨"thisBoy".toList, CodePoint.ofChars "this".toList⟩] ++ [⟨[], []⟩] := by cbv
  have hturns : Step.Turns (Reverse.backSteps t ("a.".toList ++ "#thisBoy".toList ++ [])) "a.".toList "#thisBoy".toList []
      (CodePoint.ofChars "a.".toList) (CodePoint.ofChars "#this".toList) [] :=
    ⟨_, _, _, hsteps, by decide, ⟨rfl, rfl, rfl⟩, rfl, rfl, rfl⟩
  have hspared := Reverse.turns_of_plain "a.".toList "#thisBoy".toList [] (by decide) (by decide)
  exact ⟨hwf, ⟨nodes, hnodes, by simp [nodes]⟩, hkeep, hrun, hnoted, _, _, _, _, _, _, hspared.1, hspared.2, hturns⟩

end Forward
end Argot
