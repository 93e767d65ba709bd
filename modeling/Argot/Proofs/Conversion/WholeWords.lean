import Argot.Proofs.Conversion.TextForms
import Argot.Proofs.Text.Matching
import Argot.Proofs.Vocabulary.WayBack
/-!
# WholeWords — the way back goes from word to word

Where every form is a word of name characters, a form fits at a place just if it is the whole run of name characters that
begins there (`formAt?_eq`).  So a text in which words were swapped for forms, each between characters of no name, goes back
to the text before as long as no other run is a form (`replaceFrom_after`).
-/
namespace Argot

open Text

/-- **A maximal run of name characters** in a text, with what stands before and after it. -/
structure Text.Run (cs pre w post : List Char) : Prop where
  text_eq : cs = pre ++ w ++ post
  ne_nil : w ≠ []
  name : ∀ c ∈ w, isNameChar c = true
  before : pre.getLast?.any isNameChar = false
  after : post.head?.any isNameChar = false

namespace Reverse

variable {forms : List (List Char)} {host : List Char → List CodePoint}

def AreWords (forms : List (List Char)) : Prop :=
  ∀ form ∈ forms, form ≠ [] ∧ ∀ c ∈ form, isNameChar c = true

theorem head?_any_eq_false {p : Char → Bool} {cs : List Char} : cs.head?.any p = false ↔ ∀ c ∈ cs.head?, p c = false := by
  cases cs.head? <;> simp

theorem fits_iff {cs form : List Char} (hform : ∀ c ∈ form, isNameChar c = true) :
    fits cs form = true ↔ form = cs.takeWhile isNameChar := by
  unfold fits
  rw [Bool.and_eq_true, List.isPrefixOf_iff_prefix, Bool.not_eq_true']
  constructor
  · rintro ⟨⟨y, rfl⟩, hafter⟩
    rw [List.drop_left, head?_any_eq_false] at hafter
    rw [takeWhile_append_stop hform hafter]
  · intro h
    obtain ⟨y, hcs, -, hy⟩ := exists_run isNameChar cs
    rw [← h] at hcs
    rw [hcs]
    exact ⟨List.prefix_append _ _, by rw [List.drop_left, head?_any_eq_false]; exact hy⟩

/-- **A form that is found is the whole run of name characters.** -/
theorem formAt?_eq (hforms : AreWords forms) (before : Option Char) (cs : List Char) : formAt? forms before cs =
    if before.any isNameChar = false ∧ cs.takeWhile isNameChar ∈ forms then some (cs.takeWhile isNameChar) else none := by
  unfold formAt?
  cases hb : before.any isNameChar with
  | true => simp
  | false =>
    by_cases hmem : cs.takeWhile isNameChar ∈ forms
    · simp only [Bool.false_eq_true, if_false, hmem, and_self, if_true]
      cases hfind : forms.find? (fits cs) with
      | none =>
        rw [List.find?_eq_none] at hfind
        exact (hfind _ hmem ((fits_iff (hforms _ hmem).2).2 rfl)).elim
      | some form =>
        have hfits := List.find?_some hfind
        rw [(fits_iff (hforms _ (List.mem_of_find?_eq_some hfind)).2).1 hfits]
    · simp only [Bool.false_eq_true, if_false, hmem, and_false, List.find?_eq_none]
      intro form hform hfits
      rw [(fits_iff (hforms _ hform).2).1 hfits] at hform
      exact hmem hform

theorem getLast?_cons_eq_or (c : Char) (cs : List Char) : (c :: cs).getLast? = cs.getLast?.or (some c) := by
  rw [List.getLast?_cons]
  cases cs.getLast? <;> rfl

theorem replaceFrom_skip (before : Option Char) : ∀ (xs rest : List Char),
    replaceFrom forms host before xs.length (xs ++ rest) = replaceFrom forms host (xs.getLast?.or before) 0 rest
  | [], rest => rfl
  | x :: xs, rest => by
    rw [List.cons_append, List.length_cons, replaceFrom, replaceFrom_skip (some x) xs rest, getLast?_cons_eq_or,
      Option.or_assoc, Option.some_or]

/-! ## Texts with words swapped -/

/-- A piece of a text: a character that stays, or a word that gives way to another. -/
inductive Piece where
  | keep (c : Char)
  | swap (old new : List Char)

namespace Piece

def before : List Piece → List Char
  | [] => []
  | keep c :: ps => c :: before ps
  | swap old _ :: ps => old ++ before ps

def after : List Piece → List Char
  | [] => []
  | keep c :: ps => c :: after ps
  | swap _ new :: ps => new ++ after ps

/-- **Pieces from which the way back finds the words that were swapped**, behind a character: those are runs of their own
and go back to what they were, and no run that stays is a form. -/
def Clean (forms : List (List Char)) (host : List Char → List CodePoint) : Option Char → List Piece → Prop
  | _, [] => True
  | b, keep c :: ps =>
    (b.any isNameChar = false → (c :: before ps).takeWhile isNameChar ∉ forms) ∧ Clean forms host (some c) ps
  | b, swap old new :: ps =>
    b.any isNameChar = false ∧ (old ≠ [] ∧ ∀ c ∈ old, isNameChar c = true) ∧ (before ps).head?.any isNameChar = false ∧
      new ∈ forms ∧ host new = CodePoint.ofChars old ∧ Clean forms host old.getLast? ps

theorem before_append : ∀ (ps qs : List Piece), before (ps ++ qs) = before ps ++ before qs
  | [], _ => rfl
  | keep c :: ps, qs => congrArg (c :: ·) (before_append ps qs)
  | swap old new :: ps, qs => by
    rw [List.cons_append, before, before, before_append ps qs, List.append_assoc]

theorem before_keeps : ∀ (cs : List Char), before (cs.map keep) = cs
  | [] => rfl
  | c :: cs => congrArg (c :: ·) (before_keeps cs)

theorem after_append : ∀ (ps qs : List Piece), after (ps ++ qs) = after ps ++ after qs
  | [], _ => rfl
  | keep c :: ps, qs => congrArg (c :: ·) (after_append ps qs)
  | swap old new :: ps, qs => by
    rw [List.cons_append, after, after, after_append ps qs, List.append_assoc]

theorem after_keeps : ∀ (cs : List Char), after (cs.map keep) = cs
  | [] => rfl
  | c :: cs => congrArg (c :: ·) (after_keeps cs)

/-- No word that is swapped begins inside a run. -/
theorem takeWhile_after : ∀ {ps : List Piece} {b : Option Char}, Clean forms host b ps → b.any isNameChar = true →
    (after ps).takeWhile isNameChar = (before ps).takeWhile isNameChar
  | [], _, _, _ => rfl
  | keep c :: ps, b, h, hb => by
    rw [after, before, List.takeWhile_cons, List.takeWhile_cons]
    split
    · rename_i hc
      rw [takeWhile_after h.2 (by simpa using hc)]
    · rfl
  | swap old new :: ps, b, h, hb => by
    rw [h.1] at hb
    cases hb

theorem head?_after {ps : List Piece} {b : Option Char} (h : Clean forms host b ps)
    (hhead : (before ps).head?.any isNameChar = false) : (after ps).head?.any isNameChar = false := by
  cases ps with
  | nil => rfl
  | cons q ps =>
    cases q with
    | keep c => exact hhead
    | swap old new =>
      obtain ⟨-, ⟨hne, hold⟩, -⟩ := h
      cases old with
      | nil => exact (hne rfl).elim
      | cons c old =>
        have hc := hold c List.mem_cons_self
        rw [before, List.cons_append, List.head?_cons, Option.any_some, hc] at hhead
        cases hhead

/-- **The way back undoes the swaps.**  The character before the text may have been swapped too, as long as it continues a
name just if the one that was there did. -/
theorem replaceFrom_after (hforms : AreWords forms) : ∀ {ps : List Piece} {b b' : Option Char}, Clean forms host b ps →
    b'.any isNameChar = b.any isNameChar → replaceFrom forms host b' 0 (after ps) = CodePoint.ofChars (before ps)
  | [], b, b', _, _ => by
    have hnil : ([] : List Char) ∉ forms := fun h => (hforms _ h).1 rfl
    rw [after, replaceFrom, formAt?_eq hforms, List.takeWhile_nil, if_neg fun h => hnil h.2]
    rfl
  | keep c :: ps, b, b', h, hb => by
    have hnone : formAt? forms b' (c :: after ps) = none := by
      rw [formAt?_eq hforms, if_neg]
      rintro ⟨hb', hmem⟩
      rw [hb] at hb'
      refine h.1 hb' ?_
      rw [List.takeWhile_cons] at hmem ⊢
      split
      · rename_i hc
        rw [if_pos hc, takeWhile_after h.2 (by simpa using hc)] at hmem
        exact hmem
      · rename_i hc
        rw [if_neg hc] at hmem
        exact hmem
    rw [after, before, replaceFrom, hnone]
    dsimp only
    rw [replaceFrom_after hforms h.2 rfl]
    rfl
  | swap old new :: ps, b, b', h, hb => by
    obtain ⟨hbefore, ⟨hold, holdName⟩, hhead, hnew, hhost, hclean⟩ := h
    obtain ⟨hne, hnewName⟩ := hforms _ hnew
    have hafter := head?_any_eq_false.1 (head?_after hclean hhead)
    have hform : formAt? forms b' (new ++ after ps) = some new := by
      rw [formAt?_eq hforms, takeWhile_append_stop hnewName hafter, if_pos ⟨hb.trans hbefore, hnew⟩]
    cases new with
    | nil => exact (hne rfl).elim
    | cons x new =>
      have hlast : ((x :: new).getLast?).any isNameChar = old.getLast?.any isNameChar := by
        have hnewLast : ∀ c ∈ (x :: new).getLast?, isNameChar c = true := fun c hc =>
          hnewName c (List.mem_of_getLast? hc)
        have holdLast : ∀ c ∈ old.getLast?, isNameChar c = true := fun c hc => holdName c (List.mem_of_getLast? hc)
        rw [List.getLast?_eq_some_getLast (List.cons_ne_nil x new), List.getLast?_eq_some_getLast hold] at *
        rw [Option.any_some, Option.any_some, hnewLast _ rfl, holdLast _ rfl]
      rw [after, before, List.cons_append, replaceFrom]
      rw [List.cons_append] at hform
      rw [hform]
      dsimp only
      rw [replaceFrom_skip, hhost, ← getLast?_cons_eq_or, replaceFrom_after hforms hclean hlast]
      simp [CodePoint.ofChars]

end Piece

/-! ## The way back of a table -/

variable {t : Table}

theorem replaceFrom_nil : ∀ (b : Option Char) (cs : List Char), replaceFrom [] host b 0 cs = CodePoint.ofChars cs
  | b, [] => by
    rw [replaceFrom]
    unfold formAt?
    split <;> rfl
  | b, c :: cs => by
    have hnone : formAt? [] b (c :: cs) = none := by
      unfold formAt?
      split <;> rfl
    rw [replaceFrom, hnone]
    dsimp only
    rw [replaceFrom_nil (some c) cs]
    rfl

/-- **The way back replaces the forms that are found**, whether or not there are any. -/
theorem convert_eq_replaceTexts (ht : t.Settled) (text : String) : convert t text =
    .ofPoints (replaceTexts t (textForms (Table.searchOrder t.reversibleForms)) (Comment.stripChars text.toList)) := by
  have hpattern := ht.pattern?
  unfold convert
  by_cases hnil : t.reversibleForms = []
  · have hnone : textForms (Table.searchOrder []) = [] := congrArg textForms List.mergeSort_nil
    rw [if_pos hnil] at hpattern
    rw [hpattern, hnil, hnone]
    unfold replaceTexts
    rw [List.map_nil, replaceFrom_nil]
    exact (Spelling.ofPoints_points (.text _)).symm.trans (by simp [Spelling.points])
  · rw [if_neg hnil] at hpattern
    rw [hpattern]
    dsimp only
    rw [replaceForms_ofChars]

/-- **The way back replaces the forms that are reversible**, and no others. -/
theorem exists_forms (ht : t.Settled) : ∃ fs : List String, (∀ w, w ∈ fs ↔ t.isReversible w = true) ∧
    ∀ text : String, convert t text = .ofPoints (replaceTexts t fs (Comment.stripChars text.toList)) :=
  ⟨_, fun _ => mem_textForms.trans (Table.mem_searchOrder.trans Table.mem_reversibleForms), convert_eq_replaceTexts ht⟩

end Reverse
end Argot
