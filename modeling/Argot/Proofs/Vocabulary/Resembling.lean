import Argot.Proofs.Vocabulary.Standard
import Argot.Proofs.Vocabulary.Suggestions
/-!
# Resembling — which forms are suggested within a limit

A form resembles a word if one of them, letter case aside, is part of the other (`resembles_iff`).  The search for such
forms takes one before it looks at the limit, so suggestions are the first ones up to the limit where at least one may
be given, and one too many where none may be (`suggestions_within_limit_iff`).
-/
namespace Argot

namespace Spelling

open CodePoint (ofChars)

/-! ## Lower case between halves of characters -/

/-- The characters before the first half, and each half with the characters behind it. -/
def cut : List CodePoint → List Char × List (Fin 0x800 × List Char)
  | [] => ([], [])
  | .char c :: rest => (c :: (cut rest).1, (cut rest).2)
  | .half n :: rest => ([], (n, (cut rest).1) :: (cut rest).2)

def lowerChars (cs : List Char) : List Char :=
  (Text.lower (String.ofList cs)).toList

/-- The spelling in lower case.  A half has no case, and no case rule looks past it, so the characters between two halves
are lowered as a text of their own. -/
def lowered (s : Spelling) : List CodePoint :=
  ofChars (lowerChars (cut s.points).1) ++ (cut s.points).2.flatMap fun p => .half p.1 :: ofChars (lowerChars p.2)

theorem cut_ofChars : ∀ (cs : List Char), cut (ofChars cs) = (cs, [])
  | [] => rfl
  | c :: cs => by
    have ih := cut_ofChars cs
    rw [ofChars] at ih
    rw [ofChars, List.map_cons, cut, ih]

theorem runs_eq : ∀ (ps : List CodePoint), runs ps = (cut ps).1 :: (cut ps).2.map Prod.snd
  | [] => rfl
  | .char c :: rest => by rw [runs, runs_eq rest, cut]
  | .half n :: rest => by rw [runs, runs_eq rest, cut, List.map_cons]

theorem cut_ne_nil : ∀ {ps : List CodePoint}, ps.any CodePoint.isHalf = true → (cut ps).2 ≠ []
  | .char c :: rest, h => by
    rw [cut]
    exact cut_ne_nil (by simpa [CodePoint.isHalf] using h)
  | .half n :: rest, _ => by simp [cut]

theorem lowered_text (s : String) : lowered s = ofChars (Text.lower s).toList := by
  rw [lowered, points, cut_ofChars, lowerChars, String.ofList_toList, List.flatMap_nil, List.append_nil]

/-! ## Part of a spelling -/

/-- What does not hold an element stands on one side of it. -/
theorem infix_append_cons_iff {α : Type} {a : α} {l x y : List α} (ha : a ∉ l) :
    l <:+: x ++ a :: y ↔ l <:+: x ∨ l <:+: y := by
  have hfront : ∀ {l'}, l' <+: a :: y → a ∉ l' → l' = [] := fun hpre hnot => by
    rcases List.prefix_cons_iff.1 hpre with rfl | ⟨t, rfl, -⟩
    · rfl
    · exact absurd List.mem_cons_self hnot
  constructor
  · intro h
    rcases List.infix_append_iff.1 h with h | h | ⟨l₁, l₂, rfl, hx, hy⟩
    · exact .inl h
    · rcases List.infix_cons_iff.1 h with h | h
      · exact .inl (hfront h ha ▸ List.nil_infix)
      · exact .inr h
    · obtain rfl := hfront hy fun hmem => ha (List.mem_append_right _ hmem)
      rw [List.append_nil]
      exact .inl hx.isInfix
  · rintro (h | h)
    · exact h.trans (List.prefix_append _ _).isInfix
    · exact h.trans (List.suffix_append_of_suffix (List.suffix_cons a y)).isInfix

theorem ofChars_infix_iff {s cs : List Char} : ofChars s <:+: ofChars cs ↔ s <:+: cs := by
  constructor
  · intro h
    have hchars := h.filterMap CodePoint.char?
    rwa [CodePoint.filterMap_char?_ofChars, CodePoint.filterMap_char?_ofChars] at hchars
  · intro h
    exact h.map CodePoint.char

theorem half_notMem_ofChars (n : Fin 0x800) (cs : List Char) : CodePoint.half n ∉ ofChars cs := by
  simp [ofChars]

/-- Characters stand among characters and halves where they stand between two halves. -/
theorem ofChars_infix_flatMap_iff {s : List Char} (f : List Char → List Char) :
    ∀ {run : List Char} {more : List (Fin 0x800 × List Char)},
      ofChars s <:+: ofChars (f run) ++ (more.flatMap fun p => .half p.1 :: ofChars (f p.2)) ↔
        ∃ r ∈ run :: more.map Prod.snd, s <:+: f r
  | run, [] => by simp [ofChars_infix_iff]
  | run, (n, next) :: more => by
    rw [List.flatMap_cons, List.cons_append, infix_append_cons_iff (half_notMem_ofChars n s), ofChars_infix_iff,
      ofChars_infix_flatMap_iff]
    simp

end Spelling

namespace Table

open Spelling

/-- One of a word and a form is part of the other, in lower case. -/
def Resembles (word : String) (form : Spelling) : Prop :=
  lowered word <:+: lowered form ∨ lowered form <:+: lowered word

instance (word : String) : DecidablePred (Resembles word) := fun form =>
  inferInstanceAs (Decidable (lowered word <:+: lowered form ∨ lowered form <:+: lowered word))

variable {word : String} {form : Spelling}

/-- What holds a half is no part of characters. -/
theorem not_part_of_chars {ps : List CodePoint} (h : ps.any CodePoint.isHalf = true) (cs : List Char) :
    ¬lowered (.broken ps h) <:+: CodePoint.ofChars cs := by
  intro hpart
  obtain ⟨p, hp⟩ := List.exists_mem_of_ne_nil _ (cut_ne_nil h)
  have hhalf : CodePoint.half p.1 ∈ lowered (.broken ps h) :=
    List.mem_append_right _ (List.mem_flatMap.2 ⟨p, hp, List.mem_cons_self⟩)
  exact half_notMem_ofChars p.1 cs (hpart.subset hhalf)

/-- **A form resembles a word if one of them is part of the other, letter case aside.** -/
theorem resembles_iff : resembles word form = true ↔ Resembles word form := by
  unfold Resembles
  rw [lowered_text]
  cases form with
  | text s =>
    rw [lowered_text, ofChars_infix_iff, ofChars_infix_iff]
    simp [resembles, texts, text?, Text.Matcher.contains_iff]
  | broken ps h =>
    have hword : resembles word (.broken ps h) = true ↔
        ∃ run ∈ runs ps, (Text.lower word).toList <:+: lowerChars run := by
      simp [resembles, texts, text?, Text.Matcher.contains_iff, lowerChars]
    rw [or_iff_left (not_part_of_chars h _), hword, lowered, points, ofChars_infix_flatMap_iff, runs_eq]

/-! ## Suggestions within a limit -/

/-- **Suggestions keep within the limit where at least one may be given.**  They are the first of the forms that resemble
the word, as many as the limit says but at least one; so they are those up to the limit, and no more than that, just if
the limit is not zero or no form resembles the word. -/
theorem suggestions_within_limit_iff (t : Table) (word : String) (limit : Nat) :
    let alike := t.forms.filter fun form => Resembles word form
    t.suggestions word limit = alike.take (max 1 limit) ∧
    (t.suggestions word limit = alike.take limit ↔ 0 < limit ∨ alike = []) ∧
    ((t.suggestions word limit).length ≤ limit ↔ 0 < limit ∨ alike = []) := by
  intro alike
  have hfilter : t.forms.filter (resembles word) = alike := by
    apply List.filter_congr
    intro form _
    rw [Bool.eq_iff_iff, resembles_iff, decide_eq_true_iff]
  have htake : t.suggestions word limit = alike.take (max 1 limit) := by
    have hmax : (max 1 (limit : Int)).toNat = max 1 limit := by omega
    rw [suggestions_eq_take, hfilter, hmax]
  have hlength : (t.suggestions word limit).length ≤ limit ↔ 0 < limit ∨ alike = [] := by
    rw [htake, List.length_take, ← List.length_eq_zero_iff]
    omega
  refine ⟨htake, ⟨fun h => hlength.1 ?_, ?_⟩, hlength⟩
  · rw [h]
    exact List.length_take_le limit alike
  · rintro (hpos | hnil)
    · rw [htake, Nat.max_eq_right hpos]
    · rw [htake, hnil, List.take_nil, List.take_nil]

/-- **A form is suggested where none may be.** -/
theorem one_suggested_at_zero :
    let t := ofEntries greetEntries "none"
    let alike := t.forms.filter fun form => Resembles "salute" form
    t.suggestions "salute" 0 = ["salute"] ∧ alike = ["salute"] ∧ alike.take 0 = [] := by
  decide +kernel

end Table
end Argot
