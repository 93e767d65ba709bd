import Argot.Conversion.Reverse
import Mathlib.Data.List.Infix
/-!
# TextForms — the search for forms, character by character

No form that holds halves of characters stands in a text (`fitsPoints_broken`).  So in a text the search over code points
is a search for the forms that are texts, over characters (`replacePoints_ofChars`), and this is the search that later
modules follow step by step.
-/
namespace Argot

theorem CodePoint.ofChars_injective {cs ds : List Char} (h : ofChars cs = ofChars ds) : cs = ds := by
  rw [← filterMap_char?_ofChars cs, h, filterMap_char?_ofChars]

namespace Reverse

open Text

/-! ## Over characters -/

/-- Whether a form stands at the front of a text and no name goes on after it. -/
def fits (cs form : List Char) : Bool :=
  form.isPrefixOf cs && !(cs.drop form.length).head?.any isNameChar

/-- The form that is replaced at the front of a text which follows the character `before`: the first of the list that
stands there as a whole word. -/
def formAt? (forms : List (List Char)) (before : Option Char) (cs : List Char) : Option (List Char) :=
  if before.any isNameChar then none else forms.find? (fits cs)

/-- Replaces forms in a text that follows the character `before`, after the first `skip` characters. -/
def replaceFrom (forms : List (List Char)) (host : List Char → List CodePoint) :
    (before : Option Char) → (skip : Nat) → List Char → List CodePoint
  | before, _, [] => ((formAt? forms before []).map host).getD []
  | _, skip + 1, c :: rest => replaceFrom forms host (some c) skip rest
  | before, 0, c :: rest =>
    match formAt? forms before (c :: rest) with
    | none => .char c :: replaceFrom forms host (some c) 0 rest
    | some [] => host [] ++ .char c :: replaceFrom forms host (some c) 0 rest
    | some (x :: form) => host (x :: form) ++ replaceFrom forms host (some c) form.length rest

/-- The forms that are texts. -/
def textForms (forms : List Spelling) : List String :=
  forms.filterMap Spelling.text?

theorem mem_textForms {forms : List Spelling} {w : String} : w ∈ textForms forms ↔ (w : Spelling) ∈ forms := by
  unfold textForms
  rw [List.mem_filterMap]
  constructor
  · rintro ⟨x, hx, hw⟩
    cases x with
    | text s =>
      cases hw
      exact hx
    | broken => cases hw
  · exact fun h => ⟨w, h, rfl⟩

def replaceTexts (t : Table) (forms : List String) (cs : List Char) : List CodePoint :=
  replaceFrom (forms.map String.toList) (fun form => (t.reverse (String.ofList form)).points) none 0 cs

/-! ## Forms in a text -/

theorem head?_any_ofChars (cs : List Char) : (CodePoint.ofChars cs).head?.any (CodePoint.any isNameChar) =
    cs.head?.any isNameChar := by
  cases cs <;> rfl

theorem fitsPoints_ofChars (cs form : List Char) :
    fitsPoints (CodePoint.ofChars cs) (CodePoint.ofChars form) = fits cs form := by
  have hfront : CodePoint.ofChars form <+: CodePoint.ofChars cs ↔ form <+: cs := by
    refine ⟨fun h => ?_, fun h => h.map _⟩
    obtain ⟨front, hcs, hform⟩ := List.prefix_map_iff.1 h
    exact CodePoint.ofChars_injective hform ▸ hcs
  have hlength : (CodePoint.ofChars form).length = form.length := List.length_map _
  have hrest : (CodePoint.ofChars cs).drop form.length = CodePoint.ofChars (cs.drop form.length) := List.map_drop.symm
  unfold fitsPoints fits
  rw [hlength, hrest, head?_any_ofChars, Bool.eq_iff_iff, Bool.and_eq_true, Bool.and_eq_true, List.isPrefixOf_iff_prefix,
    List.isPrefixOf_iff_prefix, hfront]

/-- **A form with halves of characters stands in no text.** -/
theorem fitsPoints_broken (cs : List Char) {points : List CodePoint} (h : points.any CodePoint.isHalf = true) :
    fitsPoints (CodePoint.ofChars cs) points = false := by
  rw [Bool.eq_false_iff]
  intro hfits
  unfold fitsPoints at hfits
  rw [Bool.and_eq_true, List.isPrefixOf_iff_prefix] at hfits
  obtain ⟨x, hx, hhalf⟩ := List.any_eq_true.1 h
  have hnone := CodePoint.any_isHalf_ofChars cs
  rw [List.any_eq_false] at hnone
  exact hnone x (hfits.1.subset hx) hhalf

theorem find?_fitsPoints (cs : List Char) : ∀ (forms : List Spelling),
    (forms.map Spelling.points).find? (fitsPoints (CodePoint.ofChars cs)) =
      (((textForms forms).map String.toList).find? (fits cs)).map CodePoint.ofChars
  | [] => rfl
  | .text s :: forms => by
    have ih := find?_fitsPoints cs forms
    have htexts : textForms (.text s :: forms) = s :: textForms forms := rfl
    rw [htexts, List.map_cons, List.map_cons, List.find?_cons, List.find?_cons]
    rw [show (Spelling.text s).points = CodePoint.ofChars s.toList from rfl, fitsPoints_ofChars]
    cases fits cs s.toList with
    | true => rfl
    | false => exact ih
  | .broken points h :: forms => by
    have htexts : textForms (.broken points h :: forms) = textForms forms := rfl
    rw [htexts, List.map_cons, List.find?_cons]
    rw [show (Spelling.broken points h).points = points from rfl, fitsPoints_broken cs h]
    exact find?_fitsPoints cs forms

theorem formPoints?_ofChars (forms : List Spelling) (before : Option Char) (cs : List Char) :
    formPoints? (forms.map Spelling.points) (before.map CodePoint.char) (CodePoint.ofChars cs) =
      (formAt? ((textForms forms).map String.toList) before cs).map CodePoint.ofChars := by
  have hbefore : (before.map CodePoint.char).any (CodePoint.any isNameChar) = before.any isNameChar := by
    cases before <;> rfl
  unfold formPoints? formAt?
  rw [hbefore, find?_fitsPoints]
  split <;> rfl

/-- **The search over the code points of a text is a search over its characters**, for the forms that are texts. -/
theorem replacePoints_ofChars (forms : List Spelling) (host : List CodePoint → List CodePoint) :
    ∀ (before : Option Char) (skip : Nat) (cs : List Char),
    replacePoints (forms.map Spelling.points) host (before.map CodePoint.char) skip (CodePoint.ofChars cs) =
      replaceFrom ((textForms forms).map String.toList) (fun form => host (CodePoint.ofChars form)) before
        skip cs
  | before, skip, [] => by
    have hform := formPoints?_ofChars forms before []
    rw [show CodePoint.ofChars [] = [] from rfl] at hform ⊢
    rw [replacePoints, replaceFrom, hform, Option.map_map]
    rfl
  | before, skip + 1, c :: rest => replacePoints_ofChars forms host (some c) skip rest
  | before, 0, c :: rest => by
    have hform := formPoints?_ofChars forms before (c :: rest)
    have hrest := fun skip => replacePoints_ofChars forms host (some c) skip rest
    rw [show CodePoint.ofChars (c :: rest) = .char c :: CodePoint.ofChars rest from rfl] at hform ⊢
    rw [replacePoints, replaceFrom, hform]
    cases formAt? ((textForms forms).map String.toList) before (c :: rest) with
    | none => exact congrArg (CodePoint.char c :: ·) (hrest 0)
    | some form =>
      cases form with
      | nil => exact congrArg (fun after => host [] ++ CodePoint.char c :: after) (hrest 0)
      | cons x form =>
        have hlength : (CodePoint.ofChars form).length = form.length := List.length_map _
        change host _ ++ replacePoints _ host _ (CodePoint.ofChars form).length _ = host _ ++ _
        rw [hlength]
        exact congrArg (host _ ++ ·) (hrest form.length)

theorem replaceForms_ofChars (t : Table) (forms : List Spelling) (cs : List Char) :
    replaceForms t forms (CodePoint.ofChars cs) = replaceTexts t (textForms forms) cs := by
  have htext : ∀ form, Spelling.ofPoints (CodePoint.ofChars form) = .text (String.ofList form) := fun form => by
    have h := Spelling.ofPoints_points (.text (String.ofList form))
    rwa [Spelling.points, String.toList_ofList] at h
  have h := replacePoints_ofChars forms (fun form => (t.reverse (.ofPoints form)).points) none 0 cs
  simp only [htext] at h
  exact h

end Reverse
end Argot
