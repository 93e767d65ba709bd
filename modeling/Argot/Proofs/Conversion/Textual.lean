import Argot.Proofs.Conversion.TextForms
import Argot.Proofs.Conversion.TokenOutput
import Argot.Proofs.Vocabulary.WayBack
/-!
# Textual — tables that hold nothing but texts

Words that were read from JSON may hold halves of characters, and no bytes stand for those.  In a table all of whose host
words and forms are texts, texts are looked up to texts both ways.  Then every token can be written on the way there
(`Table.IsTextual.writable`), and on the way back every text has a host text (`Table.IsTextual.isText_convert`).
-/
namespace Argot

theorem Spelling.isText_iff {s : Spelling} : s.IsText ↔ s.points.any CodePoint.isHalf = false := by
  constructor
  · rintro ⟨text, rfl⟩
    exact CodePoint.any_isHalf_ofChars _
  · intro h
    cases s with
    | text text => exact ⟨text, rfl⟩
    | broken points hhalf =>
      rw [Spelling.points, hhalf] at h
      cases h

namespace Reverse

open Text

/-- Where host words have no halves in them, neither has the host text. -/
theorem any_isHalf_replaceFrom {forms : List (List Char)} {host : List Char → List CodePoint}
    (h : ∀ form, (host form).any CodePoint.isHalf = false) : ∀ (before : Option Char) (skip : Nat) (cs : List Char),
    (replaceFrom forms host before skip cs).any CodePoint.isHalf = false
  | before, skip, [] => by
    rw [replaceFrom]
    cases formAt? forms before [] with
    | none => rfl
    | some form => exact h form
  | before, skip + 1, c :: rest => any_isHalf_replaceFrom h (some c) skip rest
  | before, 0, c :: rest => by
    have hrest : (replaceFrom forms host (some c) 0 rest).any CodePoint.isHalf = false :=
      any_isHalf_replaceFrom h (some c) 0 rest
    rw [replaceFrom]
    split
    · exact hrest
    · rw [List.any_append, h, List.any_cons, hrest]
      rfl
    · rw [List.any_append, h, any_isHalf_replaceFrom h (some c)]
      rfl

end Reverse

namespace Table

variable {t : Table} {host form : Spelling}

/-- All host words and forms are texts. -/
def IsTextual (t : Table) : Prop :=
  ∀ c, ∀ p ∈ (t.entries c).toList, p.1.IsText ∧ p.2.IsText

namespace IsTextual

theorem forward (ht : t.IsTextual) (hhost : host.IsText) (category : Option Category) :
    (t.forward host category).IsText := by
  have hentry : ∀ {c form}, (t.entries c).get? host = some form → form.IsText := fun {c form} h =>
    (ht c (host, form) (((t.entries c).get?_eq_some_iff host form).1 h)).2
  unfold Table.forward
  cases category with
  | some c =>
    dsimp only
    cases hget : (t.entries c).get? host with
    | none => exact hhost
    | some form => exact hentry hget
  | none =>
    dsimp only
    cases hfind : Category.all.findSome? fun c => (t.entries c).get? host with
    | none => exact hhost
    | some form =>
      obtain ⟨c, -, hget⟩ := List.exists_of_findSome?_eq_some hfind
      exact hentry hget

theorem reverse (ht : t.IsTextual) (hsettled : t.Settled) (hform : form.IsText) : (t.reverse form).IsText := by
  unfold Table.reverse lookup?
  rw [hsettled.winners]
  cases hwinner : winner? t.entries form with
  | none => exact hform
  | some a => exact (ht a.category _ (winner?_mem hwinner)).1

theorem writable (ht : t.IsTextual) (o : Options) (n : Node) : Forward.Writable t o n where
  annotated _ _ _ := ht.forward (Spelling.isText_text _) _
  requoted _ _ _ := ht.forward (Spelling.isText_text _) _

theorem isText_convert (ht : t.IsTextual) (hsettled : t.Settled) (text : String) : (Reverse.convert t text).IsText := by
  unfold Reverse.convert
  dsimp only
  split
  · exact Spelling.isText_text _
  · rw [Spelling.isText_iff, Spelling.points_ofPoints, Reverse.replaceForms_ofChars]
    exact Reverse.any_isHalf_replaceFrom
      (fun form => Spelling.isText_iff.1 (ht.reverse hsettled (Spelling.isText_text _))) none 0 _

end IsTextual
end Table
end Argot
