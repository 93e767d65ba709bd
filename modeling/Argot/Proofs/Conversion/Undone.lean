import Mathlib
import Argot.Proofs.Conversion.Treatment
import Argot.Proofs.Source.OneLine
import Argot.Proofs.Vocabulary.Agreement
/-!
# Undone — what conversion puts in a source can be taken back

A token gives way to a form of its text, or of the text between its quotes (`Forward.Replaces`).  Where the entries of
the table agree, the form goes back to that text; whether the way back replaces the form depends on the first category
in which the text has it, since a lookup without a category may end among the operators, whose forms the way back leaves
alone (`undone_iff`).
-/
namespace Argot
namespace Forward

variable {t : Table} {o : Options} {n : Node} {word : String} {form : Spelling}

/-- **A token gives way to a form**: its text does or, for a string, the text between its quotes. -/
structure Replaces (t : Table) (o : Options) (n : Node) (word : String) (form : Spelling) : Prop where
  decided : (decide o n).action = .substitute
  treated : treat t o n = .change
    (if n.kind = .stringLiteral then ⟨n.start + 1, n.stop - 1, form⟩ else ⟨n.start, n.stop, form⟩)
  word_eq : word = if n.kind = .stringLiteral then inner n.text else n.text

/-- **What a token gives way to is looked up**, the names of decorators that have a form with their at sign apart. -/
theorem Replaces.forward (h : Replaces t o n word form) (hdec : decorated? t o n = none) :
    t.forward word (decide o n).category = form ∧ form ≠ word := by
  rw [h.word_eq]
  rcases treat_eq_change h.treated with ⟨haction, -⟩ | ⟨-, hs, -, he, hne⟩ | ⟨-, hs, he, hne, -⟩
  · rw [h.decided] at haction
    cases haction
  · simp only [hs, if_true] at he ⊢
    rw [Edit.mk.injEq] at he
    exact ⟨he.2.2.symm, he.2.2 ▸ hne⟩
  · simp only [hs, if_false] at he ⊢
    rw [Edit.mk.injEq] at he
    rw [formOf_eq, hdec] at he hne
    exact ⟨he.2.2.symm, he.2.2 ▸ hne⟩

/-- **What becomes of a token can be taken back but for the forms of operators.**  In a table without collisions, the
form that a token gives way to goes back to the token's text; the way back replaces the form just where the first
category in which the text has it is not that of the operators. -/
theorem undone_iff (ht : t.Reachable) (hint : t.integrity = []) (h : Replaces t o n word form)
    (hdec : decorated? t o n = none) :
    t.reverse form = word ∧ (t.isReversible form = true ↔ t.firstWith? word form ≠ some .operator) := by
  obtain ⟨hforward, hne⟩ := h.forward hdec
  have hne' : form ≠ (word : Spelling) := hne
  obtain ⟨c, hentry⟩ := Table.entry_of_forward hforward hne'
  exact ht.settled.reverse_of_entry hint hentry

/-- The name of a called method has its form among the methods taken back, though a keyword is spelled alike. -/
theorem undone_called_method :
    let t := Table.ofLists [(.keyword, [("catch", "catchRelease")]), (.builtinMethod, [("catch", "catchLoad")])]
    t.reverse "catchLoad" = "catch" ∧
      (t.isReversible "catchLoad" = true ↔ t.firstWith? "catch" "catchLoad" ≠ some .operator) := by
  intro t
  have hint : t.integrity = [] := by decide
  have hr : Replaces t {} ⟨.propertyName, "property_identifier", "catch", 2, 7, 1, 3, .methodCall, some "property", none,
      true, false, ""⟩ "catch" "catchLoad" := ⟨by decide, by decide, by decide⟩
  exact undone_iff (Table.reachable_ofLists _ _) hint hr (by decide)

/-- **A word that is listed among the operators gives way to a form that the way back leaves alone**, as a name does in a
source of one word. -/
theorem operator_form_stays :
    let t := Table.ofLists [(.operator, [("sum", "add")])]
    let n : Node := .token .identifier .other "identifier" "sum" 0 3
    let tree : Tree := .inner "program" 0 3 none [.token "identifier" true 0 3]
    t.Reachable ∧ t.integrity = [] ∧
    Node.ofTree (Text.bytesOf "sum") tree = .ok [.inner .other .other "program" 0 3, n] ∧
    Replaces t {} n "sum" "add" ∧ decorated? t {} n = none ∧ t.isReversible "add" = false ∧
    (convert t {} (Twister.ofSeed 0) (Text.bytesOf "sum") tree).1 = .ok { code := "add" } ∧
    Reverse.convert t "add" = "add" := by
  intro t n tree
  have hnodes : Node.ofTree (Text.bytesOf "sum") tree = .ok [.inner .other .other "program" 0 3, n] := by
    decide +kernel
  refine ⟨Table.reachable_ofLists _ _, by decide, hnodes, ⟨by decide, by decide, by decide⟩, by decide, by decide, ?_, ?_⟩
  · unfold convert
    rw [hnodes]
    generalize Twister.ofSeed 0 = g
    cbv
  · cbv

end Forward
end Argot
