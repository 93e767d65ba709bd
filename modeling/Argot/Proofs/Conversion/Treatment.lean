import Argot.Conversion.Forward
/-!
# Treatment — what can become of a token

A token that changes is an operator with an annotation put after it, a string with the text between its quotes replaced,
or a name that gives way as a whole (`treat_eq_change`).
-/
namespace Argot
namespace Forward

variable {t : Table} {o : Options} {n : Node} {e : Edit}

/-- The form that the name of a decorator has with its at sign, without the at sign. -/
def decorated? (t : Table) (o : Options) (n : Node) : Option Spelling :=
  let decorated := t.forward ("@" ++ n.text) (some .frameworkIdentifier)
  if n.parent == .decorator && o.framework == .angular && decorated != "@" ++ n.text then decorated.behindAt? else none

theorem formOf_eq (category : Option Category) :
    formOf t o n category = (decorated? t o n).getD (t.forward n.text category) := rfl

theorem treatString_eq_change {category : Option Category} (h : treatString t n category = .change e) :
    2 ≤ n.text.length ∧ e = ⟨n.start + 1, n.stop - 1, t.forward (inner n.text) category⟩ ∧
      t.forward (inner n.text) category ≠ inner n.text := by
  unfold treatString at h
  split at h
  · cases h
  · rename_i hlen
    dsimp only at h
    split at h
    · cases h
    · rename_i hne
      exact ⟨by omega, (Treatment.change.inj h).symm, by simpa using hne⟩

theorem treatName_eq_change {category : Option Category} (h : treatName t o n category = .change e) :
    e = ⟨n.start, n.stop, formOf t o n category⟩ ∧ formOf t o n category ≠ n.text ∧
      isNameForm (formOf t o n category) = true := by
  unfold treatName at h
  dsimp only at h
  split at h
  · cases h
  · rename_i hne
    split at h
    · rename_i hname
      exact ⟨(Treatment.change.inj h).symm, by simpa using hne, hname⟩
    · cases h

theorem treatOperator_eq_change (h : treatOperator t o n = .change e) :
    o.strictMode = true ∧ t.hasHost n.text (some .operator) = true ∧
      e = .insertion n.stop (Comment.annotation n.text (t.forward n.text (some .operator))) := by
  unfold treatOperator at h
  split at h
  · rename_i hcond
    rw [Bool.and_eq_true] at hcond
    exact ⟨hcond.1, hcond.2, (Treatment.change.inj h).symm⟩
  · cases h

/-- **The ways in which a token can change.** -/
theorem treat_eq_change (h : treat t o n = .change e) :
    ((decide o n).action = .annotate ∧ o.strictMode = true ∧ t.hasHost n.text (some .operator) = true ∧
      e = .insertion n.stop (Comment.annotation n.text (t.forward n.text (some .operator)))) ∨
    ((decide o n).action = .substitute ∧ n.kind = .stringLiteral ∧ 2 ≤ n.text.length ∧
      e = ⟨n.start + 1, n.stop - 1, t.forward (inner n.text) (decide o n).category⟩ ∧
      t.forward (inner n.text) (decide o n).category ≠ inner n.text) ∨
    ((decide o n).action = .substitute ∧ n.kind ≠ .stringLiteral ∧
      e = ⟨n.start, n.stop, formOf t o n (decide o n).category⟩ ∧ formOf t o n (decide o n).category ≠ n.text ∧
      isNameForm (formOf t o n (decide o n).category) = true) := by
  unfold treat at h
  dsimp only at h
  cases haction : (decide o n).action with
  | skip =>
    rw [haction] at h
    cases h
  | annotate =>
    rw [haction] at h
    exact .inl ⟨rfl, treatOperator_eq_change h⟩
  | substitute =>
    rw [haction] at h
    by_cases hs : n.kind = .stringLiteral
    · have hb : (n.kind == Kind.stringLiteral) = true := by simpa using hs
      simp only [hb, if_true] at h
      exact .inr (.inl ⟨rfl, hs, treatString_eq_change h⟩)
    · have hb : (n.kind == Kind.stringLiteral) = false := by simpa using hs
      simp only [hb, Bool.false_eq_true, if_false] at h
      exact .inr (.inr ⟨rfl, hs, treatName_eq_change h⟩)

theorem treat_of_skip (h : (decide o n).action = .skip) : treat t o n = .keep := by
  unfold treat
  simp only [h]

theorem visitLeaf_of_change (h : treat t o n = .change e) : visitLeaf t o n = ([e], []) := by
  have hcomment : (n.kind == .comment) = false := by
    rw [beq_eq_false_iff_ne]
    intro hkind
    have hskip : (decide o n).action = .skip := by
      unfold decide Decision.of
      rw [hkind]
      rfl
    rw [treat_of_skip hskip] at h
    cases h
  unfold visitLeaf
  rw [hcomment, h]
  rfl

end Forward
end Argot
