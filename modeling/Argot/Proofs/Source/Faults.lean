import Argot.Proofs.Source.Preorder
/-!
# Faults — where a source that does not parse is at fault

A parser marks the nodes that are errors or stand for missing tokens, and flags the nodes above them.  The search for an
error passes over what is not flagged and falls back on a node that is flagged for nothing.  Where a node is flagged just
if there is a fault at it or below, that changes nothing: the search comes to the first fault from the root down
(`firstError?_eq`), and a source does not parse just if there is one, with the place and the kind of the first
(`fault_at_first_error`).
-/
namespace Argot

/-- What is an error or missing is a fault. -/
def Label.isFault (l : Label) : Bool :=
  l.isError || l.isMissing

/-- What is reported of a node that is a fault: lines and columns are counted from one. -/
def Label.fault (l : Label) : SyntaxFault :=
  ⟨l.isMissing, l.row + 1, l.column + 1⟩

theorem SyntaxFault.missing_iff (f : SyntaxFault) :
    "Missing token".toList <+: f.message.toList ↔ f.missing = true := by
  cases hmissing : f.missing <;> simp [message, hmissing, String.toList_append]

namespace Tree

def IsFault (t : Tree) : Prop :=
  t.label.isFault = true

instance (t : Tree) : Decidable t.IsFault :=
  inferInstanceAs (Decidable (_ = _))

/-- The first fault among the nodes of a tree, from the root down. -/
def firstFault? (t : Tree) : Option Tree :=
  t.subtrees.find? (IsFault ·)

/-- Each node is flagged just if there is a fault at it or below. -/
def Consistent (t : Tree) : Prop :=
  ∀ u ∈ t.subtrees, u.label.hasError = true ↔ ∃ v ∈ u.subtrees, v.IsFault

instance (t : Tree) : Decidable t.Consistent :=
  inferInstanceAs (Decidable (∀ u ∈ t.subtrees, u.label.hasError = true ↔ ∃ v ∈ u.subtrees, v.IsFault))

variable {t u : Tree} {ts : List Tree} {l : Label}

theorem mem_subtrees_self (t : Tree) : t ∈ t.subtrees := by
  cases t
  exact List.mem_cons_self

theorem mem_subtreesAmong_iff : ∀ {ts : List Tree}, u ∈ subtreesAmong ts ↔ ∃ t ∈ ts, u ∈ t.subtrees
  | [] => by simp [subtreesAmong]
  | t :: ts => by
    rw [subtreesAmong, List.mem_append, mem_subtreesAmong_iff]
    simp

theorem Consistent.of_mem (h : (node l ts).Consistent) (ht : t ∈ ts) : t.Consistent := fun u hu =>
  h u (List.mem_cons_of_mem _ (mem_subtreesAmong_iff.2 ⟨t, ht, hu⟩))

theorem firstFault?_of_fault (h : (node l ts).IsFault) : (node l ts).firstFault? = some (node l ts) := by
  simp [firstFault?, subtrees, h]

theorem firstFault?_of_not_fault (h : ¬(node l ts).IsFault) :
    (node l ts).firstFault? = (subtreesAmong ts).find? (IsFault ·) := by
  simp [firstFault?, subtrees, h]

theorem firstFault?_eq_none_iff : t.firstFault? = none ↔ ∀ u ∈ t.subtrees, ¬u.IsFault := by
  simp [firstFault?]

theorem isSome_firstFault?_iff : t.firstFault?.isSome = true ↔ ∃ u ∈ t.subtrees, u.IsFault := by
  simp [firstFault?]

theorem Consistent.hasError_eq (h : t.Consistent) : t.label.hasError = t.firstFault?.isSome := by
  rw [Bool.eq_iff_iff, isSome_firstFault?_iff]
  exact h t (mem_subtrees_self t)

mutual

/-- **The search comes to the first fault.** -/
theorem firstError?_eq : ∀ {t : Tree}, t.Consistent → t.firstError? = t.firstFault?.map label
  | .node l ts, h => by
    have hbelow : firstErrorAmong? ts = ((subtreesAmong ts).find? (IsFault ·)).map label :=
      firstErrorAmong?_eq fun t ht => h.of_mem ht
    have hflag : l.hasError = (node l ts).firstFault?.isSome := h.hasError_eq
    rw [firstError?]
    by_cases hfault : (l.isError || l.isMissing) = true
    · rw [if_pos hfault, firstFault?_of_fault hfault]
      rfl
    · -- What is found below is found at all, so a flagged node has no need to stand for itself.
      rw [if_neg hfault, hbelow, ← firstFault?_of_not_fault hfault, hflag]
      cases (node l ts).firstFault? <;> rfl

theorem firstErrorAmong?_eq : ∀ {ts : List Tree}, (∀ t ∈ ts, t.Consistent) →
    firstErrorAmong? ts = ((subtreesAmong ts).find? (IsFault ·)).map label
  | [], _ => rfl
  | t :: ts, h => by
    rw [firstErrorAmong?, subtreesAmong, List.find?_append, Option.map_or, firstError?_eq (h t List.mem_cons_self),
      firstErrorAmong?_eq fun u hu => h u (List.mem_cons_of_mem t hu)]
    rfl

end

theorem fault?_eq (h : t.Consistent) : t.fault? = t.firstFault?.map fun u => u.label.fault := by
  rw [fault?, firstError?_eq h, h.hasError_eq]
  cases t.firstFault? <;> rfl

/-- **A source does not parse just if there is a fault, and the first is reported.**  Where the flags of a tree are
consistent, the search for an error comes to the first fault from the root down, and to none just if there is none.
The source is refused just if there is a fault, at the place where the first begins, counted from one, and a token is
said to be missing just if the first fault stands for a missing one. -/
theorem fault_at_first_error (t : Tree) (h : t.Consistent) :
    t.firstError? = t.firstFault?.map label ∧
    (t.firstError? = none ↔ ∀ u ∈ t.subtrees, ¬u.IsFault) ∧
    (t.fault?.isSome = true ↔ ∃ u ∈ t.subtrees, u.IsFault) ∧
    ∀ f, t.fault? = some f → ∃ u, t.firstFault? = some u ∧ f.line = u.label.row + 1 ∧
      f.column = u.label.column + 1 ∧ ("Missing token".toList <+: f.message.toList ↔ u.label.isMissing = true) := by
  have hfault := fault?_eq h
  refine ⟨firstError?_eq h, ?_, ?_, fun f hf => ?_⟩
  · rw [firstError?_eq h, Option.map_eq_none_iff, firstFault?_eq_none_iff]
  · rw [hfault, Option.isSome_map, isSome_firstFault?_iff]
  · rw [hfault] at hf
    obtain ⟨u, hu, rfl⟩ := Option.map_eq_some_iff.1 hf
    exact ⟨u, hu, rfl, rfl, u.label.fault.missing_iff⟩

/-- A token is missing below a node that is no fault, before an error: the missing token is reported. -/
theorem fault_at_first_error_missing_token :
    let leaf (type : String) (isError isMissing : Bool) (row column : Nat) : Tree :=
      .node ⟨type, true, isError, isMissing, isError || isMissing, 0, 0, row, column, none⟩ []
    let call : Tree := .node ⟨"call_expression", true, false, false, true, 0, 0, 1, 0, none⟩
      [leaf "identifier" false false 1 0, leaf ")" false true 1 2]
    let tree : Tree := .node ⟨"program", true, false, false, true, 0, 0, 0, 0, none⟩
      [leaf "comment" false false 0 0, call, leaf "ERROR" true false 2 0]
    tree.Consistent ∧ tree.fault? = some ⟨true, 2, 3⟩ ∧ ∃ u, tree.firstFault? = some u ∧ u.label.isMissing = true ∧
      u.label.row = 1 ∧ u.label.column = 2 := by
  intro leaf call tree
  have hconsistent : tree.Consistent := by decide
  have hfault : tree.fault? = some ⟨true, 2, 3⟩ := by decide
  obtain ⟨-, -, -, hreported⟩ := fault_at_first_error tree hconsistent
  obtain ⟨u, hu, hline, hcolumn, hmissing⟩ := hreported _ hfault
  have hrow : u.label.row = 1 := Nat.succ.inj hline.symm
  have hplace : u.label.column = 2 := Nat.succ.inj hcolumn.symm
  exact ⟨hconsistent, hfault, u, hu, hmissing.1 ((SyntaxFault.missing_iff _).2 rfl), hrow, hplace⟩

end Tree
end Argot
