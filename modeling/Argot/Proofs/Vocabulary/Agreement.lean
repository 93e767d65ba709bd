import Argot.Proofs.Vocabulary.WayBack
/-!
# Agreement — entries that share a form without a collision

Where reading all entries meets no collision, entries with one form have one host word (`host_of_integrity`), so every
form goes back to the host word it was made from, and the category it goes back to is the first in which that host word
has it (`firstWith?_of_winner`).
-/
namespace Argot
namespace Index

variable {f : Spelling}

def contest? (ix : Index) (a : Atom) : Option Collision :=
  match ix.winners.get? a.form with
  | none => none
  | some held =>
    if held.host = a.host then none
    else if held.category = a.category then some ⟨a.form, a, held⟩ else some ⟨a.form, held, a⟩

theorem collisions_claim (ix : Index) (a : Atom) :
    (ix.claim a).collisions = ix.collisions ++ (ix.contest? a).toList := by
  unfold claim contest?
  cases ix.winners.get? a.form with
  | none => simp
  | some held =>
    by_cases hhost : held.host = a.host
    · simp [hhost]
    · by_cases hcat : held.category = a.category <;> simp [hhost, hcat]

theorem contest?_eq_none_iff (ix : Index) (a : Atom) :
    ix.contest? a = none ↔ ∀ held, ix.winners.get? a.form = some held → held.host = a.host := by
  unfold contest?
  cases ix.winners.get? a.form with
  | none => simp
  | some held =>
    by_cases hhost : held.host = a.host
    · simp [hhost]
    · by_cases hcat : held.category = a.category <;> simp [hhost, hcat]

/-- **Atoms read without a collision go back to their own host words.** -/
theorem host_of_collisions_nil (l : List Atom) (h : (ofAtoms l).collisions = []) :
    ∀ a ∈ l, ∃ held, (ofAtoms l).winners.get? a.form = some held ∧ held.host = a.host := by
  unfold ofAtoms at *
  induction l using List.reverseRecOn with
  | nil => exact fun a ha => (List.not_mem_nil ha).elim
  | append_singleton l b ih =>
    rw [List.foldl_append, List.foldl_cons, List.foldl_nil] at *
    rw [collisions_claim, List.append_eq_nil_iff, Option.toList_eq_nil_iff, contest?_eq_none_iff] at h
    intro a ha
    rw [get?_claim]
    split
    · rename_i htakes
      refine ⟨b, rfl, ?_⟩
      rcases List.mem_append.1 ha with ha | ha
      · -- an atom that holds the form already has the host word of `b`, so `b` takes nothing from it
        obtain ⟨held, hheld, hhost⟩ := ih h.1 a ha
        rw [htakes.1] at hheld
        rw [← hhost, h.2 held hheld]
      · rw [List.mem_singleton.1 ha]
    · rename_i htakes
      rcases List.mem_append.1 ha with ha | ha
      · exact ih h.1 a ha
      · rw [List.mem_singleton.1 ha] at htakes ⊢
        cases hheld : (l.foldl claim empty).winners.get? b.form with
        | none => exact absurd ⟨rfl, by rw [hheld]; rfl⟩ htakes
        | some held => exact ⟨held, rfl, h.2 held hheld⟩

end Index

namespace Table

variable {t : Table} {c : Category} {host form : Spelling}

/-- The first category in which a host word has a form. -/
def firstWith? (t : Table) (host form : Spelling) : Option Category :=
  Category.all.find? fun c => (t.entries c).get? host == some form

/-- **Without collisions, a form goes back to the host word of any entry that has it.** -/
theorem host_of_integrity (hint : t.integrity = []) (hentry : (t.entries c).get? host = some form) :
    ∃ w, winner? t.entries form = some w ∧ w.host = host := by
  have hmem : (⟨c, host, form⟩ : Atom) ∈ t.atoms := mem_atomsIn.2 ((OrderedMap.get?_eq_some_iff _ _ _).1 hentry)
  obtain ⟨w, hw, hhost⟩ := Index.host_of_collisions_nil t.atoms hint _ hmem
  exact ⟨w, Index.get?_ofAtoms.symm.trans hw, hhost⟩

theorem firstWith?_of_winner {w : Atom} (hw : winner? t.entries form = some w) :
    t.firstWith? w.host form = some w.category := by
  obtain ⟨rfl, hwins⟩ := winner?_eq_some_iff.1 hw
  obtain ⟨earlier, later, hall, hearlier⟩ := hwins.first
  refine List.find?_eq_some_iff_append.2 ⟨?_, earlier, later, hall, fun c hc => ?_⟩
  · simpa using (OrderedMap.get?_eq_some_iff _ _ _).2 (winner?_mem hw)
  · have : (t.entries c).get? w.host ≠ some w.form := fun h =>
      hearlier c hc _ ((OrderedMap.get?_eq_some_iff _ _ _).1 h) rfl
    simpa using this

/-- **Without collisions, what a host word becomes goes back to it**, and a search replaces it just where the first
category in which the host word has the form is not that of the operators. -/
theorem Settled.reverse_of_entry (ht : t.Settled) (hint : t.integrity = [])
    (hentry : (t.entries c).get? host = some form) :
    t.reverse form = host ∧ (t.isReversible form = true ↔ t.firstWith? host form ≠ some .operator) := by
  obtain ⟨w, hw, rfl⟩ := host_of_integrity hint hentry
  have hlookup : t.lookup? form = some w := (ht.winners form).trans hw
  constructor
  · rw [reverse, hlookup]
  · rw [isReversible, hlookup, firstWith?_of_winner hw]
    simp

theorem entry_of_forward {category : Option Category} (h : t.forward host category = form) (hne : form ≠ host) :
    ∃ c, (t.entries c).get? host = some form := by
  cases category with
  | some c =>
    change ((t.entries c).get? host).getD host = form at h
    cases hget : (t.entries c).get? host with
    | none =>
      rw [hget] at h
      exact absurd h.symm hne
    | some form' =>
      rw [hget] at h
      exact ⟨c, hget.trans (congrArg some h)⟩
  | none =>
    change (Category.all.findSome? fun c => (t.entries c).get? host).getD host = form at h
    cases hfind : Category.all.findSome? fun c => (t.entries c).get? host with
    | none =>
      rw [hfind] at h
      exact absurd h.symm hne
    | some form' =>
      rw [hfind] at h
      obtain ⟨earlier, c, later, -, hget, -⟩ := List.findSome?_eq_some_iff.1 hfind
      exact ⟨c, hget.trans (congrArg some h)⟩

end Table
end Argot
