import Argot.Conversion.Reverse
import Argot.Proofs.Vocabulary.Winner
/-!
# WayBack — a table's way back is that of its entries

Adding and removing entries settles single forms only, and the forms to search for are kept once they have been asked
for.  `Table.Settled` says that both agree with what the entries alone would give.  A new table is settled and each
change keeps it so, hence every table that changes can lead to is (`Reachable.settled`).
-/
namespace Argot

/-- What can be done to a table: an entry is written, an entry is removed, or its forms are asked for and kept. -/
inductive Change where
  | add (host form : Spelling) (category : Option Category)
  | remove (host : Spelling) (category : Option Category)
  | ask
  deriving DecidableEq, Repr

namespace Table

def change (t : Table) : Change → Table
  | .add host form category => t.add host form category
  | .remove host category => (t.remove host category).2
  | .ask => t.warm

def changes (t : Table) (cs : List Change) : Table :=
  cs.foldl change t

/-- A table that is made from entries and then changed. -/
def Reachable (t : Table) : Prop :=
  ∃ entries framework cs, t = (ofEntries entries framework).changes cs

/-- **The way back is that of the entries**: each form goes to its winner, and the forms that are kept are those that
would be found now. -/
structure Settled (t : Table) : Prop where
  winners : ∀ f, t.winners.get? f = winner? t.entries f
  cached : ∀ forms, t.cachedForms = some forms → t.reversibleForms ≠ [] ∧ forms = searchOrder t.reversibleForms

variable {t : Table} {entries : Category → Entries} {c : Category} {host form f : Spelling}

@[simp] theorem update_self (g : Entries → Entries) : update entries c g c = g (entries c) := by
  simp [update]

theorem update_of_ne {c' : Category} (g : Entries → Entries) (h : c' ≠ c) : update entries c g c' = entries c' := by
  simp [update, h]

/-! ## A form that a change settles -/

theorem get?_settle (winners : OrderedMap Spelling Atom) :
    (settle entries form winners).get? f = if f = form then winner? entries form else winners.get? f := by
  unfold settle
  cases winner? entries form <;> simp

theorem winner?_insert_of_ne (hf : f ≠ form) (hold : (entries c).get? host ≠ some f) :
    winner? (update entries c (·.insert host form)) f = winner? entries f := by
  refine winner?_congr fun c' => ?_
  by_cases hc : c' = c
  · subst hc
    rw [update_self, OrderedMap.toList_insert]
    refine OrderedMap.filter_write (fun u => u == f) (by simpa using Ne.symm hf) fun u hu => ?_
    have : u ≠ f := fun h => hold (h ▸ hu)
    simpa using this
  · rw [update_of_ne _ hc]

theorem winner?_insert_new (hnone : winner? entries form = none) :
    winner? (update entries c (·.insert host form)) form = some ⟨c, host, form⟩ := by
  have hno := winner?_eq_none_iff.1 hnone
  obtain ⟨before, after, hl, -, hafter⟩ := OrderedMap.write_split host form (entries c).toList
  obtain ⟨earlier, later, hall⟩ := List.append_of_mem c.mem_all
  have hnodup : (earlier ++ c :: later).Nodup := hall ▸ by decide
  refine winner?_eq_some_iff.2 ⟨rfl, ⟨before, after, by simpa using hl, fun p hp => hno c p (hafter p hp)⟩,
    ⟨earlier, later, hall, fun c' hc' p hp => ?_⟩⟩
  have hne : c' ≠ c := fun h => (List.nodup_append.1 hnodup).2.2 c' hc' c List.mem_cons_self h
  rw [update_of_ne _ hne] at hp
  exact hno c' p hp

theorem winner?_erase_of_ne (hold : (entries c).get? host ≠ some f) :
    winner? (update entries c (·.erase host)) f = winner? entries f := by
  refine winner?_congr fun c' => ?_
  by_cases hc : c' = c
  · subst hc
    rw [update_self, OrderedMap.toList_erase]
    refine OrderedMap.filter_drop (fun u => u == f) fun u hu => ?_
    have : u ≠ f := fun h => hold (h ▸ hu)
    simpa using this
  · rw [update_of_ne _ hc]

theorem winner?_erase_of_not_held {a : Atom} (ha : winner? entries f = some a) (hne : ¬(a.host = host ∧ a.category = c)) :
    winner? (update entries c (·.erase host)) f = some a := by
  obtain ⟨rfl, ⟨before, after, hl, hafter⟩, earlier, later, hall, hearlier⟩ := winner?_eq_some_iff.1 ha
  refine winner?_eq_some_iff.2 ⟨rfl, ?_, earlier, later, hall, fun c' hc' p hp => ?_⟩
  · by_cases hc : a.category = c
    · have hhost : a.host ≠ host := fun h => hne ⟨h, hc⟩
      obtain ⟨before', after', hl', hafter'⟩ := OrderedMap.drop_split a.form hhost after before
      refine ⟨before', after', ?_, fun p hp => hafter p (hafter' p hp)⟩
      rw [← hc, update_self, OrderedMap.toList_erase, hl, hl']
    · rw [update_of_ne _ hc]
      exact ⟨before, after, hl, hafter⟩
  · by_cases hc : c' = c
    · subst hc
      rw [update_self, OrderedMap.toList_erase] at hp
      exact hearlier c' hc' p ((OrderedMap.drop_sublist host _).mem hp)
    · rw [update_of_ne _ hc] at hp
      exact hearlier c' hc' p hp

/-! ## Each change keeps the way back -/

theorem settled_ofEntries (entries : Category → Entries) (framework : Spelling) :
    (ofEntries entries framework).Settled where
  winners _ := Index.get?_ofAtoms
  cached _ h := by cases h

/-- The way back after an entry was written, with the form settled anew that the host word had before. -/
def released (t : Table) (c : Category) (host form : Spelling) : OrderedMap Spelling Atom :=
  match (t.entries c).get? host with
  | some old => if old = form then t.winners else settle (update t.entries c (·.insert host form)) old t.winners
  | none => t.winners

theorem get?_released_of_ne (ht : t.Settled) (hf : f ≠ form) :
    (released t c host form).get? f = winner? (update t.entries c (·.insert host form)) f := by
  unfold released
  cases hp : (t.entries c).get? host with
  | none => rw [winner?_insert_of_ne hf (by simp [hp]), ← ht.winners f]
  | some old =>
    by_cases ho : old = form
    · simp only [ho, if_true]
      rw [winner?_insert_of_ne hf (by simp [hp, ho, Ne.symm hf]), ← ht.winners f]
    · simp only [ho, if_false]
      rw [get?_settle]
      by_cases hfo : f = old
      · rw [if_pos hfo, hfo]
      · rw [if_neg hfo, winner?_insert_of_ne hf (by simp [hp, Ne.symm hfo]), ← ht.winners f]

theorem get?_released_form (ht : t.Settled) : (released t c host form).get? form = winner? t.entries form := by
  unfold released
  rw [← ht.winners form]
  cases hp : (t.entries c).get? host with
  | none => rfl
  | some old =>
    by_cases ho : old = form
    · simp only [ho, if_true]
    · simp only [ho, if_false]
      rw [get?_settle, if_neg (Ne.symm ho)]

theorem settled_add (ht : t.Settled) (host form : Spelling) (category : Option Category) :
    (t.add host form category).Settled := by
  refine ⟨fun f => ?_, fun forms h => by cases h⟩
  let c := category.getD ((t.categoryOf? host).getD .phrase)
  change (if (released t c host form).contains form then
      settle (update t.entries c (·.insert host form)) form (released t c host form)
    else (released t c host form).insert form ⟨c, host, form⟩).get? f
      = winner? (update t.entries c (·.insert host form)) f
  by_cases hcon : (released t c host form).contains form = true
  · rw [if_pos hcon, get?_settle]
    by_cases hf : f = form
    · rw [if_pos hf, hf]
    · rw [if_neg hf, get?_released_of_ne ht hf]
  · rw [if_neg hcon, OrderedMap.get?_insert]
    by_cases hf : f = form
    · have hnone : (released t c host form).get? form = none := by simpa [OrderedMap.contains] using hcon
      rw [if_pos hf, hf, winner?_insert_new (get?_released_form ht ▸ hnone)]
    · rw [if_neg hf, get?_released_of_ne ht hf]

theorem settled_remove (ht : t.Settled) (host : Spelling) (category : Option Category) :
    (t.remove host category).2.Settled := by
  simp only [remove]
  split
  · exact ht
  rename_i c _
  split
  · exact ht
  rename_i form hform
  refine ⟨fun f => ?_, fun forms h => by cases h⟩
  dsimp only
  by_cases hheld : (t.winners.get? form).any (fun a => a.host == host && a.category == c) = true
  · rw [if_pos hheld, get?_settle]
    by_cases hf : f = form
    · rw [if_pos hf, hf]
    · rw [if_neg hf, ht.winners f, winner?_erase_of_ne]
      rw [hform]
      exact fun h => hf (Option.some.inj h).symm
  · rw [if_neg hheld, ht.winners f]
    by_cases hf : f = form
    · subst hf
      have hmem : (host, f) ∈ (t.entries c).toList := (OrderedMap.get?_eq_some_iff _ _ _).1 hform
      cases ha : winner? t.entries f with
      | none => exact absurd rfl (winner?_eq_none_iff.1 ha c _ hmem)
      | some a =>
        refine (winner?_erase_of_not_held ha fun h => hheld ?_).symm
        rw [ht.winners f, ha]
        simpa using h
    · rw [winner?_erase_of_ne]
      rw [hform]
      exact fun h => hf (Option.some.inj h).symm

/-- **The search looks for the forms that are reversible now**, kept or not. -/
theorem Settled.pattern? (ht : t.Settled) :
    t.pattern? = if t.reversibleForms = [] then none else some (searchOrder t.reversibleForms) := by
  unfold Table.pattern?
  cases hc : t.cachedForms with
  | some forms =>
    obtain ⟨hne, heq⟩ := ht.cached forms hc
    rw [if_neg hne, heq]
  | none => cases t.reversibleForms <;> rfl

theorem settled_warm (ht : t.Settled) : t.warm.Settled := by
  refine ⟨ht.winners, fun forms h => ?_⟩
  change t.pattern? = some forms at h
  rw [ht.pattern?] at h
  change t.reversibleForms ≠ [] ∧ forms = searchOrder t.reversibleForms
  split at h
  · cases h
  · rename_i hne
    exact ⟨hne, (Option.some.inj h).symm⟩

theorem settled_change (ht : t.Settled) : ∀ (ch : Change), (t.change ch).Settled
  | .add host form category => settled_add ht host form category
  | .remove host category => settled_remove ht host category
  | .ask => settled_warm ht

theorem settled_changes : ∀ (cs : List Change) {t : Table}, t.Settled → (t.changes cs).Settled
  | [], _, ht => ht
  | ch :: cs, _, ht => settled_changes cs (settled_change ht ch)

theorem reachable_ofLists (lists : List (Category × List (Spelling × Spelling))) (framework : Spelling) :
    (ofLists lists framework).Reachable :=
  ⟨_, framework, [], rfl⟩

theorem Reachable.settled (ht : t.Reachable) : t.Settled := by
  obtain ⟨entries, framework, cs, rfl⟩ := ht
  exact settled_changes cs (settled_ofEntries entries framework)

/-! ## The forms to search for -/

theorem mem_reversibleForms : f ∈ t.reversibleForms ↔ t.isReversible f = true := by
  unfold reversibleForms
  rw [List.mem_filter]
  refine ⟨fun h => h.2, fun h => ⟨?_, h⟩⟩
  unfold isReversible lookup? at h
  by_contra hmem
  rw [(OrderedMap.get?_eq_none_iff _ _).2 hmem] at h
  cases h

theorem mem_searchOrder {forms : List Spelling} : f ∈ searchOrder forms ↔ f ∈ forms := by
  unfold searchOrder
  exact List.mem_mergeSort

theorem Settled.pattern?_eq_none_iff (ht : t.Settled) : t.pattern? = none ↔ ∀ f, t.isReversible f = false := by
  rw [ht.pattern?, ite_eq_left_iff]
  simp only [reduceCtorEq, imp_false, not_not, List.eq_nil_iff_forall_not_mem, mem_reversibleForms,
    Bool.not_eq_true]

end Table

namespace Reverse

/-- Whether a search for forms takes a whole word: a form stands there with nothing after it. -/
def takesWhole (forms : List Spelling) (w : Spelling) : Bool :=
  forms.any fun form => fitsPoints w.points form.points && (w.points.drop form.points.length).isEmpty

theorem takesWhole_iff {forms : List Spelling} {w : Spelling} : takesWhole forms w = true ↔ w ∈ forms := by
  unfold takesWhole fitsPoints
  simp only [List.any_eq_true, Bool.and_eq_true, List.isEmpty_iff, List.isPrefixOf_iff_prefix]
  constructor
  · rintro ⟨form, hmem, ⟨⟨rest, hrest⟩, -⟩, hdrop⟩
    rw [← hrest, List.drop_left] at hdrop
    rw [hdrop, List.append_nil] at hrest
    exact Spelling.points_injective hrest ▸ hmem
  · exact fun h => ⟨w, h, ⟨List.prefix_refl _, by simp⟩, by simp⟩

end Reverse

namespace Table

/-- **Forms and the search for them after any changes.**  However a table was made, and whatever was added, removed and
asked for, a form goes back to what reading all entries anew would give, which is the last entry with the form in the
first category that has one, and to nothing just where no entry has the form.  There is a search just where some form is
reversible, and it takes a whole word just where the word is such a form. -/
theorem lookup?_changes (entries : Category → Entries) (framework : Spelling) (cs : List Change) :
    let t := (ofEntries entries framework).changes cs
    (∀ f, t.lookup? f = (Index.ofAtoms t.atoms).winners.get? f) ∧
    (∀ f a, t.lookup? f = some a ↔ a.form = f ∧ Wins t.entries a) ∧
    (∀ f, t.lookup? f = none ↔ ∀ c, ∀ p ∈ (t.entries c).toList, p.2 ≠ f) ∧
    (t.pattern? = none ↔ ∀ f, t.isReversible f = false) ∧
    ∀ w, t.pattern?.any (Reverse.takesWhole · w) = t.isReversible w := by
  intro t
  have ht : t.Settled := settled_changes cs (settled_ofEntries entries framework)
  refine ⟨fun f => (ht.winners f).trans Index.get?_ofAtoms.symm, fun f a => ?_, fun f => ?_, ht.pattern?_eq_none_iff,
    fun w => ?_⟩
  · rw [lookup?, ht.winners f]
    exact winner?_eq_some_iff
  · rw [lookup?, ht.winners f]
    exact winner?_eq_none_iff
  · rw [Bool.eq_iff_iff, ht.pattern?, ← mem_reversibleForms]
    split
    · rename_i hnil
      simp [hnil]
    · rw [Option.any_some, Reverse.takesWhole_iff, mem_searchOrder]

end Table
end Argot
