import Argot.Proofs.Vocabulary.WayBack
/-!
# TakenBack — an entry that is added and removed again

A new entry takes its form, or leaves it with the entry that holds it; either way the form is all of the way back that is
written (`Settled.winners_add_new`).  Taking the entry back settles the form anew if the entry held it, and settling a form
of a settled table changes nothing (`Settled.settle_eq`).  So everything is as it was, the order of the forms included
(`Settled.remove_add_new`).
-/
namespace Argot
namespace Table

variable {t : Table} {entries : Category → Entries} {c : Category} {host form : Spelling} {a : Atom}

/-- What was written for a form does not matter once the form is settled. -/
theorem settle_insert (winners : OrderedMap Spelling Atom) :
    settle entries form (winners.insert form a) = settle entries form winners := by
  unfold settle
  cases winner? entries form with
  | none => exact winners.erase_insert form a
  | some w => exact winners.insert_insert form a w

/-- **Settling a form of a settled table changes nothing**, not even the order. -/
theorem Settled.settle_eq (ht : t.Settled) (form : Spelling) : settle t.entries form t.winners = t.winners := by
  have hform := ht.winners form
  unfold settle
  cases hw : winner? t.entries form with
  | none => exact OrderedMap.erase_of_get?_eq_none (hform.trans hw)
  | some w => exact OrderedMap.insert_of_get? (hform.trans hw)

theorem update_update (f g : Entries → Entries) : update (update entries c f) c g = update entries c (g ∘ f) := by
  funext c'
  by_cases hc : c' = c
  · subst hc
    rw [update_self, update_self, update_self]
    rfl
  · rw [update_of_ne _ hc, update_of_ne _ hc, update_of_ne _ hc]

/-- Taking a new entry back gives the entries as they were. -/
theorem update_erase_insert (hnew : (entries c).get? host = none) :
    update (update entries c (·.insert host form)) c (·.erase host) = entries := by
  rw [update_update]
  funext c'
  by_cases hc : c' = c
  · subst hc
    rw [update_self]
    exact ((entries c').erase_insert host form).trans (OrderedMap.erase_of_get?_eq_none hnew)
  · rw [update_of_ne _ hc]

/-- The winner of a form that some entry has. -/
theorem exists_winner?_of_get? (h : (entries c).get? host = some form) : ∃ w, winner? entries form = some w := by
  refine Option.ne_none_iff_exists'.1 fun hnone => ?_
  exact winner?_eq_none_iff.1 hnone c _ ((OrderedMap.get?_eq_some_iff _ _ _).1 h) rfl

/-- **A new entry writes one form of the way back**, the one that it has, for the entry that wins it now. -/
theorem Settled.winners_add_new (ht : t.Settled) (hnew : (t.entries c).get? host = none) (form : Spelling) :
    ∃ w, winner? (update t.entries c (·.insert host form)) form = some w ∧
      (t.add host form (some c)).winners = t.winners.insert form w := by
  have hadd : (t.add host form (some c)).winners =
      if t.winners.contains form then settle (update t.entries c (·.insert host form)) form t.winners
      else t.winners.insert form ⟨c, host, form⟩ := by
    unfold add
    simp only [Option.getD_some, hnew]
  rw [hadd]
  by_cases htaken : t.winners.contains form = true
  · have hthere : (update t.entries c (·.insert host form) c).get? host = some form := by simp
    obtain ⟨w, hw⟩ := exists_winner?_of_get? hthere
    refine ⟨w, hw, ?_⟩
    rw [if_pos htaken, settle, hw]
  · have hfree : t.winners.get? form = none := by simpa [OrderedMap.contains] using htaken
    exact ⟨_, winner?_insert_new ((ht.winners form).symm.trans hfree), if_neg htaken⟩

/-- What the removal of an entry comes to. -/
theorem remove_of_get? (h : (t.entries c).get? host = some form) : t.remove host (some c) =
    (true, { t with
      entries := update t.entries c (·.erase host)
      winners := if (t.winners.get? form).any fun a => a.host == host && a.category == c then
          settle (update t.entries c (·.erase host)) form t.winners
        else t.winners
      cachedForms := none }) := by
  unfold remove
  rw [Option.some_or]
  dsimp only
  rw [h]

/-- **A new entry that is taken back leaves the table as it was.** -/
theorem Settled.remove_add_new (ht : t.Settled) (hnew : (t.entries c).get? host = none) (form : Spelling) :
    (t.add host form (some c)).remove host (some c) = (true, { t with cachedForms := none }) := by
  obtain ⟨w, hw, hwinners⟩ := ht.winners_add_new hnew form
  have hthere : ((t.add host form (some c)).entries c).get? host = some form := by simp [add]
  have hentries : update (t.add host form (some c)).entries c (·.erase host) = t.entries := update_erase_insert hnew
  have hback : (if w.host == host && w.category == c then settle t.entries form (t.winners.insert form w)
      else t.winners.insert form w) = t.winners := by
    by_cases hown : (w.host == host && w.category == c) = true
    · rw [if_pos hown, settle_insert, ht.settle_eq]
    · -- the form was left with the entry that held it before
      have hheld : ¬(w.host = host ∧ w.category = c) := by simpa using hown
      have hother := winner?_erase_of_not_held hw hheld
      rw [update_erase_insert hnew] at hother
      rw [if_neg hown, OrderedMap.insert_of_get? ((ht.winners form).trans hother)]
  rw [remove_of_get? hthere, hentries, hwinners, OrderedMap.get?_insert, if_pos rfl, Option.any_some, hback]
  rfl

/-- What is kept for the search says nothing that the search would not find. -/
theorem Settled.pattern?_forget (ht : t.Settled) : Table.pattern? { t with cachedForms := none } = t.pattern? := by
  have hforget : Settled { t with cachedForms := none } := ⟨ht.winners, nofun⟩
  rw [hforget.pattern?, ht.pattern?]
  rfl

theorem Settled.convert_forget (ht : t.Settled) (text : String) :
    Reverse.convert { t with cachedForms := none } text = Reverse.convert t text := by
  unfold Reverse.convert Reverse.replaceForms
  rw [ht.pattern?_forget]
  rfl

/-- **Removing undoes adding completely.**  However a table was made and changed, an entry that is new in its category can
be added with any form, taken or not, and removed again: the removal finds it, the entries of all categories and the way
back are as before, in the same order, and so is every answer that the table gives. -/
theorem remove_add {t : Table} {c : Category} {host : Spelling} (ht : t.Reachable)
    (hnew : (t.entries c).get? host = none) (form : Spelling) :
    ∃ t', (t.add host form (some c)).remove host (some c) = (true, t') ∧
      t'.framework = t.framework ∧
      (∀ c, (t'.entries c).toList = (t.entries c).toList) ∧
      t'.winners.toList = t.winners.toList ∧
      (∀ host category, t'.forward host category = t.forward host category) ∧
      (∀ host, t'.categoryOf? host = t.categoryOf? host) ∧
      (∀ form, t'.lookup? form = t.lookup? form) ∧
      (∀ form, t'.isReversible form = t.isReversible form) ∧
      t'.forms = t.forms ∧
      (∀ word limit, t'.suggestions word limit = t.suggestions word limit) ∧
      t'.integrity = t.integrity ∧
      t'.collisions = t.collisions ∧
      t'.stats = t.stats ∧
      ∀ text, Reverse.convert t' text = Reverse.convert t text :=
  ⟨_, ht.settled.remove_add_new hnew form, rfl, fun _ => rfl, rfl, fun _ _ => rfl, fun _ => rfl, fun _ => rfl,
    fun _ => rfl, rfl, fun _ _ => rfl, rfl, rfl, rfl, ht.settled.convert_forget⟩

/-- A keyword takes the form of a phrase and gives it back. -/
theorem remove_add_taken_form :
    let t := ofLists [(.phrase, [("greet", "salute"), ("wave", "salute")])]
    t.Reachable ∧ (t.entries .keyword).get? "hello" = none ∧
      (t.add "hello" "salute" (some .keyword)).reverse "salute" = "hello" ∧
      ∃ t', (t.add "hello" "salute" (some .keyword)).remove "hello" (some .keyword) = (true, t') ∧
        t'.reverse "salute" = "wave" := by
  intro t
  have ht : t.Reachable := reachable_ofLists _ _
  have hnew : (t.entries .keyword).get? "hello" = none := by decide
  obtain ⟨t', hremove, -, -, -, -, -, hlookup, -⟩ := remove_add ht hnew "salute"
  refine ⟨ht, hnew, by decide, t', hremove, ?_⟩
  rw [reverse, hlookup]
  decide

end Table
end Argot
