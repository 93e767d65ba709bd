import Argot.Proofs.Vocabulary.WayBack
/-!
# Lists — tables that are made from lists of entries

A category may be listed several times.  A table has the entries of all its lists (`entries_ofLists`), so every entry
stands in one of them (`mem_of_mem_ofLists`).  The last list of a category alone gives the same entries if it has every
host word that is listed for the category (`get?_lastListed_iff`).
-/
namespace Argot
namespace Table

variable {lists : List (Category × List (Spelling × Spelling))} {c : Category}

/-- All that is listed for a category. -/
def listed (lists : List (Category × List (Spelling × Spelling))) (c : Category) : List (Spelling × Spelling) :=
  lists.flatMap fun l => if l.1 = c then l.2 else []

/-- What the last list of a category has. -/
def lastListed (lists : List (Category × List (Spelling × Spelling))) (c : Category) : List (Spelling × Spelling) :=
  (OrderedMap.find c lists.reverse).getD []

theorem listed_cons (l : Category × List (Spelling × Spelling)) (lists : List (Category × List (Spelling × Spelling)))
    (c : Category) : listed (l :: lists) c = (if l.1 = c then l.2 else []) ++ listed lists c :=
  List.flatMap_cons

theorem foldl_update_lists (c : Category) : ∀ (lists : List (Category × List (Spelling × Spelling)))
    (acc : Category → Entries), lists.foldl (fun acc l => update acc l.1 (·.insertAll l.2)) acc c =
      (acc c).insertAll (listed lists c)
  | [], _ => rfl
  | l :: lists, acc => by
    rw [List.foldl_cons, foldl_update_lists c lists, listed_cons, OrderedMap.insertAll_append]
    by_cases hc : l.1 = c
    · subst hc
      rw [update_self, if_pos rfl]
    · rw [update_of_ne _ (Ne.symm hc), if_neg hc]
      rfl

/-- **A table that is made from lists has the entries of all of them**; of those for one host word the last counts. -/
theorem entries_ofLists (lists : List (Category × List (Spelling × Spelling))) (framework : Spelling) (c : Category) :
    (ofLists lists framework).entries c = .ofList (listed lists c) :=
  foldl_update_lists c lists _

/-- **Every entry of a table that is made from lists stands in one of them.** -/
theorem mem_of_mem_ofLists {framework : Spelling} {p : Spelling × Spelling}
    (h : p ∈ ((ofLists lists framework).entries c).toList) : ∃ pairs, (c, pairs) ∈ lists ∧ p ∈ pairs := by
  rw [entries_ofLists] at h
  obtain ⟨l, hl, hp⟩ := List.mem_flatMap.1 (OrderedMap.mem_of_mem_ofList h)
  by_cases hc : l.1 = c
  · rw [if_pos hc] at hp
    exact ⟨l.2, hc ▸ hl, hp⟩
  · rw [if_neg hc] at hp
    exact (List.not_mem_nil hp).elim

/-- The last list of a category is the end of all that is listed for it. -/
theorem exists_listed_eq_append (c : Category) : ∀ (lists : List (Category × List (Spelling × Spelling))),
    ∃ earlier, listed lists c = earlier ++ lastListed lists c
  | [] => ⟨[], rfl⟩
  | l :: lists => by
    obtain ⟨earlier, hearlier⟩ := exists_listed_eq_append c lists
    have hlast : lastListed (l :: lists) c =
        ((OrderedMap.find c lists.reverse).or (OrderedMap.find c [l])).getD [] := by
      rw [lastListed, List.reverse_cons, OrderedMap.find_append]
    cases hfind : OrderedMap.find c lists.reverse with
    | some last =>
      have hsame : lastListed (l :: lists) c = lastListed lists c := by
        rw [hlast, lastListed, hfind]
        rfl
      exact ⟨(if l.1 = c then l.2 else []) ++ earlier, by rw [listed_cons, hearlier, hsame, List.append_assoc]⟩
    | none =>
      -- no list of the category follows, so this one is all there is
      have hnone : listed lists c = [] := by
        refine List.flatMap_eq_nil_iff.2 fun l' hl' => if_neg fun hc => ?_
        refine OrderedMap.find_eq_none_iff.1 hfind (List.mem_map.2 ⟨l', List.mem_reverse.2 hl', hc⟩)
      refine ⟨[], ?_⟩
      rw [listed_cons, hnone, hlast, hfind]
      by_cases hc : l.1 = c <;> simp [OrderedMap.find, hc]

/-- Where each category is listed once, its only list is the last one. -/
theorem listed_eq_lastListed : ∀ {lists : List (Category × List (Spelling × Spelling))},
    (lists.map Prod.fst).Nodup → listed lists c = lastListed lists c
  | [], _ => rfl
  | l :: lists, hnodup => by
    rw [List.map_cons, List.nodup_cons] at hnodup
    rw [listed_cons, listed_eq_lastListed hnodup.2, lastListed, lastListed, List.reverse_cons, OrderedMap.find_append]
    by_cases hc : l.1 = c
    · have hnone : OrderedMap.find c lists.reverse = none := OrderedMap.find_eq_none_iff.2 fun hmem => by
        rw [List.map_reverse, List.mem_reverse] at hmem
        exact hnodup.1 (hc ▸ hmem)
      simp [OrderedMap.find, hc, hnone]
    · simp [OrderedMap.find, hc]

/-- **Lists and their last ones give the same entries** just where the last list of each category has every host word that
is listed for the category. -/
theorem get?_lastListed_iff : (∀ host, (OrderedMap.ofList (lastListed lists c)).get? host =
    (OrderedMap.ofList (listed lists c)).get? host) ↔
      ∀ p ∈ listed lists c, p.1 ∈ (lastListed lists c).map Prod.fst := by
  obtain ⟨earlier, hearlier⟩ := exists_listed_eq_append c lists
  have hget : ∀ host, (OrderedMap.ofList (listed lists c)).get? host =
      ((OrderedMap.ofList (lastListed lists c)).get? host).or (OrderedMap.find host earlier.reverse) := fun host => by
    rw [OrderedMap.get?_ofList, OrderedMap.get?_ofList, hearlier, List.reverse_append, OrderedMap.find_append]
  have hmissing : ∀ host (pairs : List (Spelling × Spelling)), (OrderedMap.ofList pairs).get? host = none ↔
      host ∉ pairs.map Prod.fst := fun host pairs => by
    rw [OrderedMap.get?_ofList, OrderedMap.find_eq_none_iff, List.map_reverse, List.mem_reverse]
  constructor
  · intro h p hp
    by_contra hnot
    have hnone := (h p.1).symm.trans ((hmissing _ _).2 hnot)
    exact (hmissing _ _).1 hnone (List.mem_map.2 ⟨p, hp, rfl⟩)
  · intro h host
    cases hlast : (OrderedMap.ofList (lastListed lists c)).get? host with
    | some form =>
      rw [hget, hlast]
      rfl
    | none =>
      refine Eq.symm ((hmissing host _).2 fun hmem => ?_)
      obtain ⟨p, hp, rfl⟩ := List.mem_map.1 hmem
      exact (hmissing _ _).1 hlast (h p hp)

end Table
end Argot
