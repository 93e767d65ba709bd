import Argot.Vocabulary.Table
import Mathlib.Data.List.Induction
/-!
# Winner — the entry that a form goes back to

Of the entries with one form, the last one of the first category that has any wins.  `Table.Wins` says so of the
entries alone; `Table.winner?` looks for the winner (`winner?_eq_some_iff`), and reading all atoms one by one ends with
it (`get?_ofAtoms`).
-/
namespace Argot
namespace Table

variable {entries : Category → Entries} {f : Spelling} {c : Category} {a : Atom}

/-- **The entry that wins its form**: no later entry of its category has the form, and no entry of an earlier one. -/
structure Wins (entries : Category → Entries) (a : Atom) : Prop where
  last : ∃ before after, (entries a.category).toList = before ++ (a.host, a.form) :: after ∧ ∀ p ∈ after, p.2 ≠ a.form
  first : ∃ earlier later, Category.all = earlier ++ a.category :: later ∧
    ∀ c ∈ earlier, ∀ p ∈ (entries c).toList, p.2 ≠ a.form

def lastClaim? (entries : Category → Entries) (f : Spelling) (c : Category) : Option Atom :=
  ((atomsOf entries c).filter fun a => a.form == f).getLast?

theorem winner?_eq : winner? entries f = Category.all.findSome? (lastClaim? entries f) := rfl

theorem mem_atomsOf : a ∈ atomsOf entries c ↔ a.category = c ∧ (a.host, a.form) ∈ (entries c).toList := by
  unfold atomsOf
  rw [List.mem_map]
  constructor
  · rintro ⟨p, hp, rfl⟩
    exact ⟨rfl, hp⟩
  · rintro ⟨rfl, h⟩
    exact ⟨(a.host, a.form), h, rfl⟩

theorem mem_atomsIn : a ∈ atomsIn entries ↔ (a.host, a.form) ∈ (entries a.category).toList := by
  unfold atomsIn
  rw [List.mem_flatMap]
  constructor
  · rintro ⟨c, -, h⟩
    obtain ⟨rfl, h⟩ := mem_atomsOf.1 h
    exact h
  · exact fun h => ⟨a.category, a.category.mem_all, mem_atomsOf.2 ⟨rfl, h⟩⟩

theorem nodup_hosts_atomsOf : ((atomsOf entries c).map Atom.host).Nodup := by
  unfold atomsOf
  rw [List.map_map]
  exact (entries c).nodup

/-! ## The last entry of one category -/

theorem lastClaim?_eq_none_iff : lastClaim? entries f c = none ↔ ∀ p ∈ (entries c).toList, p.2 ≠ f := by
  unfold lastClaim? atomsOf
  rw [List.getLast?_eq_none_iff, List.filter_eq_nil_iff]
  constructor
  · intro h p hp hf
    exact h ⟨c, p.1, p.2⟩ (List.mem_map.2 ⟨p, hp, rfl⟩) (by simpa using hf)
  · intro h b hb
    obtain ⟨p, hp, rfl⟩ := List.mem_map.1 hb
    simpa using h p hp

theorem lastClaim?_eq_some_iff : lastClaim? entries f c = some a ↔ a.category = c ∧ a.form = f ∧
    ∃ before after, (entries c).toList = before ++ (a.host, f) :: after ∧ ∀ p ∈ after, p.2 ≠ f := by
  unfold lastClaim? atomsOf
  rw [List.filter_map, List.getLast?_map, List.getLast?_filter, Option.map_eq_some_iff]
  constructor
  · rintro ⟨p, hp, rfl⟩
    obtain ⟨hf, as, bs, hl, has⟩ := List.find?_eq_some_iff_append.1 hp
    have hf : p.2 = f := by simpa using hf
    refine ⟨rfl, hf, bs.reverse, as.reverse, ?_, fun q hq => by simpa using has q (List.mem_reverse.1 hq)⟩
    rw [← hf, ← List.reverse_reverse (entries c).toList, hl]
    simp
  · rintro ⟨rfl, rfl, before, after, hl, hafter⟩
    refine ⟨(a.host, a.form), List.find?_eq_some_iff_append.2 ⟨by simp, after.reverse, before.reverse, ?_, ?_⟩, rfl⟩
    · rw [hl]
      simp
    · intro q hq
      simpa using hafter q (List.mem_reverse.1 hq)

theorem lastClaim?_congr {entries' : Category → Entries}
    (h : (entries' c).toList.filter (fun p => p.2 == f) = (entries c).toList.filter fun p => p.2 == f) :
    lastClaim? entries' f c = lastClaim? entries f c := by
  unfold lastClaim? atomsOf
  rw [List.filter_map, List.filter_map]
  exact congrArg (fun l => (l.map fun p : Spelling × Spelling => (⟨c, p.1, p.2⟩ : Atom)).getLast?) h

/-! ## The winner of a form -/

theorem winner?_eq_none_iff : winner? entries f = none ↔ ∀ c, ∀ p ∈ (entries c).toList, p.2 ≠ f := by
  rw [winner?_eq, List.findSome?_eq_none_iff]
  exact ⟨fun h c => lastClaim?_eq_none_iff.1 (h c c.mem_all), fun h c _ => lastClaim?_eq_none_iff.2 (h c)⟩

/-- **The search for a winner finds it.** -/
theorem winner?_eq_some_iff : winner? entries f = some a ↔ a.form = f ∧ Wins entries a := by
  rw [winner?_eq, List.findSome?_eq_some_iff]
  constructor
  · rintro ⟨earlier, c, later, hall, hc, hearlier⟩
    obtain ⟨rfl, rfl, hlast⟩ := lastClaim?_eq_some_iff.1 hc
    exact ⟨rfl, hlast, earlier, later, hall, fun c' hc' => lastClaim?_eq_none_iff.1 (hearlier c' hc')⟩
  · rintro ⟨rfl, hlast, earlier, later, hall, hearlier⟩
    exact ⟨earlier, a.category, later, hall, lastClaim?_eq_some_iff.2 ⟨rfl, rfl, hlast⟩, fun c' hc' =>
      lastClaim?_eq_none_iff.2 (hearlier c' hc')⟩

theorem winner?_mem (h : winner? entries f = some a) : (a.host, f) ∈ (entries a.category).toList := by
  obtain ⟨rfl, hw⟩ := winner?_eq_some_iff.1 h
  obtain ⟨before, after, hl, -⟩ := hw.last
  rw [hl]
  exact List.mem_append_right _ List.mem_cons_self

theorem winner?_congr {entries' : Category → Entries}
    (h : ∀ c, (entries' c).toList.filter (fun p => p.2 == f) = (entries c).toList.filter fun p => p.2 == f) :
    winner? entries' f = winner? entries f := by
  rw [winner?_eq, winner?_eq]
  exact congrArg (Category.all.findSome? ·) (funext fun c => lastClaim?_congr (h c))

end Table

/-! ## Reading atoms one by one -/

namespace Index

variable {entries : Category → Entries} {f : Spelling}

def takes (a : Atom) : Option Atom → Bool
  | none => true
  | some held => held.host != a.host && held.category == a.category

/-- **What reading one atom does to a form.** -/
theorem get?_claim (ix : Index) (a : Atom) :
    (ix.claim a).winners.get? f =
      if f = a.form ∧ takes a (ix.winners.get? a.form) = true then some a else ix.winners.get? f := by
  unfold claim
  cases hheld : ix.winners.get? a.form with
  | none =>
    by_cases hf : f = a.form <;> simp [takes, hf]
  | some held =>
    by_cases hhost : held.host = a.host
    · simp [takes, hhost]
    · by_cases hcat : held.category = a.category
      · by_cases hf : f = a.form <;> simp [takes, hhost, hcat, hf]
      · simp [takes, hhost, hcat]

/-- **What reading one category does to a form** that no atom of the category holds yet: the last atom with the form
gets it, unless an atom of an earlier category has it. -/
theorem get?_foldl_claim {c : Category} (ix : Index) (hix : ∀ held, ix.winners.get? f = some held → held.category ≠ c)
    (l : List Atom) (hl : ∀ a ∈ l, a.category = c) (hn : (l.map Atom.host).Nodup) :
    (l.foldl claim ix).winners.get? f = (ix.winners.get? f).or ((l.filter fun a => a.form == f).getLast?) := by
  induction l using List.reverseRecOn with
  | nil => simp
  | append_singleton l a ih =>
    rw [List.map_append, List.nodup_append] at hn
    have ih := ih (fun b hb => hl b (List.mem_append_left _ hb)) hn.1
    rw [List.foldl_append, List.foldl_cons, List.foldl_nil, get?_claim, List.filter_append]
    by_cases hf : f = a.form
    · subst hf
      have hone : [a].filter (fun b => b.form == a.form) = [a] := by simp
      rw [ih, hone, List.getLast?_append, List.getLast?_singleton]
      cases hheld : ix.winners.get? a.form with
      | some held =>
        have : held.category ≠ a.category := by
          rw [hl a (by simp)]
          exact hix held hheld
        simp [takes, this]
      | none =>
        cases hlast : (l.filter fun b => b.form == a.form).getLast? with
        | none => simp [takes]
        | some b =>
          have hb : b ∈ l := (List.mem_filter.1 (List.mem_of_getLast? hlast)).1
          have hcat : b.category = a.category := by rw [hl b (by simp [hb]), hl a (by simp)]
          have hhost : b.host ≠ a.host := hn.2.2 b.host (List.mem_map.2 ⟨b, hb, rfl⟩) a.host (by simp)
          simp [takes, hcat, hhost]
    · have hnone : [a].filter (fun b => b.form == f) = [] := by simpa using Ne.symm hf
      rw [if_neg (fun h => hf h.1), ih, hnone, List.append_nil]

/-- **What reading the atoms of several categories does to a form.** -/
theorem get?_foldl_flatMap : ∀ (cs : List Category) (ix : Index), cs.Nodup →
    (∀ held, ix.winners.get? f = some held → held.category ∉ cs) →
      ((cs.flatMap (Table.atomsOf entries)).foldl claim ix).winners.get? f =
        (ix.winners.get? f).or (cs.findSome? (Table.lastClaim? entries f))
  | [], ix, _, _ => by simp
  | c :: cs, ix, hn, hix => by
    rw [List.nodup_cons] at hn
    have hc := get?_foldl_claim ix (fun held h hcat => hix held h (hcat ▸ List.mem_cons_self)) (Table.atomsOf entries c)
      (fun a ha => (Table.mem_atomsOf.1 ha).1) Table.nodup_hosts_atomsOf
    rw [List.flatMap_cons, List.foldl_append, get?_foldl_flatMap cs _ hn.2, hc, List.findSome?_cons]
    · unfold Table.lastClaim?
      rw [Option.or_assoc]
      cases ((Table.atomsOf entries c).filter fun a => a.form == f).getLast? <;> rfl
    · intro held hheld hmem
      rw [hc, Option.or_eq_some_iff] at hheld
      rcases hheld with h | ⟨-, h⟩
      · exact hix held h (List.mem_cons_of_mem _ hmem)
      · have := (Table.lastClaim?_eq_some_iff.1 h).1
        exact hn.1 (this ▸ hmem)

/-- **Reading all atoms in order of priority ends with the winners.** -/
theorem get?_ofAtoms : (ofAtoms (Table.atomsIn entries)).winners.get? f = Table.winner? entries f := by
  unfold ofAtoms Table.atomsIn
  rw [get?_foldl_flatMap _ _ (by decide) (fun held h => by cases h)]
  rfl

end Index
end Argot
