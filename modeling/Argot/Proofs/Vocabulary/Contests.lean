import Argot.Proofs.Vocabulary.Agreement
/-!
# Contests — whom a collision names, and who wins the form

A collision names the atom that holds the form at the moment the collision is met.  The form stays in the category of
that atom (`exists_held_foldl`), but a later entry of the category may still take it.  So a collision names the winner
just where no later entry of that category has the form, which is always so between categories, and the last collision
of a form names the winner in any case (`kept_iff_last_claim`).  Of three entries in one category the first collision
names the second one, and the third one wins (`third_entry_displaces_second`).
-/
namespace Argot
namespace Index

variable {f : Spelling} {a b held : Atom} {c : Collision} {ix : Index}

/-- **Atoms in reading order**: category by category, and no host word twice in a category. -/
def InOrder (l : List Atom) : Prop :=
  l.Pairwise fun a b => Category.all.idxOf a.category ≤ Category.all.idxOf b.category ∧
    (a.category = b.category → a.host ≠ b.host)

theorem category_eq_of_idxOf_eq {c d : Category} (h : Category.all.idxOf c = Category.all.idxOf d) : c = d := by
  revert h
  cases c <;> cases d <;> decide

/-! ## Who holds a form -/

theorem takes_eq_true_iff : takes a (some held) = true ↔ held.host ≠ a.host ∧ held.category = a.category := by
  simp [takes]

/-- **A form stays in its category.** -/
theorem exists_held_foldl : ∀ (l : List Atom) {ix : Index} {held : Atom}, ix.winners.get? f = some held →
    ∃ winner, (l.foldl claim ix).winners.get? f = some winner ∧ winner.category = held.category
  | [], _, held, h => ⟨held, h, rfl⟩
  | a :: l, ix, held, h => by
    rw [List.foldl_cons]
    by_cases htakes : f = a.form ∧ takes a (ix.winners.get? a.form) = true
    · have ha : (ix.claim a).winners.get? f = some a := by rw [get?_claim, if_pos htakes]
      rw [← htakes.1, h, takes_eq_true_iff] at htakes
      rw [htakes.2.2]
      exact exists_held_foldl l ha
    · exact exists_held_foldl l (by rw [get?_claim, if_neg htakes, h])

/-- Atoms of other categories leave a form with the atom that holds it. -/
theorem held_foldl : ∀ (l : List Atom) {ix : Index}, ix.winners.get? f = some held →
    (∀ b ∈ l, b.category ≠ held.category) → (l.foldl claim ix).winners.get? f = some held
  | [], _, h, _ => h
  | a :: l, ix, h, hl => by
    rw [List.foldl_cons]
    refine held_foldl l ?_ fun b hb => hl b (List.mem_cons_of_mem _ hb)
    rw [get?_claim, if_neg, h]
    rintro ⟨rfl, htakes⟩
    exact hl a List.mem_cons_self (takes_eq_true_iff.1 (h ▸ htakes)).2.symm

theorem mem_of_held {l : List Atom} (h : (ofAtoms l).winners.get? f = some held) : held ∈ l ∧ held.form = f := by
  unfold ofAtoms at h
  induction l using List.reverseRecOn with
  | nil => cases h
  | append_singleton l a ih =>
    rw [List.foldl_append, List.foldl_cons, List.foldl_nil, get?_claim] at h
    split at h
    · rename_i htakes
      cases h
      exact ⟨by simp, htakes.1.symm⟩
    · exact ⟨List.mem_append_left _ (ih h).1, (ih h).2⟩

/-! ## Collisions -/

/-- **What a collision says**: two atoms with different host words meet, and the form is left with the one that is
kept, which is the later one within a category and the earlier one between two. -/
structure Contest (ix : Index) (a : Atom) (c : Collision) : Prop where
  form : c.form = a.form
  between : ∃ held, ix.winners.get? a.form = some held ∧ held.host ≠ a.host ∧
    (held.category = a.category ∧ c.kept = a ∧ c.dropped = held ∨
      held.category ≠ a.category ∧ c.kept = held ∧ c.dropped = a)

theorem contest?_eq_some (h : ix.contest? a = some c) : Contest ix a c := by
  unfold contest? at h
  cases hheld : ix.winners.get? a.form with
  | none =>
    rw [hheld] at h
    cases h
  | some held =>
    rw [hheld] at h
    by_cases hhost : held.host = a.host
    · simp [hhost] at h
    by_cases hcategory : held.category = a.category
    · simp only [hhost, hcategory, if_false, if_true, Option.some.injEq] at h
      subst h
      exact ⟨rfl, held, hheld, hhost, .inl ⟨hcategory, rfl, rfl⟩⟩
    · simp only [hhost, hcategory, if_false, Option.some.injEq] at h
      subst h
      exact ⟨rfl, held, hheld, hhost, .inr ⟨hcategory, rfl, rfl⟩⟩

/-- The atom that a collision names holds the form right after. -/
theorem Contest.get?_claim_form (h : Contest ix a c) : (ix.claim a).winners.get? c.form = some c.kept := by
  obtain ⟨held, hheld, hhost, ⟨hcategory, hkept, -⟩ | ⟨hcategory, hkept, -⟩⟩ := h.between
  · have htakes : takes a (some held) = true := takes_eq_true_iff.2 ⟨hhost, hcategory⟩
    rw [h.form, hkept, get?_claim, if_pos ⟨rfl, hheld ▸ htakes⟩]
  · have htakes : ¬takes a (some held) = true := fun ht => hcategory (takes_eq_true_iff.1 ht).2
    rw [h.form, hkept, get?_claim, if_neg (fun ht => htakes (hheld ▸ ht.2)), hheld]

/-- Each collision was met when some atom was read. -/
theorem exists_contest {l : List Atom} (h : c ∈ (ofAtoms l).collisions) :
    ∃ pre a post, l = pre ++ a :: post ∧ Contest (ofAtoms pre) a c := by
  unfold ofAtoms at h
  induction l using List.reverseRecOn with
  | nil => exact (List.not_mem_nil h).elim
  | append_singleton l a ih =>
    rw [List.foldl_append, List.foldl_cons, List.foldl_nil, collisions_claim, List.mem_append, Option.mem_toList] at h
    rcases h with h | h
    · obtain ⟨pre, b, post, rfl, hcontest⟩ := ih h
      exact ⟨pre, b, post ++ [a], by simp, hcontest⟩
    · exact ⟨l, a, [], rfl, contest?_eq_some h⟩

/-- **The last collision of a form names the atom that holds it.** -/
theorem kept_of_last {l : List Atom} (h : ((ofAtoms l).collisions.filter fun c => c.form == f).getLast? = some c) :
    (ofAtoms l).winners.get? f = some c.kept := by
  unfold ofAtoms at *
  induction l using List.reverseRecOn with
  | nil => cases h
  | append_singleton l a ih =>
    rw [List.foldl_append, List.foldl_cons, List.foldl_nil] at h ⊢
    rw [collisions_claim, List.filter_append, List.getLast?_append] at h
    generalize l.foldl claim empty = ix at *
    cases hcontest : ix.contest? a with
    | some d =>
      have hd := contest?_eq_some hcontest
      rw [hcontest] at h
      by_cases hf : d.form = f
      · obtain rfl : d = c := by simpa [hf] using h
        exact hf ▸ hd.get?_claim_form
      · have hne : f ≠ a.form := fun he => hf (hd.form.trans he.symm)
        rw [get?_claim, if_neg fun ht => hne ht.1]
        exact ih (by simpa [hf] using h)
    | none =>
      -- an atom without a contest takes a form only if nobody holds it, and then there was no collision
      rw [hcontest] at h
      have hheld := ih (by simpa using h)
      rw [get?_claim, if_neg, hheld]
      rintro ⟨rfl, htakes⟩
      rw [hheld] at htakes
      exact (takes_eq_true_iff.1 htakes).1 ((contest?_eq_none_iff ix a).1 hcontest _ hheld)

end Index

namespace Table

variable {entries : Category → Entries} {a b : Atom} {c : Collision} {pre post : List Atom}

/-! ## Who wins -/

/-- No later entry of its category has the form of an atom. -/
def IsLastClaim (entries : Category → Entries) (a : Atom) : Prop :=
  ∃ before after, (entries a.category).toList = before ++ (a.host, a.form) :: after ∧ ∀ p ∈ after, p.2 ≠ a.form

theorem inOrder_atomsIn : Index.InOrder (atomsIn entries) := by
  unfold Index.InOrder atomsIn
  refine List.pairwise_flatMap.2 ⟨fun c _ => ?_, ?_⟩
  · have hhosts : (atomsOf entries c).Pairwise fun a b => a.host ≠ b.host := List.pairwise_map.1 nodup_hosts_atomsOf
    refine hhosts.imp_of_mem fun {a b} ha hb hne => ⟨Nat.le_of_eq ?_, fun _ => hne⟩
    rw [(mem_atomsOf.1 ha).1, (mem_atomsOf.1 hb).1]
  · have hall : Category.all.Pairwise fun c d => Category.all.idxOf c ≤ Category.all.idxOf d ∧ c ≠ d := by decide
    refine hall.imp fun {c d} hcd a ha b hb => ?_
    rw [(mem_atomsOf.1 ha).1, (mem_atomsOf.1 hb).1]
    exact ⟨hcd.1, fun heq => (hcd.2 heq).elim⟩

/-- Atoms are listed category by category: once another category has come, there are no more of the first one. -/
theorem category_ne_of_split (hl : atomsIn entries = pre ++ a :: post) {held : Atom} (hheld : held ∈ pre)
    (hcategory : held.category ≠ a.category) : ∀ b ∈ post, b.category ≠ held.category := by
  have hordered : Index.InOrder (pre ++ a :: post) := hl ▸ inOrder_atomsIn
  obtain ⟨-, hlater, hacross⟩ := List.pairwise_append.1 hordered
  intro b hb hsame
  have hfirst := (hacross held hheld a List.mem_cons_self).1
  have hthen := ((List.pairwise_cons.1 hlater).1 b hb).1
  rw [hsame] at hthen
  exact hcategory (Index.category_eq_of_idxOf_eq (Nat.le_antisymm hfirst hthen))

/-- The winner of a contested form is of the category that the collision names. -/
theorem exists_winner_of_contest (hl : atomsIn entries = pre ++ a :: post)
    (h : Index.Contest (Index.ofAtoms pre) a c) :
    ∃ winner, winner? entries c.form = some winner ∧ winner.category = c.kept.category := by
  obtain ⟨winner, hwinner, hcategory⟩ := Index.exists_held_foldl post h.get?_claim_form
  refine ⟨winner, ?_, hcategory⟩
  rw [← Index.get?_ofAtoms, hl, Index.ofAtoms, List.foldl_append]
  exact hwinner

theorem kept_form (h : Index.Contest (Index.ofAtoms pre) a c) : c.kept.form = c.form := by
  obtain ⟨held, hheld, -, ⟨-, hkept, -⟩ | ⟨-, hkept, -⟩⟩ := h.between
  · rw [hkept, h.form]
  · rw [hkept, h.form, (Index.mem_of_held hheld).2]

/-- **The atom that a collision names wins just where it is the last claim of its category.** -/
theorem winner?_eq_kept_iff (h : c ∈ (Index.ofAtoms (atomsIn entries)).collisions) :
    winner? entries c.form = some c.kept ↔ IsLastClaim entries c.kept := by
  obtain ⟨pre, a, post, hl, hcontest⟩ := Index.exists_contest h
  obtain ⟨winner, hwinner, hcategory⟩ := exists_winner_of_contest hl hcontest
  have hform := kept_form hcontest
  refine ⟨fun hkept => (winner?_eq_some_iff.1 hkept).2.last, fun hlast => ?_⟩
  -- both are the last claim of one category
  obtain ⟨hwinnerForm, hwins⟩ := winner?_eq_some_iff.1 hwinner
  have hkept : lastClaim? entries c.form c.kept.category = some c.kept := by
    rw [← hform]
    exact lastClaim?_eq_some_iff.2 ⟨rfl, rfl, hlast⟩
  have hfound : lastClaim? entries c.form c.kept.category = some winner := by
    rw [← hcategory, ← hwinnerForm]
    exact lastClaim?_eq_some_iff.2 ⟨rfl, rfl, hwins.last⟩
  rw [hwinner, ← hfound, hkept]

/-- **Between two categories the atom that a collision names wins.** -/
theorem winner?_eq_kept_of_across (h : c ∈ (Index.ofAtoms (atomsIn entries)).collisions)
    (hacross : c.sameCategory = false) : winner? entries c.form = some c.kept := by
  obtain ⟨pre, a, post, hl, hcontest⟩ := Index.exists_contest h
  have hne : c.kept.category ≠ c.dropped.category := by simpa [Collision.sameCategory] using hacross
  obtain ⟨held, hheld, -, ⟨hcategory, hkept, hdropped⟩ | ⟨hcategory, hkept, -⟩⟩ := hcontest.between
  · rw [hkept, hdropped] at hne
    exact (hne hcategory.symm).elim
  · have hothers := category_ne_of_split hl (Index.mem_of_held hheld).1 hcategory
    rw [← hkept] at hothers
    rw [← Index.get?_ofAtoms, hl, Index.ofAtoms, List.foldl_append]
    exact Index.held_foldl post hcontest.get?_claim_form hothers

/-- **Which collisions name the winner.**  However a table was made and changed, a collision names the atom that its
form goes back to just where no later entry in the category of that atom has the form, which is so for each collision
between two categories and for the last collision of each form.  Where it does, the host word at the end of its
description is the one that the form goes back to. -/
theorem kept_iff_last_claim (entries : Category → Entries) (framework : Spelling) (cs : List Change) :
    let t := (ofEntries entries framework).changes cs
    (∀ c ∈ t.integrity, (t.lookup? c.form = some c.kept ↔ IsLastClaim t.entries c.kept) ∧
      (c.sameCategory = false → t.lookup? c.form = some c.kept) ∧
      (t.lookup? c.form = some c.kept → ∃ said, c.describe =
        said ++ "); reverse mode resolves it to '" ++ (t.reverse c.form).shown ++ "'")) ∧
    ∀ f c, (t.integrity.filter fun c => c.form == f).getLast? = some c → t.lookup? f = some c.kept := by
  intro t
  have ht : t.Settled := settled_changes cs (settled_ofEntries entries framework)
  have hlookup : ∀ f, t.lookup? f = winner? t.entries f := ht.winners
  refine ⟨fun c hc => ⟨?_, fun hacross => ?_, fun hkept => ?_⟩, fun f c hlast => ?_⟩
  · rw [hlookup]
    exact winner?_eq_kept_iff hc
  · rw [hlookup]
    exact winner?_eq_kept_of_across hc hacross
  · have hreverse : t.reverse c.form = c.kept.host := by rw [reverse, hkept]
    rw [hreverse]
    exact ⟨_, rfl⟩
  · rw [hlookup, ← Index.get?_ofAtoms]
    exact Index.kept_of_last hlast

/-- Three entries with one form that were added to an empty table, two of them in one category. -/
theorem kept_iff_last_claim_three_words :
    let t := (ofEntries fun _ => .empty).changes
      [.add "a" "x" (some .keyword), .add "b" "x" (some .keyword), .add "c" "x" none]
    let within : Collision := ⟨"x", ⟨.keyword, "b", "x"⟩, ⟨.keyword, "a", "x"⟩⟩
    let across : Collision := ⟨"x", ⟨.keyword, "b", "x"⟩, ⟨.phrase, "c", "x"⟩⟩
    t.integrity = [within, across] ∧ IsLastClaim t.entries within.kept ∧ t.lookup? "x" = some within.kept ∧
      across.sameCategory = false ∧ t.lookup? "x" = some across.kept := by
  intro t within across
  have hintegrity : t.integrity = [within, across] := by decide +kernel
  have hclaim : IsLastClaim t.entries within.kept := ⟨[("a", "x")], [], by decide +kernel, fun _ h => (by cases h)⟩
  have hwithin : within ∈ t.integrity := hintegrity ▸ List.mem_cons_self
  have hacross : across ∈ t.integrity := hintegrity ▸ List.mem_cons_of_mem _ List.mem_cons_self
  obtain ⟨hkept, -⟩ := kept_iff_last_claim (fun _ => .empty) "none"
    [.add "a" "x" (some .keyword), .add "b" "x" (some .keyword), .add "c" "x" none]
  exact ⟨hintegrity, hclaim, (hkept within hwithin).1.2 hclaim, rfl, (hkept across hacross).2.1 rfl⟩

/-- **The third of three entries displaces the second, and the first collision names the second.** -/
theorem third_entry_displaces_second :
    let t := ofLists [(.keyword, [("a", "x"), ("b", "x"), ("c", "x")])]
    let c : Collision := ⟨"x", ⟨.keyword, "b", "x"⟩, ⟨.keyword, "a", "x"⟩⟩
    c ∈ t.integrity ∧ t.lookup? c.form = some ⟨.keyword, "c", "x"⟩ ∧ t.lookup? c.form ≠ some c.kept := by
  decide +kernel

end Table
end Argot
