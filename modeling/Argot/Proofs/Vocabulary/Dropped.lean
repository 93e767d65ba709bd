import Argot.Proofs.Vocabulary.Contests
import Mathlib.Data.List.Dedup
/-!
# Dropped — each entry that is out of reach is dropped once

Reading the atoms one by one drops an atom in two ways: a later one of its category displaces it, or the form is held for
another host word already.  Since the atoms come category by category, a form is only ever taken over within the first
category that has it, and no host word comes twice there.  So what has been dropped is, at every moment, just the atoms
whose form is held for another host word, each of them once (`nodup_dropped`, `mem_dropped_iff`).  Hence the collisions of
a table are its entries that do not go back, and the entries can be counted by what becomes of them
(`count_dropped_eq`).
-/
namespace Argot
namespace Index

variable {a b held : Atom} {c : Collision} {l : List Atom}

/-- The form of an atom is held for another host word. -/
def Loses (ix : Index) (a : Atom) : Prop :=
  ∃ held, ix.winners.get? a.form = some held ∧ held.host ≠ a.host

theorem ofAtoms_concat : ofAtoms (l ++ [b]) = (ofAtoms l).claim b := by
  simp [ofAtoms]

theorem InOrder.of_concat (h : InOrder (l ++ [b])) : InOrder l ∧ ∀ a ∈ l,
    Category.all.idxOf a.category ≤ Category.all.idxOf b.category ∧ (a.category = b.category → a.host ≠ b.host) := by
  obtain ⟨hl, -, hb⟩ := List.pairwise_append.1 h
  exact ⟨hl, fun a ha => hb a ha b List.mem_cons_self⟩

theorem InOrder.nodup (h : InOrder l) : l.Nodup :=
  h.imp fun hab heq => hab.2 (congrArg Atom.category heq) (congrArg Atom.host heq)

/-! ## What is held while the atoms are read -/

/-- **The form of an atom that was read is held in its category or in an earlier one.** -/
theorem InOrder.exists_held (hl : InOrder l) (ha : a ∈ l) : ∃ held, (ofAtoms l).winners.get? a.form = some held ∧
    Category.all.idxOf held.category ≤ Category.all.idxOf a.category := by
  induction l using List.reverseRecOn with
  | nil => exact (List.not_mem_nil ha).elim
  | append_singleton l b ih =>
    obtain ⟨hpre, hb⟩ := hl.of_concat
    rw [ofAtoms_concat, get?_claim]
    split
    · rename_i htakes
      refine ⟨b, rfl, ?_⟩
      rcases List.mem_append.1 ha with ha | ha
      · -- the atom that gives the form up is of the category of `b`
        obtain ⟨held, hheld, hle⟩ := ih hpre ha
        rw [← htakes.1, hheld, takes_eq_true_iff] at htakes
        rw [← htakes.2.2]
        exact hle
      · exact Nat.le_of_eq (by rw [List.mem_singleton.1 ha])
    · rename_i htakes
      rcases List.mem_append.1 ha with ha | ha
      · exact ih hpre ha
      · obtain rfl := List.mem_singleton.1 ha
        cases hheld : (ofAtoms l).winners.get? a.form with
        | none => exact (htakes ⟨rfl, by rw [hheld]; rfl⟩).elim
        | some held => exact ⟨held, rfl, (hb held (mem_of_held hheld).1).1⟩

/-- Where an atom of the category that comes now holds a form, all atoms with the form are of that category. -/
theorem InOrder.category_eq (hl : InOrder (l ++ [b])) (hheld : (ofAtoms l).winners.get? b.form = some held)
    (hcategory : held.category = b.category) (ha : a ∈ l) (hform : a.form = b.form) : a.category = b.category := by
  obtain ⟨hpre, hb⟩ := hl.of_concat
  obtain ⟨held', hheld', hle⟩ := hpre.exists_held ha
  obtain rfl : held = held' := Option.some.inj (hheld.symm.trans (hform ▸ hheld'))
  rw [hcategory] at hle
  exact category_eq_of_idxOf_eq (Nat.le_antisymm (hb a ha).1 hle)

/-! ## What one more atom changes -/

/-- An atom without a contest makes nobody lose. -/
theorem loses_claim_of_none (hl : InOrder (l ++ [b])) (h : (ofAtoms l).contest? b = none) (ha : a ∈ l ++ [b]) :
    Loses ((ofAtoms l).claim b) a ↔ a ∈ l ∧ Loses (ofAtoms l) a := by
  rw [contest?_eq_none_iff] at h
  unfold Loses
  rw [get?_claim]
  cases hheld : (ofAtoms l).winners.get? b.form with
  | none =>
    -- nobody had the form
    have hne : a ∈ l → a.form ≠ b.form := fun ha hform => by
      obtain ⟨held, hheld', -⟩ := hl.of_concat.1.exists_held ha
      rw [hform, hheld] at hheld'
      cases hheld'
    rcases List.mem_append.1 ha with ha | ha
    · simp [hne ha, ha]
    · obtain rfl := List.mem_singleton.1 ha
      refine iff_of_false ?_ fun h => hne h.1 rfl
      simp [takes]
  | some held =>
    have hhost := h held hheld
    have htakes : ¬takes b (some held) = true := fun h => (takes_eq_true_iff.1 h).1 hhost
    rw [if_neg fun h => htakes h.2]
    rcases List.mem_append.1 ha with ha | ha
    · simp [ha]
    · obtain rfl := List.mem_singleton.1 ha
      simp [hheld, hhost]

/-- **A contest makes just the atom lose that it drops.** -/
theorem loses_claim_of_contest (hl : InOrder (l ++ [b])) (h : Contest (ofAtoms l) b c) (ha : a ∈ l ++ [b]) :
    Loses ((ofAtoms l).claim b) a ↔ (a ∈ l ∧ Loses (ofAtoms l) a) ∨ a = c.dropped := by
  obtain ⟨hpre, hb⟩ := hl.of_concat
  have hbl : b ∉ l := fun hbl => (hb b hbl).2 rfl rfl
  obtain ⟨held, hheld, hhost, ⟨hcategory, -, hdropped⟩ | ⟨hcategory, -, hdropped⟩⟩ := h.between
  · -- `b` displaces the atom that held the form, and all atoms that have the form are of one category
    have htakes : takes b (some held) = true := takes_eq_true_iff.2 ⟨hhost, hcategory⟩
    obtain ⟨hmem, hform⟩ := mem_of_held hheld
    rw [hdropped]
    unfold Loses
    rw [get?_claim, hheld]
    by_cases hf : a.form = b.form
    · rw [if_pos ⟨hf, htakes⟩, hf, hheld]
      rcases List.mem_append.1 ha with ha | ha
      · have hsame := hl.category_eq hheld hcategory ha hf
        have hne : b.host ≠ a.host := fun heq => (hb a ha).2 hsame heq.symm
        refine iff_of_true ⟨b, rfl, hne⟩ ?_
        by_cases heq : held.host = a.host
        · refine .inr ?_
          cases a
          cases held
          simp_all
        · exact .inl ⟨ha, held, rfl, heq⟩
      · obtain rfl := List.mem_singleton.1 ha
        refine iff_of_false ?_ ?_
        · rintro ⟨_, h, hne⟩
          exact hne (Option.some.inj h ▸ rfl)
        · rintro (⟨h, -⟩ | rfl)
          · exact hbl h
          · exact hhost rfl
    · rw [if_neg fun h => hf h.1]
      rcases List.mem_append.1 ha with ha | ha
      · have hne : a ≠ held := fun heq => hf (heq ▸ hform)
        simp [ha, hne]
      · exact (hf (List.mem_singleton.1 ha ▸ rfl)).elim
  · -- the atom that holds the form keeps it, and `b` is dropped
    have htakes : ¬takes b (some held) = true := fun h => hcategory (takes_eq_true_iff.1 h).2
    rw [hdropped]
    unfold Loses
    rw [get?_claim, hheld, if_neg fun h => htakes h.2]
    rcases List.mem_append.1 ha with ha | ha
    · have hne : a ≠ b := fun heq => hbl (heq ▸ ha)
      simp [ha, hne]
    · obtain rfl := List.mem_singleton.1 ha
      simp [hheld, hhost]

/-- What a contest drops was not dropped before. -/
theorem Contest.dropped_new (hl : InOrder (l ++ [b])) (h : Contest (ofAtoms l) b c) :
    c.dropped ∈ l ++ [b] ∧ ¬(c.dropped ∈ l ∧ Loses (ofAtoms l) c.dropped) := by
  obtain ⟨held, hheld, -, ⟨-, -, hdropped⟩ | ⟨-, -, hdropped⟩⟩ := h.between
  · obtain ⟨hmem, hform⟩ := mem_of_held hheld
    rw [hdropped]
    refine ⟨List.mem_append_left _ hmem, ?_⟩
    rintro ⟨-, held', hheld', hne⟩
    rw [hform, hheld] at hheld'
    exact hne (Option.some.inj hheld' ▸ rfl)
  · rw [hdropped]
    exact ⟨by simp, fun hb => (hl.of_concat.2 b hb.1).2 rfl rfl⟩

/-! ## What has been dropped -/

theorem dropped_concat : (ofAtoms (l ++ [b])).collisions.map Collision.dropped =
    (ofAtoms l).collisions.map Collision.dropped ++ (((ofAtoms l).contest? b).map Collision.dropped).toList := by
  rw [ofAtoms_concat, collisions_claim, List.map_append]
  cases (ofAtoms l).contest? b <;> rfl

/-- **The atoms that have been dropped are those whose form is held for another host word.** -/
theorem mem_dropped_iff (hl : InOrder l) :
    a ∈ (ofAtoms l).collisions.map Collision.dropped ↔ a ∈ l ∧ Loses (ofAtoms l) a := by
  induction l using List.reverseRecOn with
  | nil => simp [ofAtoms, empty]
  | append_singleton l b ih =>
    rw [dropped_concat, List.mem_append, ih hl.of_concat.1, ofAtoms_concat]
    cases hcontest : (ofAtoms l).contest? b with
    | none =>
      rw [Option.map_none, Option.toList_none, List.mem_nil_iff, or_false]
      constructor
      · exact fun h => ⟨List.mem_append_left _ h.1, (loses_claim_of_none hl hcontest (List.mem_append_left _ h.1)).2 h⟩
      · exact fun h => (loses_claim_of_none hl hcontest h.1).1 h.2
    | some c =>
      have hc := contest?_eq_some hcontest
      rw [Option.map_some, Option.toList_some, List.mem_singleton]
      constructor
      · intro h
        have ha : a ∈ l ++ [b] := by
          rcases h with h | rfl
          · exact List.mem_append_left _ h.1
          · exact (hc.dropped_new hl).1
        exact ⟨ha, (loses_claim_of_contest hl hc ha).2 h⟩
      · exact fun h => (loses_claim_of_contest hl hc h.1).1 h.2

/-- **No atom is dropped twice.** -/
theorem nodup_dropped (hl : InOrder l) : ((ofAtoms l).collisions.map Collision.dropped).Nodup := by
  induction l using List.reverseRecOn with
  | nil => exact List.nodup_nil
  | append_singleton l b ih =>
    have hpre := hl.of_concat.1
    rw [dropped_concat]
    refine List.nodup_append.2 ⟨ih hpre, ?_, fun x hx y hy heq => ?_⟩
    · cases (ofAtoms l).contest? b <;> simp
    · cases hcontest : (ofAtoms l).contest? b with
      | none =>
        rw [hcontest] at hy
        cases hy
      | some c =>
        rw [hcontest, Option.map_some, Option.toList_some, List.mem_singleton] at hy
        rw [heq, hy, mem_dropped_iff hpre] at hx
        exact ((contest?_eq_some hcontest).dropped_new hl).2 hx

end Index

namespace Table

variable {t : Table} {entries : Category → Entries} {a : Atom}

/-! ## The entries of a table -/

theorem size_eq_length_atoms : t.size = t.atoms.length := by
  simp [size, atoms, atomsIn, atomsOf, Category.all, OrderedMap.size]
  omega

theorem forward_of_mem_atoms (ha : a ∈ t.atoms) : t.forward a.host (some a.category) = a.form := by
  have hget := (OrderedMap.get?_eq_some_iff _ _ _).2 (mem_atomsIn.1 ha)
  change ((t.entries a.category).get? a.host).getD a.host = a.form
  rw [hget]
  rfl

/-- An entry's form goes back to something, and it loses just if that is another host word. -/
theorem Settled.loses_iff (ht : t.Settled) (ha : a ∈ t.atoms) :
    Index.Loses (Index.ofAtoms t.atoms) a ↔ t.reverse a.form ≠ a.host := by
  obtain ⟨held, hheld, -⟩ := inOrder_atomsIn.exists_held ha
  have hlookup : t.lookup? a.form = some held := (ht.winners a.form).trans (Index.get?_ofAtoms.symm.trans hheld)
  unfold Index.Loses reverse
  rw [hlookup]
  constructor
  · rintro ⟨held', hheld', hne⟩
    rw [← Option.some.inj (hheld.symm.trans hheld')] at hne
    exact hne
  · exact fun hne => ⟨held, hheld, hne⟩

/-- **What the collisions of a table drop is its entries that do not go back**, each of them once. -/
theorem Settled.dropped_perm (ht : t.Settled) : (t.integrity.map Collision.dropped).Perm
    (t.atoms.filter fun a => t.reverse a.form ≠ a.host) := by
  refine (List.perm_ext_iff_of_nodup (Index.nodup_dropped inOrder_atomsIn)
    (inOrder_atomsIn.nodup.filter _)).2 fun a => ?_
  rw [List.mem_filter, decide_eq_true_eq]
  refine (Index.mem_dropped_iff inOrder_atomsIn).trans (and_congr_right fun ha => ht.loses_iff ha)

/-! ## Counting entries -/

/-- An entry that its form does not go back to, though it goes back to the same host word. -/
def IsShadow (t : Table) (a : Atom) : Prop :=
  t.lookup? a.form ≠ some a ∧ t.reverse a.form = a.host

instance (t : Table) (a : Atom) : Decidable (t.IsShadow a) :=
  inferInstanceAs (Decidable (_ ∧ _))

theorem Settled.lookup?_eq_some_mem (ht : t.Settled) {f : Spelling} (h : t.lookup? f = some a) :
    a ∈ t.atoms ∧ a.form = f := by
  rw [lookup?, ht.winners f] at h
  have hform := (winner?_eq_some_iff.1 h).1
  exact ⟨mem_atomsIn.2 (hform ▸ winner?_mem h), hform⟩

theorem Settled.mem_forms_iff (ht : t.Settled) {f : Spelling} : f ∈ t.forms ↔ f ∈ t.atoms.map Atom.form := by
  have hmem : f ∈ t.forms ↔ ∃ a, t.lookup? f = some a := by
    rw [← Option.ne_none_iff_exists', Ne, lookup?, OrderedMap.get?_eq_none_iff, not_not]
    rfl
  rw [hmem, List.mem_map]
  constructor
  · rintro ⟨a, ha⟩
    exact ⟨a, ht.lookup?_eq_some_mem ha⟩
  · rintro ⟨a, ha, rfl⟩
    obtain ⟨held, hheld, -⟩ := inOrder_atomsIn.exists_held ha
    exact ⟨held, (ht.winners a.form).trans (Index.get?_ofAtoms.symm.trans hheld)⟩

/-- The way back holds each form once. -/
theorem Settled.forms_perm (ht : t.Settled) : t.forms.Perm (t.atoms.map Atom.form).dedup :=
  (List.perm_ext_iff_of_nodup t.winners.nodup (List.nodup_dedup _)).2 fun f => by
    rw [List.mem_dedup]
    exact ht.mem_forms_iff

/-- The entries that win are as many as the forms. -/
theorem Settled.winning_perm (ht : t.Settled) :
    ((t.atoms.filter fun a => t.lookup? a.form = some a).map Atom.form).Perm t.forms := by
  refine (List.perm_ext_iff_of_nodup ?_ t.winners.nodup).2 fun f => Iff.trans ?_ ht.mem_forms_iff.symm
  · refine List.Nodup.map_on (fun a ha b hb hform => ?_) (inOrder_atomsIn.nodup.filter _)
    have ha' := (List.mem_filter.1 ha).2
    have hb' := (List.mem_filter.1 hb).2
    rw [decide_eq_true_eq] at ha' hb'
    rw [hform, hb'] at ha'
    exact (Option.some.inj ha').symm
  · rw [List.mem_map, List.mem_map]
    constructor
    · rintro ⟨a, ha, rfl⟩
      exact ⟨a, (List.mem_filter.1 ha).1, rfl⟩
    · rintro ⟨a, ha, rfl⟩
      obtain ⟨held, hheld, -⟩ := inOrder_atomsIn.exists_held ha
      have hlookup : t.lookup? a.form = some held := (ht.winners a.form).trans (Index.get?_ofAtoms.symm.trans hheld)
      obtain ⟨hmem, hform⟩ := ht.lookup?_eq_some_mem hlookup
      exact ⟨held, List.mem_filter.2 ⟨hmem, by rw [hform, hlookup]; simp⟩, hform⟩

/-- **Each entry wins its form, is dropped in a collision, or is in the shadow of its own host word.** -/
theorem Settled.length_atoms (ht : t.Settled) :
    t.atoms.length = t.forms.length + t.integrity.length + (t.atoms.filter fun a => t.IsShadow a).length := by
  have hwinning : (t.atoms.filter fun a => t.lookup? a.form = some a).length = t.forms.length := by
    rw [← ht.winning_perm.length_eq, List.length_map]
  have hdropped : (t.atoms.filter fun a => t.reverse a.form ≠ a.host).length = t.integrity.length := by
    rw [← ht.dropped_perm.length_eq, List.length_map]
  -- first by the host word that the form goes back to, then by the entry that wins
  have hsplit := List.length_eq_length_filter_add (l := t.atoms) fun a => decide (t.reverse a.form ≠ a.host)
  have hkept := List.length_eq_length_filter_add (l := t.atoms.filter fun a => !decide (t.reverse a.form ≠ a.host))
    fun a => decide (t.lookup? a.form = some a)
  rw [List.filter_filter, List.filter_filter] at hkept
  have hwins : (t.atoms.filter fun a => decide (t.lookup? a.form = some a) && !decide (t.reverse a.form ≠ a.host)) =
      t.atoms.filter fun a => t.lookup? a.form = some a := by
    refine List.filter_congr fun a _ => ?_
    by_cases h : t.lookup? a.form = some a
    · have hreverse : t.reverse a.form = a.host := by rw [reverse, h]
      simp [h, hreverse]
    · simp [h]
  have hshadow : (t.atoms.filter fun a => !decide (t.lookup? a.form = some a) && !decide (t.reverse a.form ≠ a.host)) =
      t.atoms.filter fun a => t.IsShadow a := by
    refine List.filter_congr fun a _ => ?_
    rw [Bool.eq_iff_iff, decide_eq_true_eq, Bool.and_eq_true, Bool.not_eq_true', decide_eq_false_iff_not,
      Bool.not_eq_true', decide_eq_false_iff_not, not_not]
    rfl
  rw [hwins, hshadow] at hkept
  omega

/-- **Collisions are complete and none comes twice.**  However a table was made and changed, an atom is dropped in one
collision if it is an entry whose form does not go back to its host word, and in none otherwise.  So there are no
collisions just where every entry's form goes back, and the entries are as many as the distinct forms, the collisions and
the entries in the shadow of their own host words together. -/
theorem count_dropped_eq (entries : Category → Entries) (framework : Spelling) (cs : List Change) :
    let t := (ofEntries entries framework).changes cs
    (∀ a, (t.integrity.map Collision.dropped).count a = if a ∈ t.atoms ∧ t.reverse a.form ≠ a.host then 1 else 0) ∧
    (t.integrity = [] ↔ ∀ a ∈ t.atoms, t.reverse (t.forward a.host (some a.category)) = a.host) ∧
    t.stats.totalMappings = (t.atoms.map Atom.form).dedup.length + t.stats.collisions +
      (t.atoms.filter fun a => t.IsShadow a).length ∧
    t.stats.reverseMappings = (t.atoms.map Atom.form).dedup.length := by
  intro t
  have ht : t.Settled := settled_changes cs (settled_ofEntries entries framework)
  have hforms : t.forms.length = (t.atoms.map Atom.form).dedup.length := ht.forms_perm.length_eq
  refine ⟨fun a => ?_, ?_, ?_, ?_⟩
  · have hmem : a ∈ t.integrity.map Collision.dropped ↔ a ∈ t.atoms ∧ t.reverse a.form ≠ a.host := by
      rw [ht.dropped_perm.mem_iff, List.mem_filter, decide_eq_true_eq]
    have hnodup : (t.integrity.map Collision.dropped).Nodup := Index.nodup_dropped inOrder_atomsIn
    rw [hnodup.count]
    exact if_congr hmem rfl rfl
  · rw [← List.map_eq_nil_iff (f := Collision.dropped), ← List.length_eq_zero_iff, ht.dropped_perm.length_eq,
      List.length_eq_zero_iff, List.filter_eq_nil_iff]
    refine forall₂_congr fun a ha => ?_
    rw [forward_of_mem_atoms ha, decide_eq_true_eq, not_not]
  · change t.size = _
    rw [size_eq_length_atoms, ht.length_atoms, hforms]
    rfl
  · rw [← hforms]
    exact (List.length_map _).symm

end Table
end Argot
