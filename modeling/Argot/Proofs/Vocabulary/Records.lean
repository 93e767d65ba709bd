import Argot.Proofs.Json.ReadsBack
import Argot.Proofs.Vocabulary.Lists
import Argot.Vocabulary.Record
import Mathlib.Data.List.Sort
/-!
# Records — tables that are written and read back

A table that was changed and a new one of the same entries have the same winners, so they answer alike
(`Settled.lookup?_clone`) and search for the same forms (`Settled.convert_clone`), even if they list the forms in
different orders.  Reading what was written gives such a new table (`load_write`).  What may not be written is told by the
first entry of the table that is empty or untrimmed (`save_of_split`).
-/
namespace Argot

namespace Table

variable {t : Table}

/-! ## A table and its copy -/

theorem formBefore_iff {a b : Spelling} :
    formBefore a b = true ↔ b.codes.length < a.codes.length ∨ a.codes.length = b.codes.length ∧ ¬b.codes < a.codes := by
  simp only [formBefore, Bool.or_eq_true, Bool.and_eq_true, decide_eq_true_eq, beq_iff_eq, Bool.not_eq_true',
    decide_eq_false_iff_not, gt_iff_lt]

theorem formBefore_trans (a b c : Spelling) (hab : formBefore a b = true) (hbc : formBefore b c = true) :
    formBefore a c = true := by
  rw [formBefore_iff] at *
  rcases hab with hab | ⟨hab, hnot⟩ <;> rcases hbc with hbc | ⟨hbc, hnot'⟩
  · exact .inl (by omega)
  · exact .inl (by omega)
  · exact .inl (by omega)
  · exact .inr ⟨by omega, List.not_lt.2 (List.le_trans (List.not_lt.1 hnot) (List.not_lt.1 hnot'))⟩

theorem formBefore_total (a b : Spelling) : (formBefore a b || formBefore b a) = true := by
  rw [Bool.or_eq_true, formBefore_iff, formBefore_iff]
  rcases Nat.lt_trichotomy a.codes.length b.codes.length with h | h | h
  · exact .inr (.inl h)
  · rcases List.le_total a.codes b.codes with hle | hle
    · exact .inl (.inr ⟨h, List.not_lt.2 hle⟩)
    · exact .inr (.inr ⟨h.symm, List.not_lt.2 hle⟩)
  · exact .inl (.inl h)

theorem formBefore_antisymm {a b : Spelling} (hab : formBefore a b = true) (hba : formBefore b a = true) : a = b := by
  rw [formBefore_iff] at *
  rcases hab with hab | ⟨hab, hnot⟩ <;> rcases hba with hba | ⟨hba, hnot'⟩
  · omega
  · omega
  · omega
  · exact Spelling.codes_injective (List.le_antisymm (List.not_lt.1 hnot) (List.not_lt.1 hnot'))

/-- The search tries the forms in one order, however they are listed. -/
theorem searchOrder_perm {forms forms' : List Spelling} (h : forms.Perm forms') :
    searchOrder forms = searchOrder forms' :=
  List.Perm.eq_of_pairwise (fun _ _ _ _ => formBefore_antisymm)
    (List.pairwise_mergeSort formBefore_trans formBefore_total _)
    (List.pairwise_mergeSort formBefore_trans formBefore_total _)
    (((List.mergeSort_perm _ _).trans h).trans (List.mergeSort_perm _ _).symm)

theorem nodup_reversibleForms : t.reversibleForms.Nodup :=
  t.winners.nodup.filter _

theorem Settled.lookup?_clone (ht : t.Settled) (form : Spelling) : t.clone.lookup? form = t.lookup? form :=
  ((settled_ofEntries t.entries t.framework).winners form).trans (ht.winners form).symm

theorem Settled.reverse_clone (ht : t.Settled) (form : Spelling) : t.clone.reverse form = t.reverse form := by
  rw [reverse, reverse, ht.lookup?_clone]

theorem Settled.reversibleForms_clone (ht : t.Settled) : t.clone.reversibleForms.Perm t.reversibleForms := by
  refine (List.perm_ext_iff_of_nodup nodup_reversibleForms nodup_reversibleForms).2 fun form => ?_
  rw [mem_reversibleForms, mem_reversibleForms, isReversible, isReversible, ht.lookup?_clone]

theorem Settled.pattern?_clone (ht : t.Settled) : t.clone.pattern? = t.pattern? := by
  have hperm := ht.reversibleForms_clone
  have hclone : t.clone.Settled := settled_ofEntries t.entries t.framework
  rw [hclone.pattern?, ht.pattern?, searchOrder_perm hperm]
  by_cases hnil : t.reversibleForms = []
  · rw [if_pos hnil, if_pos (hnil ▸ hperm).eq_nil]
  · rw [if_neg hnil, if_neg fun h => hnil (h ▸ hperm).nil_eq.symm]

/-- **A changed table and a new one of its entries convert back alike.** -/
theorem Settled.convert_clone (ht : t.Settled) (text : String) :
    Reverse.convert t.clone text = Reverse.convert t text := by
  unfold Reverse.convert Reverse.replaceForms
  simp only [ht.pattern?_clone, ht.reverse_clone]

end Table

namespace Atom

/-- **An entry that may be written**: neither word is empty, and no white space surrounds them. -/
structure Recordable (a : Atom) : Prop where
  host_filled : a.host.isEmpty = false
  form_filled : a.form.isEmpty = false
  host_trimmed : a.host.isTrimmed = true
  form_trimmed : a.form.isTrimmed = true

instance (a : Atom) : Decidable a.Recordable :=
  decidable_of_iff
    (a.host.isEmpty = false ∧ a.form.isEmpty = false ∧ a.host.isTrimmed = true ∧ a.form.isTrimmed = true)
    ⟨fun h => ⟨h.1, h.2.1, h.2.2.1, h.2.2.2⟩, fun h => ⟨h.1, h.2, h.3, h.4⟩⟩

/-- What is said about an entry that may not be written. -/
def misfit (a : Atom) : Record.Misfit :=
  if a.host.isEmpty || a.form.isEmpty then .emptyForm a.category a.host a.form
  else .untrimmedForm a.category a.host a.form

end Atom

namespace Record

/-! ## The first entry that may not be written -/

theorem entryMisfit?_of_recordable {a : Atom} (h : a.Recordable) : entryMisfit? a.category a.host a.form = none := by
  simp [entryMisfit?, h.host_filled, h.form_filled, h.host_trimmed, h.form_trimmed]

theorem entryMisfit?_of_not_recordable {a : Atom} (h : ¬a.Recordable) :
    entryMisfit? a.category a.host a.form = some a.misfit := by
  unfold entryMisfit? Atom.misfit
  split
  · rfl
  · rename_i hempty
    simp only [Bool.or_eq_true, not_or, Bool.not_eq_true] at hempty
    rw [if_neg fun htrimmed => ?_]
    rw [Bool.and_eq_true] at htrimmed
    exact h ⟨hempty.1, hempty.2, htrimmed.1, htrimmed.2⟩

def filled (entries : Category → Entries) (cs : List Category) : List (Category × Entries) :=
  (cs.map fun c => (c, entries c)).filter fun p => !p.2.isEmpty

theorem filled_cons (entries : Category → Entries) (c : Category) (cs : List Category) :
    filled entries (c :: cs) = if (entries c).isEmpty then filled entries cs else (c, entries c) :: filled entries cs := by
  unfold filled
  rw [List.map_cons, List.filter_cons]
  cases (entries c).isEmpty <;> rfl

theorem firstMisfit?_cons (c : Category) (entries : Entries) (rest : List (Category × Entries)) :
    firstMisfit? ((c, entries) :: rest) =
      (entries.toList.findSome? fun p => entryMisfit? c p.1 p.2).or (firstMisfit? rest) := by
  rw [firstMisfit?, List.findSome?_cons]
  split
  · rename_i m hm
    have hm : entries.toList.findSome? (fun p => entryMisfit? c p.1 p.2) = some m := hm
    rw [hm]
    rfl
  · rename_i hm
    have hm : entries.toList.findSome? (fun p => entryMisfit? c p.1 p.2) = none := hm
    rw [hm]
    rfl

/-- Leaving out the categories without entries changes nothing about the first misfit. -/
theorem firstMisfit?_filled (entries : Category → Entries) : ∀ (cs : List Category),
    firstMisfit? (filled entries cs) =
      (cs.flatMap (Table.atomsOf entries)).findSome? fun a => entryMisfit? a.category a.host a.form
  | [] => rfl
  | c :: cs => by
    have ih := firstMisfit?_filled entries cs
    have hfirst : (Table.atomsOf entries c).findSome? (fun a => entryMisfit? a.category a.host a.form) =
        (entries c).toList.findSome? fun p => entryMisfit? c p.1 p.2 := by
      rw [Table.atomsOf, List.findSome?_map]
      rfl
    rw [filled_cons, List.flatMap_cons, List.findSome?_append, hfirst, ← ih]
    split
    · rename_i hempty
      rw [List.isEmpty_iff.1 hempty]
      rfl
    · rw [firstMisfit?_cons]

theorem firstMisfit?_eq (t : Table) : firstMisfit? (filledCategories t) =
    t.atoms.findSome? fun a => entryMisfit? a.category a.host a.form :=
  firstMisfit?_filled t.entries Category.all

/-- **A table with an entry that may not be written is not written**; the first such entry is told. -/
theorem save_of_split {t : Table} {before after : List Atom} {a : Atom} (hatoms : t.atoms = before ++ a :: after)
    (hbefore : ∀ b ∈ before, b.Recordable) (ha : ¬a.Recordable) (indent : Option Int) :
    save t indent = .error ⟨["categories"], a.misfit⟩ := by
  have hfirst : firstMisfit? (filledCategories t) = some a.misfit := by
    rw [firstMisfit?_eq, List.findSome?_eq_some_iff]
    exact ⟨before, a, after, hatoms, entryMisfit?_of_not_recordable ha, fun b hb =>
      entryMisfit?_of_recordable (hbefore b hb)⟩
  rw [save, hfirst]

theorem firstMisfit?_of_recordable {t : Table} (h : ∀ a ∈ t.atoms, a.Recordable) :
    firstMisfit? (filledCategories t) = none := by
  rw [firstMisfit?_eq, List.findSome?_eq_none_iff]
  exact fun a ha => entryMisfit?_of_recordable (h a ha)

/-! ## Reading what was written -/

theorem ofSpelling?_name (c : Category) : Category.ofSpelling? c.name = some c := by
  cases c <;> decide

theorem nodup_filled (entries : Category → Entries) (cs : List Category) (hcs : cs.Nodup) :
    ((filled entries cs).map Prod.fst).Nodup := by
  refine hcs.sublist ?_
  have hsub : (filled entries cs).Sublist (cs.map fun c => (c, entries c)) := List.filter_sublist
  simpa [Function.comp_def] using hsub.map Prod.fst

def entriesValue (entries : Entries) : Json.Value :=
  .object (entries.toList.map fun p => (p.1, .string p.2))

theorem wordy_entriesValue (depth : Nat) (entries : Entries) : Json.Wordy (depth + 1) (entriesValue entries) := by
  refine .object ?_ fun p hp => ?_
  · rw [List.map_map]
    exact entries.nodup
  · obtain ⟨q, -, rfl⟩ := List.mem_map.1 hp
    exact .string _ _

def categoriesValue (categories : List (Category × Entries)) : Json.Value :=
  .object (categories.map fun p => (p.1.name, entriesValue p.2))

theorem toValue_eq (t : Table) : toValue t = .object [("schema_version", .string version),
    ("framework", .string t.framework), ("categories", categoriesValue (filledCategories t))] := rfl

theorem name_injective {c c' : Category} (h : (c.name : Spelling) = c'.name) : c = c' := by
  have := congrArg Category.ofSpelling? (Spelling.text.inj h)
  rwa [ofSpelling?_name, ofSpelling?_name, Option.some.injEq] at this

theorem wordy_categoriesValue (depth : Nat) {categories : List (Category × Entries)}
    (hnodup : (categories.map Prod.fst).Nodup) : Json.Wordy (depth + 2) (categoriesValue categories) := by
  refine .object ?_ fun p hp => ?_
  · have hnames := hnodup.map (f := fun c => (c.name : Spelling)) fun _ _ => name_injective
    rwa [List.map_map] at hnames ⊢
  · obtain ⟨q, -, rfl⟩ := List.mem_map.1 hp
    exact wordy_entriesValue depth q.2

theorem wordy_toValue (depth : Nat) (t : Table) : Json.Wordy (depth + 3) (toValue t) := by
  have hkeys : [("schema_version" : Spelling), "framework", "categories"].Nodup := by decide
  rw [toValue_eq]
  refine .object hkeys fun p hp => ?_
  simp only [List.mem_cons, List.not_mem_nil, or_false] at hp
  rcases hp with rfl | rfl | rfl
  · exact .string _ _
  · exact .string _ _
  · exact wordy_categoriesValue depth (nodup_filled t.entries Category.all (by decide))

/-- Texts under a spelling of a category are read as entries of the category. -/
theorem readCategory_object {key : String} {c : Category} (h : Category.ofSpelling? key = some c)
    (pairs : List (Spelling × Spelling)) :
    readCategory key (.object (pairs.map fun p => (p.1, .string p.2))) = ([], some (c, OrderedMap.ofList pairs)) := by
  have hread : readEntries key (pairs.map fun p => (p.1, Json.Value.string p.2)) = ([], pairs) := by
    simp [readEntries, List.filterMap_map]
  unfold readCategory
  simp only [Spelling.text?, Option.bind_some, h, Spelling.shown, hread]
  rfl

theorem readCategory_entriesValue (c : Category) (entries : Entries) :
    readCategory c.name (entriesValue entries) = ([], some (c, entries)) := by
  rw [entriesValue, readCategory_object (ofSpelling?_name c), OrderedMap.ofList_toList]

/-- Categories whose members are read without an issue are read; of those that come twice the last counts. -/
theorem readCategories_object {members : List (Spelling × Json.Value)} {categories : List (Category × Entries)}
    (hread : members.map (fun p => readCategory p.1 p.2) = categories.map fun p => ([], some p))
    (hfirst : firstMisfit? (OrderedMap.ofList categories).toList = none) :
    readCategories (some (.object members)) = ([], OrderedMap.ofList categories) := by
  have hissues : (categories.map fun p => (([] : List Issue), some p)).flatMap Prod.fst = [] := by
    simp [List.flatMap_map]
  have hsome : (categories.map fun p => (([] : List Issue), some p)).filterMap Prod.snd = categories := by
    rw [List.filterMap_map]
    exact List.filterMap_some
  rw [readCategories]
  simp only [hread, hissues, hsome, hfirst]
  rfl

theorem readCategories_categoriesValue {categories : List (Category × Entries)}
    (hnodup : (categories.map Prod.fst).Nodup) (hfirst : firstMisfit? categories = none) :
    readCategories (some (categoriesValue categories)) = ([], OrderedMap.ofList categories) := by
  have hlist : (OrderedMap.ofList categories).toList = categories := OrderedMap.toList_insertAll .empty hnodup
  refine readCategories_object ?_ (hlist.symm ▸ hfirst)
  rw [List.map_map]
  exact List.map_congr_left fun p _ => readCategory_entriesValue p.1 p.2

theorem ofValue_toValue {t : Table} (hfirst : firstMisfit? (filledCategories t) = none) :
    ofValue (toValue t) = .ok ⟨t.framework, OrderedMap.ofList (filledCategories t)⟩ := by
  have hread : readCategories (Json.member? "categories" [("schema_version", .string version),
      ("framework", .string t.framework), ("categories", categoriesValue (filledCategories t))])
      = ([], OrderedMap.ofList (filledCategories t)) :=
    readCategories_categoriesValue (nodup_filled t.entries Category.all (by decide)) hfirst
  rw [toValue_eq, ofValue]
  simp only [hread]
  rfl

/-- **The table of a record has the entries of the record.** -/
theorem entries_toTable (r : Contents) (c : Category) : r.toTable.entries c = (r.categories.get? c).getD .empty := by
  have hnodup : ((r.categories.toList.map fun p => (p.1, p.2.toList)).map Prod.fst).Nodup := by
    rw [List.map_map]
    exact r.categories.nodup
  rw [Contents.toTable, Table.entries_ofLists, Table.listed_eq_lastListed hnodup, Table.lastListed,
    OrderedMap.find_reverse hnodup, OrderedMap.find_map_snd, ← OrderedMap.get?]
  cases r.categories.get? c with
  | none => rfl
  | some entries => exact OrderedMap.ofList_toList entries

theorem getD_filledCategories (t : Table) (c : Category) :
    ((OrderedMap.ofList (filledCategories t)).get? c).getD .empty = t.entries c := by
  have hlist : (OrderedMap.ofList (filledCategories t)).toList = filledCategories t :=
    OrderedMap.toList_insertAll .empty (nodup_filled t.entries Category.all (by decide))
  have hmem : ∀ entries, (c, entries) ∈ filledCategories t ↔ entries = t.entries c ∧ (t.entries c).isEmpty = false := by
    intro entries
    simp only [filledCategories, List.mem_filter, List.mem_map, Prod.mk.injEq, Bool.not_eq_true']
    constructor
    · rintro ⟨⟨_, -, rfl, rfl⟩, hfilled⟩
      exact ⟨rfl, hfilled⟩
    · rintro ⟨rfl, hfilled⟩
      exact ⟨⟨c, c.mem_all, rfl, rfl⟩, hfilled⟩
  cases hget : (OrderedMap.ofList (filledCategories t)).get? c with
  | some entries =>
    rw [OrderedMap.get?_eq_some_iff, hlist] at hget
    exact ((hmem entries).1 hget).1
  | none =>
    have hempty : (t.entries c).isEmpty = true := by
      by_contra hfilled
      have hthere := (hmem (t.entries c)).2 ⟨rfl, by simpa using hfilled⟩
      rw [← hlist, ← OrderedMap.get?_eq_some_iff, hget] at hthere
      cases hthere
    exact (OrderedMap.ext (List.isEmpty_iff.1 hempty)).symm

theorem toTable_eq_clone (t : Table) :
    Contents.toTable ⟨t.framework, OrderedMap.ofList (filledCategories t)⟩ = t.clone := by
  have hentries : (Contents.toTable ⟨t.framework, OrderedMap.ofList (filledCategories t)⟩).entries = t.entries := by
    funext c
    rw [entries_toTable, getD_filledCategories]
  exact congrArg (Table.ofEntries · t.framework) hentries

/-- **A table that is written reads back as a new table of its entries.** -/
theorem load_write {t : Table} (h : ∀ a ∈ t.atoms, a.Recordable) (indent : Option Int) :
    ∃ text, save t indent = .ok text ∧ load text = .ok t.clone := by
  have hfirst := firstMisfit?_of_recordable h
  refine ⟨Json.write (toValue t) indent, by rw [save, hfirst], ?_⟩
  rw [load, Json.read_write (wordy_toValue 982 t)]
  simp only [ofValue_toValue hfirst, toTable_eq_clone]

/-- **Writing and reading are inverse.**  However a table was made, and whatever was added, removed and asked for, with
any indentation: where some entry of the table is empty or untrimmed, writing fails and tells the first one, in the order
of the categories and of the entries in them.  Where none is, what was written reads back as a table with the same
framework and the same entries in the same order, which answers every question and converts every text back as the one
that was written does. -/
theorem load_save (entries : Category → Entries) (framework : Spelling) (cs : List Change) (indent : Option Int) :
    let t := (Table.ofEntries entries framework).changes cs
    (∀ before a after, t.atoms = before ++ a :: after → (∀ b ∈ before, b.Recordable) → ¬a.Recordable →
      save t indent = .error ⟨["categories"], a.misfit⟩) ∧
    ((∀ a ∈ t.atoms, a.Recordable) → ∃ text t', save t indent = .ok text ∧ load text = .ok t' ∧
      t'.framework = t.framework ∧
      (∀ c, (t'.entries c).toList = (t.entries c).toList) ∧
      (∀ host category, t'.forward host category = t.forward host category) ∧
      (∀ form, t'.reverse form = t.reverse form) ∧
      (∀ form, t'.lookup? form = t.lookup? form) ∧
      (∀ host, t'.categoryOf? host = t.categoryOf? host) ∧
      t'.integrity = t.integrity ∧
      ∀ text, Reverse.convert t' text = Reverse.convert t text) := by
  intro t
  have ht : t.Settled := Table.settled_changes cs (Table.settled_ofEntries entries framework)
  refine ⟨fun before a after hatoms hbefore ha => save_of_split hatoms hbefore ha indent, fun h => ?_⟩
  obtain ⟨text, hsave, hload⟩ := load_write h indent
  exact ⟨text, t.clone, hsave, hload, rfl, fun _ => rfl, fun _ _ => rfl, ht.reverse_clone, ht.lookup?_clone,
    fun _ => rfl, rfl, ht.convert_clone⟩

def letEntries : Category → Entries
  | .keyword => .ofList [("let", "one \"veer\"\n\x01way")]
  | _ => .empty

/-- A form with a quote, a line end and a control character reads back; an entry that was added with a blank before its
host word is told. -/
theorem load_save_let :
    (∃ text t', save (Table.ofEntries letEntries "none") (some (-1)) = .ok text ∧ load text = .ok t' ∧
      t'.forward "let" = "one \"veer\"\n\x01way") ∧
    save ((Table.ofEntries letEntries "none").changes [.add " var" "veer" none]) none =
      .error ⟨["categories"], .untrimmedForm .phrase " var" "veer"⟩ := by
  constructor
  · obtain ⟨text, t', hsave, hload, -, -, hforward, -⟩ := (load_save letEntries "none" [] (some (-1))).2 (by decide)
    exact ⟨text, t', hsave, hload, (hforward "let" none).trans (by decide)⟩
  · exact (load_save letEntries "none" [.add " var" "veer" none] none).1
      [⟨.keyword, "let", "one \"veer\"\n\x01way"⟩] ⟨.phrase, " var", "veer"⟩ [] (by decide) (by decide) (by decide)

end Record
end Argot
