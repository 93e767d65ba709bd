import Argot.Proofs.Vocabulary.Records
/-!
# Spelled — records that name a category in several ways

A category may be spelled loosely, so the entries of one category may stand in a record under several spellings.  Reading
the record keeps what stands under the last of them (`entries_toTable_spelled`), where a table that is made from the same
lists has the entries of all (`entries_ofLists`).  So an entry is lost just if its host word is missing under the last
spelling of its category (`last_spelling_counts`).
-/
namespace Argot

namespace Record

/-- Entries under one of the spellings of their category. -/
structure Spelled where
  key : String
  category : Category
  names : Category.ofSpelling? key = some category
  entries : List (Spelling × Spelling)

/-- The member of a record for entries under a spelling. -/
def Spelled.member (s : Spelled) : Spelling × Json.Value :=
  (s.key, .object (s.entries.map fun p => (p.1, .string p.2)))

def Spelled.list (s : Spelled) : Category × List (Spelling × Spelling) :=
  (s.category, s.entries)

/-- Whether all the entries may be recorded. -/
def Spelled.Recordable (s : Spelled) : Prop :=
  ∀ p ∈ s.entries, Atom.Recordable ⟨s.category, p.1, p.2⟩

instance (s : Spelled) : Decidable s.Recordable :=
  inferInstanceAs (Decidable (∀ p ∈ s.entries, Atom.Recordable ⟨s.category, p.1, p.2⟩))

/-- The record that has these entries and nothing else. -/
def recordOf (parts : List Spelled) : Json.Value :=
  .object [("categories", .object (parts.map Spelled.member))]

def entriesOf (parts : List Spelled) : OrderedMap Category Entries :=
  .ofList (parts.map fun s => (s.category, .ofList s.entries))

variable {parts : List Spelled}

theorem firstMisfit?_entriesOf (h : ∀ s ∈ parts, s.Recordable) : firstMisfit? (entriesOf parts).toList = none := by
  refine List.findSome?_eq_none_iff.2 fun part hpart => List.findSome?_eq_none_iff.2 fun p hp => ?_
  obtain ⟨s, hs, rfl⟩ := List.mem_map.1 (OrderedMap.mem_of_mem_ofList hpart)
  exact entryMisfit?_of_recordable (a := ⟨s.category, p.1, p.2⟩) (h s hs p (OrderedMap.mem_of_mem_ofList hp))

/-- **A record of entries that may be recorded is read**, however its categories are spelled. -/
theorem ofValue_recordOf (h : ∀ s ∈ parts, s.Recordable) :
    ofValue (recordOf parts) = .ok ⟨"none", entriesOf parts⟩ := by
  have hread : readCategories (Json.member? "categories" [("categories", .object (parts.map Spelled.member))]) =
      ([], entriesOf parts) := by
    refine readCategories_object ?_ (firstMisfit?_entriesOf h)
    rw [List.map_map, List.map_map]
    exact List.map_congr_left fun s _ => readCategory_object s.names s.entries
  rw [recordOf, ofValue]
  simp only [hread]
  rfl

/-- **A table that is read has what stands under the last spelling of each category.** -/
theorem entries_toTable_spelled (parts : List Spelled) (framework : Spelling) (c : Category) :
    (Contents.toTable ⟨framework, entriesOf parts⟩).entries c =
      .ofList (Table.lastListed (parts.map Spelled.list) c) := by
  have hlist : parts.map (fun s => (s.category, OrderedMap.ofList s.entries)) =
      (parts.map Spelled.list).map fun p => (p.1, OrderedMap.ofList p.2) := by
    rw [List.map_map]
    rfl
  have hget : (entriesOf parts).get? c = (OrderedMap.find c (parts.map Spelled.list).reverse).map OrderedMap.ofList := by
    rw [entriesOf, OrderedMap.get?_ofList, hlist, ← List.map_reverse, OrderedMap.find_map_snd]
  rw [entries_toTable, hget, Table.lastListed]
  cases OrderedMap.find c (parts.map Spelled.list).reverse <;> rfl

/-- **Reading a record keeps the last spelling of each category.**  A record of entries that may be recorded is read into a
table, with the entries that stand under the last spelling of each category; a table made of the same lists has those
under all spellings.  The two agree on every host word exactly if each host word that is listed for a category is listed
under its last spelling, and they are the same where no category is spelled twice. -/
theorem last_spelling_counts (parts : List Spelled) (h : ∀ s ∈ parts, s.Recordable) :
    let lists := parts.map Spelled.list
    ∃ r, ofValue (recordOf parts) = .ok r ∧
      (∀ c, r.toTable.entries c = .ofList (Table.lastListed lists c)) ∧
      (∀ c, (Table.ofLists lists).entries c = .ofList (Table.listed lists c)) ∧
      ((∀ c host, (r.toTable.entries c).get? host = ((Table.ofLists lists).entries c).get? host) ↔
        ∀ c, ∀ p ∈ Table.listed lists c, p.1 ∈ (Table.lastListed lists c).map Prod.fst) ∧
      ((lists.map Prod.fst).Nodup → r.toTable = Table.ofLists lists) := by
  intro lists
  have hread := entries_toTable_spelled parts "none"
  have hmade := Table.entries_ofLists lists "none"
  refine ⟨_, ofValue_recordOf h, hread, hmade, ?_, fun hnodup => ?_⟩
  · simp only [hread, hmade]
    exact forall_congr' fun c => Table.get?_lastListed_iff
  · have hentries : (Contents.toTable ⟨"none", entriesOf parts⟩).entries = (Table.ofLists lists).entries := by
      funext c
      rw [hread, hmade, Table.listed_eq_lastListed hnodup]
    exact congrArg (Table.ofEntries · "none") hentries

/-- The second spelling has the host word of the first. -/
theorem last_spelling_counts_repeated_host :
    let parts : List Spelled := [⟨"keyword", .keyword, by decide +kernel, [("let", "lockIn")]⟩,
      ⟨" Keyword", .keyword, by decide +kernel, [("let", "tightVar"), ("var", "looseVar")]⟩]
    (∀ s ∈ parts, s.Recordable) ∧ ∃ r, ofValue (recordOf parts) = .ok r ∧ ∀ c host,
      (r.toTable.entries c).get? host = ((Table.ofLists (parts.map Spelled.list)).entries c).get? host := by
  intro parts
  have hrecordable : ∀ s ∈ parts, s.Recordable := by decide +kernel
  obtain ⟨r, hread, -, -, hiff, -⟩ := last_spelling_counts parts hrecordable
  have hlisted : ∀ c, ∀ p ∈ Table.listed (parts.map Spelled.list) c,
      p.1 ∈ (Table.lastListed (parts.map Spelled.list) c).map Prod.fst := by
    intro c
    cases c <;> decide +kernel
  exact ⟨hrecordable, r, hread, hiff.2 hlisted⟩

/-- **What stands under an earlier spelling is lost**, though nothing overrides it. -/
theorem earlier_spelling_lost :
    let parts : List Spelled := [⟨"keyword", .keyword, by decide +kernel, [("let", "tightVar")]⟩,
      ⟨"Keyword", .keyword, by decide +kernel, [("var", "looseVar")]⟩]
    (∀ s ∈ parts, s.Recordable) ∧ ∃ r, ofValue (recordOf parts) = .ok r ∧
      (r.toTable.entries .keyword).get? "let" = none ∧
      ((Table.ofLists (parts.map Spelled.list)).entries .keyword).get? "let" = some "tightVar" := by
  intro parts
  have hrecordable : ∀ s ∈ parts, s.Recordable := by decide +kernel
  refine ⟨hrecordable, _, ofValue_recordOf hrecordable, ?_, ?_⟩
  · rw [entries_toTable_spelled]
    decide +kernel
  · rw [Table.entries_ofLists]
    decide +kernel

end Record
end Argot
