import Argot.Proofs.Text.Matching
import Argot.Proofs.Vocabulary.Lists
import Argot.Vocabulary.Standard
/-!
# Standard — the words that are there from the start

Of the forms for Angular, those of decorators are a word of Latin letters behind an at sign and the others such a word
alone; the word of a decorator stands in no other form, so a decorator is the only way to it (`decorator_form`).
-/
namespace Argot

namespace Table

theorem isReversible_iff {t : Table} {word : Spelling} :
    t.isReversible word = true ↔ ∃ a, t.lookup? word = some a ∧ a.category ≠ .operator := by
  unfold isReversible
  cases t.lookup? word <;> simp

end Table

namespace Text.Matcher

theorem occursAfter_word_iff {s : List Char} : ∀ {cs : List Char} (before : Option Char),
    occursAfter (fun _ => word s) before cs = true ↔ s <:+: cs
  | [], _ => by
    rw [occursAfter, word, List.infix_nil]
    cases s <;> simp
  | c :: cs, before => by
    have hfront : (word s (c :: cs)).isSome = true ↔ s <+: c :: cs := by
      simp [Option.isSome_iff_exists, word_eq_some_iff]
    rw [occursAfter, Bool.or_eq_true, hfront, occursAfter_word_iff, List.infix_cons_iff]

theorem contains_iff {s cs : List Char} : contains s cs = true ↔ s <:+: cs :=
  occursAfter_word_iff none

end Text.Matcher

namespace Standard

open Text Matcher

variable {framework : String} {c : Category}

theorem settled_table : (table framework).Settled :=
  (Table.reachable_ofLists _ _).settled

theorem exists_of_mem_table {p : Spelling × Spelling} (h : p ∈ ((table framework).entries c).toList) :
    ∃ pairs host form, (c, pairs) ∈ lists framework ∧ (host, form) ∈ pairs ∧ p = (.text host, .text form) := by
  obtain ⟨spelled, hlist, hp⟩ := Table.mem_of_mem_ofLists h
  obtain ⟨⟨c', pairs⟩, hmem, heq⟩ := List.mem_map.1 hlist
  obtain ⟨rfl, rfl⟩ := Prod.mk.inj heq
  obtain ⟨⟨host, form⟩, hpair, rfl⟩ := List.mem_map.1 hp
  exact ⟨pairs, host, form, hmem, hpair, rfl⟩

/-! ## The forms for Angular -/

/-- A word of Latin letters. -/
def isLatin (word : List Char) : Bool :=
  !word.isEmpty && word.all isLatinLetter

/-- The entries of decorators. -/
def decorators : List (String × String) :=
  angularIdentifiers.filter fun p => p.1.toList.head? == some '@'

/-- An entry of a decorator, or one whose form is a word that holds the word of no decorator. -/
def isApart (c : Category) (p : String × String) : Bool :=
  match p.2.toList with
  | '@' :: _ => c == .frameworkIdentifier && decorators.contains p
  | form => isLatin form && decorators.all fun d => !contains (d.2.toList.drop 1) form

/-- An entry whose form is an at sign and a word that stands in the form of no other decorator. -/
def isSole (p : String × String) : Bool :=
  match p.2.toList with
  | '@' :: word => isLatin word && decorators.all fun d => d == p || !contains word d.2.toList
  | _ => false

theorem isApart_of_mem : ∀ l ∈ lists "angular", ∀ p ∈ l.2, isApart l.1 p = true := by
  have hall : ((lists "angular").all fun l => l.2.all (isApart l.1)) = true := by decide +kernel
  exact fun l hl p hp => List.all_eq_true.1 (List.all_eq_true.1 hall l hl) p hp

theorem isSole_of_mem : ∀ p ∈ decorators, isSole p = true := by
  have hall : decorators.all isSole = true := by decide +kernel
  exact List.all_eq_true.1 hall

variable {p : String × String}

theorem isApart_cases (h : isApart c p = true) :
    (c = .frameworkIdentifier ∧ p ∈ decorators) ∨
      (isLatin p.2.toList = true ∧ ∀ d ∈ decorators, ¬d.2.toList.drop 1 <:+: p.2.toList) := by
  unfold isApart at h
  split at h
  · rw [Bool.and_eq_true, beq_iff_eq, List.contains_iff_mem] at h
    exact .inl h
  · rw [Bool.and_eq_true, List.all_eq_true] at h
    refine .inr ⟨h.1, fun d hd hinfix => ?_⟩
    have hnone := h.2 d hd
    rw [contains_iff.2 hinfix] at hnone
    cases hnone

theorem exists_word_of_mem_decorators (h : p ∈ decorators) : ∃ word, p.2.toList = '@' :: word ∧ isLatin word = true ∧
    ∀ d ∈ decorators, word <:+: d.2.toList → d = p := by
  have hsole := isSole_of_mem p h
  unfold isSole at hsole
  split at hsole
  · rename_i word hform
    rw [Bool.and_eq_true, List.all_eq_true] at hsole
    refine ⟨word, hform, hsole.1, fun d hd hinfix => ?_⟩
    have honly := hsole.2 d hd
    rwa [contains_iff.2 hinfix, Bool.not_true, Bool.or_false, beq_iff_eq] at honly
  · cases hsole

/-- What a form goes back to in the table for Angular comes from an entry of its lists. -/
theorem exists_of_lookup {form : Spelling} {a : Atom} (h : (table "angular").lookup? form = some a) :
    ∃ host text, a = ⟨a.category, .text host, .text text⟩ ∧ form = .text text ∧
      isApart a.category (host, text) = true := by
  have hwinner : Table.winner? (table "angular").entries form = some a :=
    (settled_table.winners form).symm.trans h
  obtain ⟨pairs, host, text, hlist, hpair, heq⟩ := exists_of_mem_table (Table.winner?_mem hwinner)
  obtain ⟨hhost, rfl⟩ := Prod.mk.inj heq
  obtain ⟨hform, -⟩ := Table.winner?_eq_some_iff.1 hwinner
  exact ⟨host, text, by rw [← hhost, ← hform], rfl, isApart_of_mem _ hlist _ hpair⟩

/-- **A form for Angular is a word of Latin letters**, perhaps with an at sign before it. -/
theorem angular_form {form : String} {a : Atom} (h : (table "angular").lookup? form = some a) :
    ∃ word, isLatin word = true ∧ (form.toList = word ∨ form.toList = '@' :: word) := by
  obtain ⟨host, text, -, htext, hapart⟩ := exists_of_lookup h
  obtain rfl := Spelling.text.inj htext
  rcases isApart_cases hapart with ⟨-, hmem⟩ | ⟨hlatin, -⟩
  · obtain ⟨word, hform, hlatin, -⟩ := exists_word_of_mem_decorators hmem
    exact ⟨word, hlatin, .inr hform⟩
  · exact ⟨form.toList, hlatin, .inl rfl⟩

theorem mem_decorators_of_entry {name : String} {form : Spelling}
    (h : ((table "angular").entries .frameworkIdentifier).get? (.text ("@" ++ name)) = some form) :
    ∃ text, form = .text text ∧ ("@" ++ name, text) ∈ decorators := by
  obtain ⟨pairs, host, text, hlist, hpair, heq⟩ := exists_of_mem_table ((OrderedMap.get?_eq_some_iff _ _ _).1 h)
  obtain ⟨hhost, rfl⟩ := Prod.mk.inj heq
  obtain rfl := Spelling.text.inj hhost
  obtain rfl : pairs = angularIdentifiers := by simpa [lists, frameworkIdentifiers] using hlist
  exact ⟨text, rfl, List.mem_filter.2 ⟨hpair, by simp [String.toList_append]⟩⟩

/-- **The form of a decorator** is a word behind an at sign.  It goes back to the decorator, and is the only form that the
word stands in. -/
theorem decorator_form {name : String} {form : Spelling}
    (h : ((table "angular").entries .frameworkIdentifier).get? (.text ("@" ++ name)) = some form) :
    ∃ word, form = .text (String.ofList ('@' :: word)) ∧ isLatin word = true ∧
      (table "angular").lookup? form = some ⟨.frameworkIdentifier, .text ("@" ++ name), form⟩ ∧
      ∀ (other : String) (a : Atom), (table "angular").lookup? other = some a → word <:+: other.toList →
        other.toList = '@' :: word := by
  obtain ⟨text, rfl, hmem⟩ := mem_decorators_of_entry h
  obtain ⟨word, hform, hlatin, honly⟩ := exists_word_of_mem_decorators hmem
  dsimp only at hform
  have hword : word <:+: text.toList := hform ▸ (List.suffix_cons '@' word).isInfix
  -- of all forms with the word, only that of the decorator has it
  have hother : ∀ {other : String} {a : Atom}, (table "angular").lookup? other = some a → word <:+: other.toList →
      other = text ∧ a = ⟨.frameworkIdentifier, .text ("@" ++ name), .text text⟩ := by
    intro other a hlookup hinfix
    obtain ⟨host, text', ha, htext', hapart⟩ := exists_of_lookup hlookup
    obtain rfl := Spelling.text.inj htext'
    rcases isApart_cases hapart with ⟨hcategory, hmem'⟩ | ⟨-, hnone⟩
    · obtain ⟨rfl, rfl⟩ := Prod.mk.inj (honly _ hmem' hinfix)
      rw [hcategory] at ha
      exact ⟨rfl, ha⟩
    · exact absurd (by simpa [hform] using hinfix) (hnone _ hmem)
  refine ⟨word, by rw [← hform, String.ofList_toList], hlatin, ?_, fun other a hlookup hinfix => ?_⟩
  · cases hlookup : (table "angular").lookup? (.text text) with
    | none =>
      have hno := Table.winner?_eq_none_iff.1 ((settled_table.winners _).symm.trans hlookup)
      exact absurd rfl (hno _ _ ((OrderedMap.get?_eq_some_iff _ _ _).1 h))
    | some a => rw [(hother hlookup hword).2]
  · rw [(hother hlookup hinfix).1, hform]

end Standard
end Argot
