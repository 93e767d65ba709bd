import Argot.Proofs.Vocabulary.Dropped
import Argot.Proofs.Vocabulary.TakenBack
/-!
# Suggestions — which forms a table suggests, and in which order

Suggestions are the first of the forms that resemble a word, in the order in which the table lists its forms
(`suggestions_eq_take`).  A new table lists a form where its first entry stands (`forms_clone`), while a changed one keeps
it where it was first claimed and puts new ones last.  So a table and its copy suggest the same just where the forms of the
table still stand as its entries do (`suggestions_clone_iff`): before any change, and after adding new phrases, but not
after adding a new word of an earlier category (`copy_suggests_other_form`).
-/
namespace Argot

theorem eraseDups_concat {α : Type} [DecidableEq α] (l : List α) (a : α) :
    (l ++ [a]).eraseDups = if a ∈ l then l.eraseDups else l.eraseDups ++ [a] := by
  rw [List.eraseDups_append]
  by_cases ha : a ∈ l <;> simp [List.removeAll, ha, List.eraseDups_cons]

namespace Index

variable {l : List Atom}

theorem keys_claim (ix : Index) (a : Atom) : (ix.claim a).winners.keys =
    if a.form ∈ ix.winners.keys then ix.winners.keys else ix.winners.keys ++ [a.form] := by
  unfold claim
  cases hheld : ix.winners.get? a.form with
  | none => exact ix.winners.keys_insert a.form a
  | some held =>
    have hmem : a.form ∈ ix.winners.keys := (OrderedMap.mem_keys_iff _ _).2 ⟨held, hheld⟩
    rw [if_pos hmem]
    by_cases hhost : held.host = a.host
    · simp [hhost]
    · by_cases hcategory : held.category = a.category
      · simp [hhost, hcategory, OrderedMap.keys_insert, hmem]
      · simp [hhost, hcategory]

/-- **Reading atoms one by one lists each form where its first atom stands.** -/
theorem keys_ofAtoms : (ofAtoms l).winners.keys = (l.map Atom.form).eraseDups := by
  induction l using List.reverseRecOn with
  | nil => rfl
  | append_singleton l a ih =>
    rw [ofAtoms_concat, keys_claim, ih, List.map_append, List.map_singleton, eraseDups_concat]
    simp only [List.mem_eraseDups]

end Index

namespace Table

variable {t : Table} {word : String} {form host : Spelling}

/-! ## The first forms that resemble a word -/

/-- The search for matches takes the first of them, and at least one. -/
theorem firstMatches_eq_take (p : Spelling → Bool) (limit : Int) : ∀ (l : List Spelling) (found : Nat),
    firstMatches p limit found l = (l.filter p).take (max 1 (limit - found)).toNat
  | [], _ => by simp [firstMatches]
  | form :: rest, found => by
    rw [firstMatches]
    by_cases hp : p form = true
    · rw [if_pos hp, List.filter_cons_of_pos hp]
      by_cases hlast : (found : Int) + 1 ≥ limit
      · have hone : (max 1 (limit - found)).toNat = 1 := by omega
        rw [if_pos hlast, hone]
        rfl
      · have hmore : (max 1 (limit - found)).toNat = (max 1 (limit - (found + 1 : Nat))).toNat + 1 := by omega
        rw [if_neg hlast, hmore, List.take_succ_cons, firstMatches_eq_take p limit rest]
    · rw [if_neg hp, List.filter_cons_of_neg hp, firstMatches_eq_take p limit rest]

theorem suggestions_eq_take (t : Table) (word : String) (limit : Int) :
    t.suggestions word limit = (t.forms.filter (resembles word)).take (max 1 limit).toNat := by
  unfold suggestions
  rw [firstMatches_eq_take, Int.natCast_zero, Int.sub_zero]

theorem contains_nil : ∀ (cs : List Char), Text.Matcher.contains [] cs = true
  | [] => rfl
  | _ :: _ => rfl

theorem texts_ne_nil : ∀ (form : Spelling), form.texts ≠ []
  | .text _ => nofun
  | .broken ps _ => by
    have hruns : ∀ points : List CodePoint, Spelling.runs points ≠ [] := fun points => by
      unfold Spelling.runs
      split
      · nofun
      · nofun
      · split <;> nofun
    simpa [Spelling.texts] using hruns ps

/-- Every form resembles the empty word. -/
theorem resembles_empty (form : Spelling) : resembles "" form = true := by
  obtain ⟨s, rest, hs⟩ := List.exists_cons_of_ne_nil (texts_ne_nil form)
  have hneedle : (Text.lower "").toList = [] := rfl
  unfold resembles
  simp [hs, hneedle, contains_nil]

/-- Tables that suggest the same list the same forms in the same order. -/
theorem suggestions_eq_iff {t t' : Table} :
    (∀ word limit, t'.suggestions word limit = t.suggestions word limit) ↔ t'.forms = t.forms := by
  constructor
  · intro h
    have hall : ∀ u : Table, u.forms.filter (resembles "") = u.forms := fun u =>
      List.filter_eq_self.2 fun form _ => resembles_empty form
    have hlong := h "" (t.forms.length + t'.forms.length : Nat)
    rw [suggestions_eq_take, suggestions_eq_take, hall, hall, List.take_of_length_le (by omega),
      List.take_of_length_le (by omega)] at hlong
    exact hlong
  · intro h word limit
    rw [suggestions_eq_take, suggestions_eq_take, h]

/-! ## The order of the forms -/

/-- The forms stand in the order in which the entries, category by category, claim them first. -/
def FormsInOrder (t : Table) : Prop :=
  t.forms = (t.atoms.map Atom.form).eraseDups

instance (t : Table) : Decidable t.FormsInOrder :=
  inferInstanceAs (Decidable (_ = _))

/-- **A new table lists its forms in order.** -/
theorem formsInOrder_ofEntries (entries : Category → Entries) (framework : Spelling) :
    (ofEntries entries framework).FormsInOrder :=
  Index.keys_ofAtoms

theorem forms_clone (t : Table) : t.clone.forms = (t.atoms.map Atom.form).eraseDups :=
  formsInOrder_ofEntries t.entries t.framework

theorem forms_clone_eq_iff : t.clone.forms = t.forms ↔ t.FormsInOrder := by
  rw [forms_clone]
  exact eq_comm

theorem Settled.forms_clone_perm (ht : t.Settled) : t.clone.forms.Perm t.forms :=
  (settled_ofEntries t.entries t.framework).forms_perm.trans ht.forms_perm.symm

/-- A phrase that is new comes behind all other entries. -/
theorem atoms_add_phrase (hnew : (t.entries .phrase).get? host = none) :
    (t.add host form (some .phrase)).atoms = t.atoms ++ [⟨.phrase, host, form⟩] := by
  have hlast : OrderedMap.write host form (t.entries .phrase).toList = (t.entries .phrase).toList ++ [(host, form)] :=
    OrderedMap.write_of_not_mem ((OrderedMap.get?_eq_none_iff _ _).1 hnew)
  have hphrase : atomsOf (t.add host form (some .phrase)).entries .phrase =
      atomsOf t.entries .phrase ++ [⟨.phrase, host, form⟩] := by
    change atomsOf (update t.entries .phrase (·.insert host form)) .phrase = _
    unfold atomsOf
    rw [update_self, OrderedMap.toList_insert, hlast, List.map_append]
    rfl
  unfold atoms atomsIn
  simp only [Category.all, List.flatMap_cons, List.flatMap_nil, hphrase, List.append_nil, List.append_assoc]
  rfl

/-- **Adding a phrase that is new keeps the order.** -/
theorem FormsInOrder.add_phrase (h : t.FormsInOrder) (ht : t.Settled) (hnew : (t.entries .phrase).get? host = none) :
    (t.add host form (some .phrase)).FormsInOrder := by
  obtain ⟨w, -, hwinners⟩ := ht.winners_add_new hnew form
  have hforms : t.winners.keys = (t.atoms.map Atom.form).eraseDups := h
  unfold FormsInOrder forms
  rw [hwinners, OrderedMap.keys_insert, hforms, atoms_add_phrase hnew, List.map_append, List.map_singleton,
    eraseDups_concat]
  simp only [List.mem_eraseDups]

/-- Whether a change only adds a phrase that is new, or asks for the forms. -/
def addsPhrase (t : Table) : Change → Bool
  | .add host _ category =>
    category.getD ((t.categoryOf? host).getD .phrase) = .phrase && !(t.entries .phrase).contains host
  | .remove .. => false
  | .ask => true

def addsPhrases : Table → List Change → Bool
  | _, [] => true
  | t, ch :: cs => t.addsPhrase ch && addsPhrases (t.change ch) cs

theorem FormsInOrder.change (h : t.FormsInOrder) (ht : t.Settled) : ∀ {ch : Change}, t.addsPhrase ch = true →
    (t.change ch).FormsInOrder
  | .add host form category, hch => by
    rw [addsPhrase, Bool.and_eq_true, decide_eq_true_eq, Bool.not_eq_true'] at hch
    have hadd : t.add host form category = t.add host form (some .phrase) := by
      unfold add
      rw [hch.1]
      rfl
    change (t.add host form category).FormsInOrder
    rw [hadd]
    exact h.add_phrase ht (by simpa [OrderedMap.contains] using hch.2)
  | .ask, _ => h

theorem FormsInOrder.changes : ∀ (cs : List Change) {t : Table}, t.FormsInOrder → t.Settled →
    t.addsPhrases cs = true → (t.changes cs).FormsInOrder
  | [], _, h, _, _ => h
  | ch :: cs, _, h, ht, hcs => by
    rw [addsPhrases, Bool.and_eq_true] at hcs
    exact FormsInOrder.changes cs (h.change ht hcs.1) (settled_change ht ch) hcs.2

/-- **A table and its copy suggest the same just where the forms of the table stand in order.**  However a table was made
and changed, its copy lists the same forms, and what resembles a word in one does in the other; they come in the same
order, and are cut off at the same form by every limit, exactly if the table lists its forms as its entries claim them.
That is so as long as nothing but new phrases was added. -/
theorem suggestions_clone_iff (entries : Category → Entries) (framework : Spelling) (cs : List Change) :
    let t := (ofEntries entries framework).changes cs
    ((∀ word limit, t.clone.suggestions word limit = t.suggestions word limit) ↔ t.FormsInOrder) ∧
    (t.clone.forms = t.forms ↔ t.FormsInOrder) ∧
    t.clone.forms.Perm t.forms ∧
    (∀ word (limit : Int), (t.forms.filter (resembles word)).length ≤ limit →
      (t.clone.suggestions word limit).Perm (t.suggestions word limit)) ∧
    ((ofEntries entries framework).addsPhrases cs = true → t.FormsInOrder) := by
  intro t
  have ht : t.Settled := settled_changes cs (settled_ofEntries entries framework)
  have hperm := ht.forms_clone_perm
  refine ⟨suggestions_eq_iff.trans forms_clone_eq_iff, forms_clone_eq_iff, hperm, fun word limit hlimit => ?_, fun hcs =>
    FormsInOrder.changes cs (formsInOrder_ofEntries entries framework) (settled_ofEntries entries framework) hcs⟩
  have hfilter := hperm.filter (resembles word)
  have hlength := hfilter.length_eq
  rw [suggestions_eq_take, suggestions_eq_take, List.take_of_length_le (by omega), List.take_of_length_le (by omega)]
  exact hfilter

def greetEntries : Category → Entries
  | .phrase => .ofList [("greet", "salute")]
  | _ => .empty

/-- A phrase that was added is suggested by the copy where the table suggests it. -/
theorem suggestions_clone_new_phrase :
    let t := (ofEntries greetEntries "none").changes [.add "wave" "saluteAll" none]
    (ofEntries greetEntries "none").addsPhrases [.add "wave" "saluteAll" none] = true ∧
      t.clone.suggestions "salute" 1 = t.suggestions "salute" 1 := by
  intro t
  have hadds : (ofEntries greetEntries "none").addsPhrases [.add "wave" "saluteAll" none] = true := by decide
  obtain ⟨hiff, -, -, -, horder⟩ := suggestions_clone_iff greetEntries "none" [.add "wave" "saluteAll" none]
  exact ⟨hadds, hiff.2 (horder hadds) "salute" 1⟩

/-- **A copy suggests another form**: a keyword that was added stands behind the phrase in the table, but before it in its
copy. -/
theorem copy_suggests_other_form :
    let t := (ofEntries greetEntries "none").changes [.add "hello" "saluteAll" (some .keyword)]
    t.suggestions "salute" 1 = ["salute"] ∧ t.clone.suggestions "salute" 1 = ["saluteAll"] ∧
      t.forms = ["salute", "saluteAll"] ∧ t.clone.forms = ["saluteAll", "salute"] := by
  decide +kernel

end Table
end Argot
