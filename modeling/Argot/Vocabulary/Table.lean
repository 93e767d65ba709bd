import Argot.Text.Matcher
import Argot.Vocabulary.Index
/-!
# Table — a two-way vocabulary

A table holds the entries of each category and, derived from them, the way back from each form to its host word.
Adding and removing entries keeps the way back up to date form by form; `Table.integrity` reads all entries anew and
reports the collisions among them.

Reverse conversion tries the forms longest first.  That list is made when it is first asked for and kept until the
entries change.
-/
namespace Argot

/-- The entries of one category: host words and their forms, in the order they were entered. -/
abbrev Entries := OrderedMap Spelling Spelling

/-- A two-way vocabulary. -/
structure Table where
  framework : Spelling
  entries : Category → Entries
  winners : OrderedMap Spelling Atom
  /-- The collisions met when the table was built; later changes leave this list alone. -/
  collisions : List Collision
  /-- The forms that reverse conversion looks for, longest first, once they have been asked for. -/
  cachedForms : Option (List Spelling) := none

namespace Table

def atomsOf (entries : Category → Entries) (c : Category) : List Atom :=
  (entries c).toList.map fun p => ⟨c, p.1, p.2⟩

def atomsIn (entries : Category → Entries) : List Atom :=
  Category.all.flatMap (atomsOf entries)

def ofEntries (entries : Category → Entries) (framework : Spelling := "none") : Table :=
  let index := Index.ofAtoms (atomsIn entries)
  { framework, entries, winners := index.winners, collisions := index.collisions }

def update (entries : Category → Entries) (c : Category) (f : Entries → Entries) : Category → Entries :=
  fun c' => if c' = c then f (entries c) else entries c'

/-- The table of a list of entry lists: a category that is listed twice has the entries of both lists. -/
def ofLists (lists : List (Category × List (Spelling × Spelling))) (framework : Spelling := "none") : Table :=
  ofEntries (lists.foldl (fun acc l => update acc l.1 (·.insertAll l.2)) fun _ => .empty) framework

variable (t : Table)

/-! ## Looking up -/

/-- The category that a host word is found in when none is asked for. -/
def categoryOf? (host : Spelling) : Option Category :=
  Category.all.find? fun c => (t.entries c).contains host

/-- The form of a host word, in one category or in the first that has it; a word without a form is its own. -/
def forward (host : Spelling) (category : Option Category := none) : Spelling :=
  match category with
  | some c => ((t.entries c).get? host).getD host
  | none => (Category.all.findSome? fun c => (t.entries c).get? host).getD host

def lookup? (form : Spelling) : Option Atom :=
  t.winners.get? form

/-- The host word that a form goes back to; a word that is no form is its own. -/
def reverse (form : Spelling) : Spelling :=
  match t.lookup? form with
  | some a => a.host
  | none => form

/-- Whether a host word has a form, in one category or in any. -/
def hasHost (host : Spelling) (category : Option Category := none) : Bool :=
  match category with
  | some c => (t.entries c).contains host
  | none => (t.categoryOf? host).isSome

def hasForm (form : Spelling) : Bool :=
  t.winners.contains form

/-- Whether reverse conversion replaces the word.  Operator forms stand in generated comments only, which are removed
as a whole. -/
def isReversible (word : Spelling) : Bool :=
  match t.lookup? word with
  | some a => a.category != .operator
  | none => false

def atoms : List Atom :=
  atomsIn t.entries

/-- All forms, in the order in which they were first claimed. -/
def forms : List Spelling :=
  t.winners.keys

def size : Nat :=
  Category.all.foldl (fun n c => n + (t.entries c).size) 0

/-! ## Changing entries -/

/-- The atom that wins a form: the last claim of the first category that claims it. -/
def winner? (entries : Category → Entries) (form : Spelling) : Option Atom :=
  Category.all.findSome? fun c => ((atomsOf entries c).filter fun a => a.form == form).getLast?

def settle (entries : Category → Entries) (form : Spelling) (winners : OrderedMap Spelling Atom) :
    OrderedMap Spelling Atom :=
  match winner? entries form with
  | some a => winners.insert form a
  | none => winners.erase form

/-- Writes an entry.  Without a category it goes where the host word is found, or to the phrases if it is new.  The form
that the host word had before is settled anew, and so is the new form if it was taken. -/
def add (host form : Spelling) (category : Option Category := none) : Table :=
  let c := category.getD ((t.categoryOf? host).getD .phrase)
  let previous := (t.entries c).get? host
  let entries := update t.entries c (·.insert host form)
  let released := match previous with
    | some old => if old = form then t.winners else settle entries old t.winners
    | none => t.winners
  let winners :=
    if released.contains form then settle entries form released else released.insert form ⟨c, host, form⟩
  { t with entries, winners, cachedForms := none }

/-- Removes an entry and says whether there was one.  Without a category it is taken from where the host word is
found.  A form that the entry held goes to the next claim. -/
def remove (host : Spelling) (category : Option Category := none) : Bool × Table :=
  match category.or (t.categoryOf? host) with
  | none => (false, t)
  | some c =>
    match (t.entries c).get? host with
    | none => (false, t)
    | some form =>
      let entries := update t.entries c (·.erase host)
      let held := (t.winners.get? form).any fun a => a.host == host && a.category == c
      let winners := if held then settle entries form t.winners else t.winners
      (true, { t with entries, winners, cachedForms := none })

def integrity : List Collision :=
  (Index.ofAtoms t.atoms).collisions

def clone : Table :=
  ofEntries t.entries t.framework

/-! ## Forms for reverse conversion -/

/-- Longer forms come first, forms of one length in code point order. -/
def formBefore (a b : Spelling) : Bool :=
  a.codes.length > b.codes.length || (a.codes.length == b.codes.length && !decide (b.codes < a.codes))

def reversibleForms : List Spelling :=
  t.forms.filter t.isReversible

def searchOrder (forms : List Spelling) : List Spelling :=
  forms.mergeSort formBefore

/-- The forms that reverse conversion looks for, longest first; none if no form is reversible. -/
def pattern? : Option (List Spelling) :=
  match t.cachedForms with
  | some forms => some forms
  | none => match t.reversibleForms with
    | [] => none
    | forms => some (searchOrder forms)

/-- The table with its forms kept for the next reverse conversion. -/
def warm : Table :=
  { t with cachedForms := t.pattern? }

/-! ## Suggestions and numbers -/

/-- Whether one of two words contains the other, letter case aside.  A form that is no text can only contain the
word. -/
def resembles (word : String) (form : Spelling) : Bool :=
  let needle := (Text.lower word).toList
  let candidates := form.texts.map fun s => (Text.lower s).toList
  candidates.any (Text.Matcher.contains needle)
    || (form.text?.isSome && candidates.any (Text.Matcher.contains · needle))

/-- The elements that satisfy `p`, up to the one that makes them `limit` or more; `found` were taken before. -/
def firstMatches (p : Spelling → Bool) (limit : Int) : (found : Nat) → List Spelling → List Spelling
  | _, [] => []
  | found, form :: rest =>
    if p form then
      form :: (if (found : Int) + 1 ≥ limit then [] else firstMatches p limit (found + 1) rest)
    else firstMatches p limit found rest

/-- Forms that resemble a word, in the order of `forms`. -/
def suggestions (word : String) (limit : Int := 5) : List Spelling :=
  firstMatches (resembles word) limit 0 t.forms

/-- Numbers about a table. -/
structure Stats where
  totalMappings : Nat
  reverseMappings : Nat
  categories : List (Category × Nat)
  collisions : Nat
  deriving DecidableEq, Repr

/-- How many entries, forms, entries of each category and collisions there are. -/
def stats : Stats where
  totalMappings := t.size
  reverseMappings := t.winners.size
  categories := Category.all.map fun c => (c, (t.entries c).size)
  collisions := t.integrity.length

end Table
end Argot
