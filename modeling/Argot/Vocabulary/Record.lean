import Argot.Json.Reader
import Argot.Json.Writer
import Argot.Vocabulary.Table
/-!
# Record — tables as JSON texts

A record holds a version, the framework and the entries of each category.  Reading checks the shape of the version,
the framework and the categories, each of which may be missing, and reports all misfits of shape; where the categories
have none, the first entry with an empty or untrimmed word is reported.  Writing reports such an entry too, so what is
written can be read.
-/
namespace Argot
namespace Record

def version : String := "1.0.0"

/-- What is wrong with a part of a record. -/
inductive Misfit where
  | notRecord
  | notText
  | notObject
  | unknownCategory
  | emptyForm (category : Category) (host form : Spelling)
  | untrimmedForm (category : Category) (host form : Spelling)
  deriving DecidableEq, Repr

def Misfit.kind : Misfit → String
  | .notRecord => "model_type"
  | .notText => "string_type"
  | .notObject => "dict_type"
  | .unknownCategory => "enum"
  | .emptyForm .. | .untrimmedForm .. => "value_error"

/-- What is said about an entry that may not be recorded; the other misfits are told by their kind. -/
def Misfit.remark? : Misfit → Option String
  | .emptyForm c host form =>
    some ("Value error, Empty form in " ++ c.name ++ " mapping: " ++ host.quoted ++ " -> " ++ form.quoted)
  | .untrimmedForm _ host form =>
    some ("Value error, Forms must not carry surrounding whitespace: " ++ host.quoted ++ " -> "
      ++ form.quoted)
  | _ => none

/-- A misfit and the keys that lead to it. -/
structure Issue where
  path : List String
  misfit : Misfit
  deriving DecidableEq, Repr

def Issue.message (i : Issue) : String :=
  ".".intercalate i.path ++ ": " ++ i.misfit.remark?.getD i.misfit.kind

/-- A record without misfits. -/
structure Contents where
  framework : Spelling
  categories : OrderedMap Category Entries

/-- Why a text gives no table. -/
inductive LoadError where
  | malformed (e : Json.ReadError)
  | invalid (issues : List Issue)
  deriving DecidableEq, Repr

def invalidMessage (issues : List Issue) : String :=
  "Invalid dictionary record: " ++ "; ".intercalate (issues.map Issue.message)

def LoadError.message : LoadError → String
  | .malformed e => match e with
    | .malformed .. => "Dictionary is not valid JSON: " ++ e.message
    | _ => e.message
  | .invalid issues => invalidMessage issues

def textMember (members : List (Spelling × Json.Value)) (key default : String) : Except Issue Spelling :=
  match Json.member? key members with
  | none => .ok default
  | some (.string s) => .ok s
  | some _ => .error ⟨[key], .notText⟩

/-- The entries that are texts, and an issue for each one that is not. -/
def readEntries (key : String) (members : List (Spelling × Json.Value)) : List Issue × List (Spelling × Spelling) :=
  (members.filterMap fun (host, v) => match v with
    | .string _ => none
    | _ => some ⟨["categories", key, host.shown], .notText⟩,
   members.filterMap fun (host, v) => match v with
    | .string s => some (host, s)
    | _ => none)

/-- One member of the categories: its issues, and its entries where its key names a category. -/
def readCategory (key : Spelling) (v : Json.Value) : List Issue × Option (Category × Entries) :=
  let category := key.text?.bind Category.ofSpelling?
  let unknown : List Issue := if category.isNone then [⟨["categories", key.shown, "[key]"], .unknownCategory⟩] else []
  match v with
  | .object members =>
    let (issues, pairs) := readEntries key.shown members
    (unknown ++ issues, category.map (·, OrderedMap.ofList pairs))
  | _ => (unknown ++ [⟨["categories", key.shown], .notObject⟩], none)

def entryMisfit? (c : Category) (host form : Spelling) : Option Misfit :=
  if host.isEmpty || form.isEmpty then some (.emptyForm c host form)
  else if host.isTrimmed && form.isTrimmed then none
  else some (.untrimmedForm c host form)

def firstMisfit? (categories : List (Category × Entries)) : Option Misfit :=
  categories.findSome? fun (c, entries) => entries.toList.findSome? fun (host, form) => entryMisfit? c host form

/-- The categories of a record: their issues, and the entries where there is none.  A category that is spelled twice has
the later entries only. -/
def readCategories : Option Json.Value → List Issue × OrderedMap Category Entries
  | none => ([], .empty)
  | some (.object members) =>
    let parts := members.map fun (key, v) => readCategory key v
    let issues := parts.flatMap Prod.fst
    let categories := OrderedMap.ofList (parts.filterMap Prod.snd)
    if issues.isEmpty then
      (((firstMisfit? categories.toList).map fun m => ⟨["categories"], m⟩).toList, categories)
    else (issues, categories)
  | some _ => ([⟨["categories"], .notObject⟩], .empty)

def issueOf {α : Type} : Except Issue α → List Issue
  | .error i => [i]
  | .ok _ => []

def ofValue : Json.Value → Except (List Issue) Contents
  | .object members =>
    let versionText := textMember members "schema_version" version
    let framework := textMember members "framework" "none"
    let (issues, categories) := readCategories (Json.member? "categories" members)
    match issueOf versionText ++ issueOf framework ++ issues, framework with
    | [], .ok framework => .ok ⟨framework, categories⟩
    | issues, _ => .error issues
  | _ => .error [⟨[], .notRecord⟩]

def Contents.toTable (r : Contents) : Table :=
  Table.ofLists (r.categories.toList.map fun (c, entries) => (c, entries.toList)) r.framework

def load (text : Spelling) : Except LoadError Table :=
  match Json.read text with
  | .error e => .error (.malformed e)
  | .ok v => match ofValue v with
    | .error issues => .error (.invalid issues)
    | .ok r => .ok r.toTable

def filledCategories (t : Table) : List (Category × Entries) :=
  (Category.all.map fun c => (c, t.entries c)).filter fun p => !p.2.isEmpty

def toValue (t : Table) : Json.Value :=
  .object [("schema_version", .string version), ("framework", .string t.framework),
    ("categories", .object ((filledCategories t).map fun (c, entries) =>
      (c.name, .object (entries.toList.map fun (host, form) => (host, .string form)))))]

/-- Writes a table as a JSON text, unless an entry may not be recorded. -/
def save (t : Table) (indent : Option Int := some 2) : Except Issue Spelling :=
  match firstMisfit? (filledCategories t) with
  | some m => .error ⟨["categories"], m⟩
  | none => .ok (Json.write (toValue t) indent)

def statsValue (s : Table.Stats) : Json.Value :=
  .object [("total_mappings", .ofNat s.totalMappings), ("reverse_mappings", .ofNat s.reverseMappings),
    ("categories", .object (s.categories.map fun (c, n) => (c.name, .ofNat n))), ("collisions", .ofNat s.collisions)]

end Record
end Argot
