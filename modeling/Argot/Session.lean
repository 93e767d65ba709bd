import Argot.Conversion.Forward
import Argot.Conversion.Reverse
import Argot.Sniff
import Argot.Validation
/-!
# Session — sources converted in both directions

A session has default options and a table for each framework, made when it is first needed, or one table for all.
Sources are parsed by a given parser, which may have effects of its own.  A source that does not parse gives a failed
outcome.  Calls leave nothing behind but tables that were made and form lists that were kept, unless the session has a
random generator that all its calls share.
-/
namespace Argot

/-- Why a source has no outcome. -/
inductive ConversionError where
  | edit (e : EditError)
  /-- No bytes stand for the text that a parser would have to read. -/
  | unencodable (e : EncodeError)
  | missingSeed
  deriving DecidableEq, Repr

def ConversionError.message : ConversionError → String
  | .edit e => e.message
  | .unencodable e => e.message
  | .missingSeed => "The only supported seed types are: None,\nint, float, str, bytes, and bytearray."

/-- What parses sources. -/
abbrev Parser (m : Type → Type) := Dialect → String → m Tree

/-- Default options, tables and a shared random generator, if any. -/
structure Session where
  options : Options := {}
  custom : Option Table := none
  generator : Option Twister := none
  tables : OrderedMap Framework Table := .empty

namespace Session

variable (r : Session)

/-- Which table serves a framework: the standard table of one framework, or the one for all. -/
def tableKey (framework : Scalar) : Except UnknownName (Option Framework) :=
  match r.custom, framework with
  | some _, _ => .ok none
  | none, .absent => .ok (some r.options.framework)
  | none, given => (Framework.ofScalar given).map some

def keyOf (o : Options) : Option Framework :=
  if r.custom.isSome then none else some o.framework

def table : Option Framework → Table
  | none => r.custom.getD (Standard.table)
  | some f => (r.tables.get? f).getD (Standard.table f.name)

def setTable (key : Option Framework) (t : Table) : Session :=
  match key with
  | none => { r with custom := some t }
  | some f => { r with tables := r.tables.insert f t }

def ensure (key : Option Framework) : Session :=
  r.setTable key (r.table key)

/-- The table that serves a framework, and the session with that table made. -/
def tableFor (framework : Scalar := .absent) : Except UnknownName (Table × Session) :=
  (r.tableKey framework).map fun key => (r.table key, r.ensure key)

/-- The generator of a call: the shared one, or one of the call's seed. -/
def generatorFor (o : Options) : Except ConversionError Twister :=
  match r.generator, o.seed with
  | some g, _ => .ok g
  | none, some .missing => .error .missingSeed
  | none, some (.number n) => .ok (Twister.ofSeed n)
  | none, none => .ok (Twister.ofSeed 0)

/-- The session after a call that left its generator in a state. -/
def keepGenerator (g : Twister) : Session :=
  { r with generator := r.generator.map fun _ => g }

def parseFailure (what : String) (f : SyntaxFault) : Outcome :=
  .failure (what ++ " failed: " ++ f.message) (some ⟨f.line, f.column⟩)

variable {m : Type → Type} [Monad m] (parse : Parser m)

def forward (source : String) (options : Option Options := none) :
    m (Except ConversionError Outcome × Session) := do
  let o := options.getD r.options
  let key := r.keyOf o
  let r := r.ensure key
  let tree ← parse (Sniff.dialect source o) source
  match tree.fault? with
  | some f => return (.ok (parseFailure "Transpilation" f), r)
  | none => match r.generatorFor o with
    | .error e => return (.error e, r)
    | .ok g =>
      let (outcome, g) := Forward.convert (r.table key) o g (Text.bytesOf source) tree
      return (outcome.mapError .edit, r.keepGenerator g)

/-- Converts a text from forms back to host words.  The result is parsed, and only a source is given out. -/
def reverse (source : String) (options : Option Options := none) :
    m (Except ConversionError Outcome × Session) := do
  let o := options.getD r.options
  let key := r.keyOf o
  let t := r.table key
  let converted := Reverse.convert t source
  let r := r.setTable key t.warm
  match converted.encodable with
  | .error e => return (.error (.unencodable e), r)
  | .ok code =>
    let tree ← parse (Sniff.dialect code o) code
    match tree.fault? with
    | some f => return (.ok (parseFailure "Reverse transpilation" f), r)
    | none => return (.ok { code }, r)

def validate (source : String) (framework : Scalar := .absent) :
    Except UnknownName (Validation.Report × Session) :=
  (r.tableFor framework).map fun (t, r) => (Validation.check t source, r)

/-- A warning for each collision in the table of a framework. -/
def integrity (framework : Scalar := .absent) : Except UnknownName (Diagnostics × Session) :=
  (r.tableFor framework).map fun (t, r) => (.ofCollisions t.integrity, r)

end Session
end Argot
