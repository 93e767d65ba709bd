import Argot.Source.Token
import Argot.Session
/-!
# RoundTrip — there and back again

A source that is converted and converted back should have the tokens it had.  The report says whether it has, and names
the first token that differs, or the numbers of tokens where one list begins the other.
-/
namespace Argot
namespace RoundTrip

/-- Why a round trip has no report. -/
inductive Error where
  | conversion (e : ConversionError)
  | fault (f : SyntaxFault)
  deriving DecidableEq, Repr

/-- What became of a source on its way there and back. -/
structure Report where
  equivalent : Bool
  forward : Outcome
  reverse : Option Outcome := none
  mismatch : Option String := none
  deriving DecidableEq, Repr

/-- The first place where two lists have different elements, and these elements. -/
def firstDifference? {α : Type} [DecidableEq α] (index : Nat) : List α → List α → Option (Nat × α × α)
  | a :: as, b :: bs => if a = b then firstDifference? (index + 1) as bs else some (index, a, b)
  | _, _ => none

def mismatch? (before after : List Token) : Option String :=
  match firstDifference? 0 before after with
  | some (index, a, b) =>
    some ("token " ++ toString index ++ ": expected " ++ Text.quoted a.text ++ ", got " ++ Text.quoted b.text)
  | none =>
    if before.length = after.length then none
    else some ("token count differs: " ++ toString before.length ++ " vs " ++ toString after.length)

variable {m : Type → Type} [Monad m] (parse : Parser m)

def tokens (dialect : Dialect) (source : String) : m (Except Error (List Token)) := do
  let tree ← parse dialect source
  match tree.fault? with
  | some f => return .error (.fault f)
  | none => return (Token.ofTree (Text.bytesOf source) tree).mapError fun e =>
    .conversion (.edit (.undecodable e))

/-- The report on two outcomes and the token lists of the source and of what came back. -/
def report (forward reverse : Outcome) (before after : List Token) : Report :=
  let mismatch := mismatch? before after
  { equivalent := mismatch.isNone, forward, reverse := some reverse, mismatch }

/-- Converts a source there and back and compares the tokens. -/
def check (r : Session) (source : String) (options : Option Options := none) :
    m (Except Error Report × Session) := do
  let o := options.getD r.options
  let (forward, r) ← r.forward parse source (some o)
  match forward with
  | .error e => return (.error (.conversion e), r)
  | .ok forward =>
    if forward.hasErrors then
      return (.ok { equivalent := false, forward, mismatch := some "forward transformation failed" }, r)
    else
      let (reverse, r) ← r.reverse parse forward.code (some o)
      match reverse with
      | .error e => return (.error (.conversion e), r)
      | .ok reverse =>
        if reverse.hasErrors then
          return (.ok { equivalent := false, forward, reverse := some reverse,
                        mismatch := some "reverse transformation failed" }, r)
        else
          let before ← tokens parse (Sniff.dialect source o) source
          match before with
          | .error e => return (.error e, r)
          | .ok before =>
            let after ← tokens parse (Sniff.dialect reverse.code o) reverse.code
            return (after.map (report forward reverse before), r)

end RoundTrip
end Argot
