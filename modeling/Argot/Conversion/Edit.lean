import Argot.Slice
import Argot.Text.Spelling
/-!
# Edit — changing a source in places

An edit replaces a range of the source's bytes by a text.  Edits are applied together: everything outside of them is
copied byte for byte, and no edit may begin before the end of the one before it.
-/
namespace Argot

/-- Puts `text` in the place of the bytes from `start` to `stop`; with equal bounds it is put in between. -/
structure Edit where
  start : Int
  stop : Int
  text : Spelling
  deriving DecidableEq, Repr

/-- Why edits cannot be applied. -/
inductive EditError where
  | overlap (start previousStop : Int)
  | unencodable (e : EncodeError)
  | undecodable (e : Text.Utf8Error)
  deriving DecidableEq, Repr

def EditError.message : EditError → String
  | .overlap start previousStop =>
    "Overlapping edits at byte " ++ toString start ++ " (previous edit ends at " ++ toString previousStop ++ ")"
  | .unencodable e => e.message
  | .undecodable e => e.message

namespace Edit

def insertion (place : Int) (text : Spelling) : Edit := ⟨place, place, text⟩

def deletion (start stop : Int) : Edit := ⟨start, stop, ""⟩

/-- Edits are ordered by their start, then by their end: at one place, an insertion comes before a replacement. -/
def before (a b : Edit) : Bool :=
  a.start < b.start || (a.start == b.start && a.stop ≤ b.stop)

/-- The source from `cursor` on with ordered edits applied. -/
def splice (source : List UInt8) (cursor : Int) : List Edit → Except EditError (List UInt8)
  | [] => .ok (sliceFrom source cursor)
  | e :: rest =>
    if e.start < cursor then .error (.overlap e.start cursor)
    else do
      let bytes ← e.text.bytes.mapError .unencodable
      let tail ← splice source e.stop rest
      return slice source cursor e.start ++ bytes ++ tail

/-- The source with edits applied; edits at one place keep the order they are given in. -/
def applyAll (source : List UInt8) (edits : List Edit) : Except EditError String := do
  let bytes ← splice source 0 (edits.mergeSort before)
  (Text.decodeString bytes).mapError .undecodable

end Edit
end Argot
