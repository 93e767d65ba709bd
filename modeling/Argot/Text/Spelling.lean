import Argot.Text.Blank
import Argot.Text.LowerCase
import Argot.Text.Quoted
import Argot.Text.Utf8
/-!
# Spelling — words that may hold halves of characters

A JSON text can spell half of a surrogate pair by itself.  A half is no character and no bytes stand for it, yet it can
be part of a word.  A spelling is a text, or characters and halves with at least one half among them, so two spellings
that read alike are one value: `ofPoints` and `points` are inverse to each other.
-/
namespace Argot

/-- A character, or half of a surrogate pair by its number among the halves. -/
inductive CodePoint where
  | char (c : Char)
  | half (n : Fin 0x800)
  deriving DecidableEq, Repr

namespace CodePoint

def isHalf : CodePoint → Bool
  | .char _ => false
  | .half _ => true

def char? : CodePoint → Option Char
  | .char c => some c
  | .half _ => none

def toNat : CodePoint → Nat
  | .char c => c.toNat
  | .half n => 0xD800 + n.val

/-- No character has the number of a half. -/
theorem toNat_injective {x y : CodePoint} (h : x.toNat = y.toNat) : x = y := by
  have hvalid : ∀ c : Char, c.toNat < 0xD800 ∨ 0xDFFF < c.toNat := fun c => c.valid.imp id And.left
  cases x with
  | char c =>
    cases y with
    | char d => exact congrArg char (Char.toNat_inj.1 h)
    | half n =>
      have hc := hvalid c
      have hn := n.isLt
      simp only [toNat] at h
      omega
  | half m =>
    cases y with
    | char d =>
      have hd := hvalid d
      have hm := m.isLt
      simp only [toNat] at h
      omega
    | half n => exact congrArg half (Fin.ext (Nat.add_left_cancel h))

def any (p : Char → Bool) (x : CodePoint) : Bool :=
  x.char?.any p

def ofChars (cs : List Char) : List CodePoint :=
  cs.map char

theorem ofChars_filterMap_char? : ∀ {ps : List CodePoint}, ps.any isHalf = false → ofChars (ps.filterMap char?) = ps
  | [], _ => rfl
  | .char c :: ps, h => by
    have := @ofChars_filterMap_char? ps (by simpa [isHalf] using h)
    simpa [char?, ofChars] using this
  | .half n :: ps, h => by simp [isHalf] at h

theorem filterMap_char?_ofChars (cs : List Char) : (ofChars cs).filterMap char? = cs := by
  induction cs with
  | nil => rfl
  | cons c cs ih => simpa [ofChars, char?] using ih

theorem any_isHalf_ofChars (cs : List Char) : (ofChars cs).any isHalf = false := by
  simp [ofChars, isHalf]

end CodePoint

/-- A text, or characters and halves that are no text. -/
inductive Spelling where
  | text (s : String)
  | broken (points : List CodePoint) (hasHalf : points.any CodePoint.isHalf = true)
  deriving DecidableEq, Repr

instance : Coe String Spelling := ⟨.text⟩

/-- Halves in a row that bytes cannot stand for, and the place of the first. -/
structure EncodeError where
  position : Nat
  halves : List CodePoint
  deriving DecidableEq, Repr

/-- A lone half is shown by its number, several by their places. -/
def EncodeError.message (e : EncodeError) : String :=
  let what := match e.halves with
    | [half] =>
      "character '" ++ String.ofList (Text.codePointEscape half.toNat) ++ "' in position " ++ toString e.position
    | halves =>
      "characters in position " ++ toString e.position ++ "-" ++ toString (e.position + halves.length - 1)
  "'utf-8' codec can't encode " ++ what ++ ": surrogates not allowed"

namespace Spelling

def points : Spelling → List CodePoint
  | .text s => CodePoint.ofChars s.toList
  | .broken points _ => points

def ofPoints (ps : List CodePoint) : Spelling :=
  if h : ps.any CodePoint.isHalf = true then .broken ps h
  else .text (String.ofList (ps.filterMap CodePoint.char?))

@[simp] theorem points_ofPoints (ps : List CodePoint) : (ofPoints ps).points = ps := by
  unfold ofPoints
  split
  · rfl
  · next h => simpa [points] using CodePoint.ofChars_filterMap_char? (by simpa using h)

@[simp] theorem ofPoints_points (s : Spelling) : ofPoints s.points = s := by
  cases s with
  | text s => simp [points, ofPoints, CodePoint.any_isHalf_ofChars, CodePoint.filterMap_char?_ofChars]
  | broken ps h => simp [points, ofPoints, h]

theorem points_injective {a b : Spelling} (h : a.points = b.points) : a = b := by
  rw [← ofPoints_points a, h, ofPoints_points]

/-- The numbers of the code points, by which spellings are put in order. -/
def codes (s : Spelling) : List Nat :=
  s.points.map CodePoint.toNat

theorem codes_injective {a b : Spelling} (h : a.codes = b.codes) : a = b :=
  points_injective (List.map_inj_right (fun _ _ => CodePoint.toNat_injective) |>.1 h)

def text? : Spelling → Option String
  | .text s => some s
  | .broken .. => none

/-- The spelling as a text in which halves show as the replacement character. -/
def shown : Spelling → String
  | .text s => s
  | .broken ps _ => String.ofList (ps.map fun x => x.char?.getD '\uFFFD')

def append : Spelling → Spelling → Spelling
  | .text a, .text b => .text (a ++ b)
  | a, b => ofPoints (a.points ++ b.points)

instance : Append Spelling := ⟨append⟩

@[simp] theorem points_append (a b : Spelling) : (a ++ b).points = a.points ++ b.points := by
  change (append a b).points = _
  cases a with
  | text a =>
    cases b with
    | text b => simp [append, points, CodePoint.ofChars]
    | broken => exact points_ofPoints _
  | broken => cases b <;> exact points_ofPoints _

def isEmpty : Spelling → Bool
  | .text s => s.isEmpty
  | .broken .. => false

def isTrimmed : Spelling → Bool
  | .text s => Text.isTrimmed s
  | .broken ps _ => !(ps.head?.any (·.any Text.isBlank) || ps.getLast?.any (·.any Text.isBlank))

def quoted : Spelling → String
  | .text s => Text.quoted s
  | .broken ps _ =>
    let mark := Text.quoteMark (ps.filterMap CodePoint.char?)
    let quotePoint : CodePoint → List Char
      | .char c => Text.quoteChar mark c
      | half => Text.codePointEscape half.toNat
    String.ofList (mark :: ps.flatMap quotePoint ++ [mark])

/-- The text that a spelling has to be for bytes to stand for it. -/
def encodable : Spelling → Except EncodeError String
  | .text s => .ok s
  | .broken ps _ =>
    let before := ps.takeWhile fun x => !x.isHalf
    .error ⟨before.length, (ps.drop before.length).takeWhile CodePoint.isHalf⟩

def bytes (s : Spelling) : Except EncodeError (List UInt8) :=
  s.encodable.map Text.bytesOf

def behindAt? (s : Spelling) : Option Spelling :=
  match s.points with
  | .char '@' :: rest => some (ofPoints rest)
  | _ => none

def runs : List CodePoint → List (List Char)
  | [] => [[]]
  | .half _ :: rest => [] :: runs rest
  | .char c :: rest =>
    match runs rest with
    | [] => [[c]]
    | run :: more => (c :: run) :: more

def texts : Spelling → List String
  | .text s => [s]
  | .broken ps _ => (runs ps).map String.ofList

end Spelling
end Argot
