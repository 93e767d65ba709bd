/-!
# Utf8 — bytes and characters

Encoding gives each character one to four bytes.  Decoding refuses the first byte sequence that encodes no character
and says where it stands, which bytes are at fault and why: a byte that begins nothing, a byte that cannot continue
what was begun, or an end that comes too early.
-/
namespace Argot
namespace Text

/-- Why a byte sequence encodes no text. -/
inductive Utf8Fault where
  | invalidStart
  /-- A byte that cannot stand where a continuation is due. -/
  | invalidContinuation
  | unexpectedEnd
  deriving DecidableEq, Repr

/-- A refused byte sequence: the first byte at fault, its position, and how many bytes the fault covers. -/
structure Utf8Error where
  position : Nat
  byte : UInt8
  width : Nat
  fault : Utf8Fault
  deriving DecidableEq, Repr

def Utf8Fault.message : Utf8Fault → String
  | .invalidStart => "invalid start byte"
  | .invalidContinuation => "invalid continuation byte"
  | .unexpectedEnd => "unexpected end of data"

def hexByte (b : UInt8) : String :=
  String.ofList [Nat.digitChar (b.toNat / 16), Nat.digitChar (b.toNat % 16)]

/-- A fault of one byte names the byte, a wider one its first and last position. -/
def Utf8Error.message (e : Utf8Error) : String :=
  if e.width = 1 then
    "'utf-8' codec can't decode byte 0x" ++ hexByte e.byte ++ " in position " ++ toString e.position ++ ": "
      ++ e.fault.message
  else
    "'utf-8' codec can't decode bytes in position " ++ toString e.position ++ "-"
      ++ toString (e.position + e.width - 1) ++ ": " ++ e.fault.message

def encode (cs : List Char) : List UInt8 :=
  cs.flatMap String.utf8EncodeChar

def bytesOf (s : String) : List UInt8 :=
  encode s.toList

def isContinuation (b : UInt8) : Bool :=
  0x80 ≤ b && b ≤ 0xBF

def continuationBits (b : UInt8) : Nat :=
  b.toNat % 64

/-- How many continuation bytes the first byte of a character asks for, and the bounds of the first of them. -/
def leadByte? (b : UInt8) : Option (Nat × UInt8 × UInt8) :=
  if b < 0xC2 then none
  else if b < 0xE0 then some (1, 0x80, 0xBF)
  else if b = 0xE0 then some (2, 0xA0, 0xBF)
  else if b = 0xED then some (2, 0x80, 0x9F)
  else if b < 0xF0 then some (2, 0x80, 0xBF)
  else if b = 0xF0 then some (3, 0x90, 0xBF)
  else if b < 0xF4 then some (3, 0x80, 0xBF)
  else if b = 0xF4 then some (3, 0x80, 0x8F)
  else none

/-- Reads `due` continuation bytes onto the payload `value`; `read` bytes of the character came before.  The bounds are
those of the next byte.  A failure says how many bytes it covers. -/
def readContinuations : (due : Nat) → (low high : UInt8) → (value read : Nat) → List UInt8 →
    Except (Utf8Fault × Nat) Nat
  | 0, _, _, value, _, _ => .ok value
  | _ + 1, _, _, _, read, [] => .error (.unexpectedEnd, read)
  | due + 1, low, high, value, read, b :: rest =>
    if low ≤ b && b ≤ high then
      readContinuations due 0x80 0xBF (value * 64 + continuationBits b) (read + 1) rest
    else .error (.invalidContinuation, read)

/-- The payload bits of the first byte of a character with `due` continuation bytes. -/
def leadBits (b : UInt8) (due : Nat) : Nat :=
  b.toNat % Nat.pow 2 (6 - due)

/-- The character that begins with byte `b`, and how many bytes of `rest` belong to it. -/
def decodeChar (b : UInt8) (rest : List UInt8) : Except (Utf8Fault × Nat) (Char × Nat) :=
  if b < 0x80 then .ok (Char.ofNat b.toNat, 0)
  else match leadByte? b with
    | none => .error (.invalidStart, 1)
    | some (due, low, high) =>
      (readContinuations due low high (leadBits b due) 1 rest).map fun value => (Char.ofNat value, due)

def decodeFrom (position : Nat) : List UInt8 → Except Utf8Error (List Char)
  | [] => .ok []
  | b :: rest =>
    match decodeChar b rest with
    | .error (fault, width) => .error ⟨position, b, width, fault⟩
    | .ok (c, used) => (decodeFrom (position + 1 + used) (rest.drop used)).map (c :: ·)
termination_by bytes => bytes.length
decreasing_by simp only [List.length_cons, List.length_drop]; omega

def decode (bytes : List UInt8) : Except Utf8Error (List Char) :=
  decodeFrom 0 bytes

def decodeString (bytes : List UInt8) : Except Utf8Error String :=
  (decode bytes).map String.ofList

end Text
end Argot
