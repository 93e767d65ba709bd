import Argot.Json.Value
import Argot.Text.Quoted
/-!
# Writer — JSON values as text

A value is written on one line, or with a line for each item and member.  The indentation of a line is a number of
spaces for each level; without a positive number there are line ends only.  All characters but the quote, the backslash
and the control characters stand for themselves, and so do halves of surrogate pairs.
-/
namespace Argot
namespace Json

def writeChar (c : Char) : List Char :=
  if c == '\x22' || c == '\\' then ['\\', c]
  else if c == '\n' then ['\\', 'n']
  else if c == '\r' then ['\\', 'r']
  else if c == '\t' then ['\\', 't']
  else if c == '\x0c' then ['\\', 'f']
  else if c == '\x08' then ['\\', 'b']
  else if c.toNat < 0x20 then '\\' :: 'u' :: Text.hexDigits 4 c.toNat
  else [c]

def writePoint : CodePoint → List CodePoint
  | .char c => CodePoint.ofChars (writeChar c)
  | half => [half]

def writeString (s : Spelling) : Spelling :=
  .ofPoints (.char '\x22' :: s.points.flatMap writePoint ++ [.char '\x22'])

/-- The line end and indentation of a level; nothing where the value stands on one line. -/
def lineStart (indent : Option Int) (level : Nat) : String :=
  match indent with
  | none => ""
  | some n => "\n" ++ String.ofList (List.replicate (n.toNat * level) ' ')

def separator (indent : Option Int) (level : Nat) : String :=
  match indent with
  | none => ", "
  | some _ => "," ++ lineStart indent level

mutual

def writeAt (indent : Option Int) (level : Nat) : Value → Spelling
  | .null => "null"
  | .boolean b => if b then "true" else "false"
  | .number spelling => spelling
  | .string s => writeString s
  | .array [] => "[]"
  | .array (v :: rest) =>
    "[" ++ lineStart indent (level + 1) ++ writeAt indent (level + 1) v ++ writeItems indent (level + 1) rest
      ++ lineStart indent level ++ "]"
  | .object [] => "\x7b\x7d"
  | .object ((k, v) :: rest) =>
    "\x7b" ++ lineStart indent (level + 1) ++ writeString k ++ ": " ++ writeAt indent (level + 1) v
      ++ writeMembers indent (level + 1) rest ++ lineStart indent level ++ "\x7d"

def writeItems (indent : Option Int) (level : Nat) : List Value → Spelling
  | [] => ""
  | v :: rest => separator indent level ++ writeAt indent level v ++ writeItems indent level rest

def writeMembers (indent : Option Int) (level : Nat) : List (Spelling × Value) → Spelling
  | [] => ""
  | (k, v) :: rest =>
    separator indent level ++ writeString k ++ ": " ++ writeAt indent level v ++ writeMembers indent level rest

end

def write (v : Value) (indent : Option Int) : Spelling :=
  writeAt indent 0 v

end Json
end Argot
