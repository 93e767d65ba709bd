import Argot.Text.Blank
import Argot.Text.Quoted
import Argot.Text.Word
/-!
# Integer — reading whole numbers

A whole number is an optional sign and decimal digits of any script, with single underscores allowed between digits and
white space around all of it.  Of the ASCII characters only the six usual blanks count as white space here.  Numbers of
more than 4300 digits are refused, leading zeros included.
-/
namespace Argot
namespace Text

def maxIntegerDigits : Nat := 4300

/-- Why a text is no whole number. -/
inductive IntegerError where
  | malformed (text : String)
  | tooLong (digits : Nat)
  deriving DecidableEq, Repr

/-- A malformed text is shown in quotes, cut after 200 characters. -/
def IntegerError.message : IntegerError → String
  | .malformed text =>
    "invalid literal for int() with base 10: " ++ String.ofList ((quoted text).toList.take 200)
  | .tooLong digits =>
    "Exceeds the limit (" ++ toString maxIntegerDigits ++ " digits) for integer string conversion: value has "
      ++ toString digits ++ " digits; use sys.set_int_max_str_digits() to increase the limit"

def isNumberBlank (c : Char) : Bool :=
  c == ' ' || ('\t' ≤ c && c ≤ '\r') || (c.toNat ≥ 128 && isBlank c)

/-- Digits read onto `value`, `count` of them so far, up to the first character that is neither digit nor underscore.
An underscore must stand between two digits; `due` says that a digit has to come next. -/
def readDigits (count value : Nat) (due : Bool) : List Char → Option (Nat × Nat × List Char)
  | [] => if due then none else some (count, value, [])
  | c :: rest =>
    if c == '_' then (if due then none else readDigits count value true rest)
    else match decimalValue? c with
      | some d => readDigits (count + 1) (value * 10 + d) false rest
      | none => if due then none else some (count, value, c :: rest)

/-- An optional sign: whether the number is negative, and what follows. -/
def readSign : List Char → Bool × List Char
  | '+' :: rest => (false, rest)
  | '-' :: rest => (true, rest)
  | cs => (false, cs)

def readInteger (text : String) : Except IntegerError Int :=
  let (negative, rest) := readSign (text.toList.dropWhile isNumberBlank)
  match readDigits 0 0 true rest with
  | none => .error (.malformed text)
  | some (count, value, rest) =>
    if count > maxIntegerDigits then .error (.tooLong count)
    else if rest.all isNumberBlank then .ok (if negative then -(value : Int) else value)
    else .error (.malformed text)

end Text
end Argot
