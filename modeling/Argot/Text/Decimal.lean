import Argot.Text.Integer
/-!
# Decimal — texts that are numbers

A number is written with digits of any script, a decimal point and an exponent, or as one of the words for infinity and
for no number, in any letter case.  Single underscores may stand between digits, and white space around all of it.
-/
namespace Argot
namespace Text

/-- A decimal digit as an ASCII digit; every other character as it is. -/
def asciiDigit (c : Char) : Char :=
  match decimalValue? c with
  | some d => Char.ofNat ('0'.toNat + d)
  | none => c

/-- The text without its underscores, if each of them stands between two digits; `before` says that a digit came just
before. -/
def dropUnderscores (before : Bool) : List Char → Option (List Char)
  | [] => some []
  | '_' :: c :: rest => if before && isAsciiDigit c then dropUnderscores false (c :: rest) else none
  | ['_'] => none
  | c :: rest => (dropUnderscores (isAsciiDigit c) rest).map (c :: ·)

/-- Digits with a decimal point somewhere among them, if anywhere: at least one digit, and what follows. -/
def readMantissa (cs : List Char) : Option (List Char) :=
  let whole := cs.takeWhile isAsciiDigit
  match cs.drop whole.length with
  | '.' :: rest =>
    let fraction := rest.takeWhile isAsciiDigit
    if whole.isEmpty && fraction.isEmpty then none else some (rest.drop fraction.length)
  | rest => if whole.isEmpty then none else some rest

def isExponent : List Char → Bool
  | [] => true
  | c :: rest =>
    let digits := (readSign rest).2
    (c == 'e' || c == 'E') && !digits.isEmpty && digits.all isAsciiDigit

def numberWords : List String := ["inf", "infinity", "nan"]

/-- The characters of a number without the white space around them and without underscores, with ASCII digits. -/
def plainNumber (text : String) : Option (List Char) :=
  let cs := (text.toList.dropWhile isNumberBlank).reverse.dropWhile isNumberBlank
  dropUnderscores false (cs.reverse.map asciiDigit)

def isDecimal (text : String) : Bool :=
  match plainNumber text with
  | none => false
  | some cs =>
    let body := (readSign cs).2
    numberWords.contains (String.ofList (body.map Char.toLower)) || (readMantissa body).any isExponent

def digitsValue (cs : List Char) : Nat :=
  cs.foldl (fun n c => n * 10 + (c.toNat - '0'.toNat)) 0

/-- A number of seconds in whole milliseconds.  A negative number counts as zero, as does a text that is no number; what
is beyond a million seconds is no longer told apart. -/
def milliseconds (text : String) : Nat :=
  match plainNumber text with
  | none => 0
  | some cs =>
    let (negative, body) := readSign cs
    let whole := body.takeWhile isAsciiDigit
    let rest := body.drop whole.length
    let fraction := if rest.head? == some '.' then (rest.drop 1).takeWhile isAsciiDigit else []
    let exponent := (rest.dropWhile fun c => c != 'e' && c != 'E').drop 1
    let (down, digits) := readSign exponent
    let power : Int := if down then -(digitsValue digits : Int) else digitsValue digits
    let shift : Int := power + 3 - fraction.length
    let mantissa := whole ++ fraction
    if negative then 0
    else if body.head?.any (fun c => c == 'i' || c == 'I') then 1000000000
    else if shift + mantissa.length ≤ 0 then 0
    else min 1000000000
      (if shift < 0 then digitsValue mantissa / Nat.pow 10 (-shift).toNat
      else digitsValue mantissa * Nat.pow 10 (min shift.toNat 9))

end Text
end Argot
