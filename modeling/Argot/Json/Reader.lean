import Argot.Json.Value
import Argot.Text.Integer
/-!
# Reader — JSON texts and where they fail

The grammar is that of JSON with three more literals for the numbers that are none or without bound.  A failure says
what was missing and at which character; the position is shown as line, column and offset.  Whitespace is skipped before
a missing delimiter is reported.  An object that repeats a key has the last value at the place of the first.  Halves of
surrogate pairs may stand in strings, by themselves or as escapes; only two escapes in a row make a pair.
-/
namespace Argot
namespace Json

/-- What was wrong with a text. -/
inductive Problem where
  | byteOrderMark
  | expectingValue
  | expectingName
  | expectingColon
  | expectingComma
  | unterminatedString
  | invalidControl
  | invalidEscape
  | invalidCodePoint
  | extraData
  deriving DecidableEq, Repr

def Problem.message : Problem → String
  | .byteOrderMark => "Unexpected UTF-8 BOM (decode using utf-8-sig)"
  | .expectingValue => "Expecting value"
  | .expectingName => "Expecting property name enclosed in double quotes"
  | .expectingColon => "Expecting ':' delimiter"
  | .expectingComma => "Expecting ',' delimiter"
  | .unterminatedString => "Unterminated string starting at"
  | .invalidControl => "Invalid control character at"
  | .invalidEscape => "Invalid \\escape"
  | .invalidCodePoint => "Invalid \\uXXXX escape"
  | .extraData => "Extra data"

/-- Why a text cannot be read: a fault of its form at a place, a whole number with too many digits, or too many brackets
inside each other, the one too many being that of an object or of an array. -/
inductive ReadError where
  | malformed (problem : Problem) (line column offset : Nat)
  | tooLong (digits : Nat)
  | tooDeep (isObject : Bool)
  deriving DecidableEq, Repr

def ReadError.message : ReadError → String
  | .malformed problem line column offset =>
    problem.message ++ ": line " ++ toString line ++ " column " ++ toString column ++ " (char " ++ toString offset
      ++ ")"
  | .tooLong digits => (Text.IntegerError.tooLong digits).message
  | .tooDeep isObject =>
    "maximum recursion depth exceeded while decoding a JSON " ++ (if isObject then "object" else "array")
      ++ " from a unicode string"

/-- How deep brackets may stand inside each other.  The bound is no part of the grammar: a thousand calls may be open at
once, and fifteen of them are open already where the reading of a text begins. -/
def maxDepth : Nat := 985

/-- A fault while reading; places are told by how many code points were left. -/
inductive Fault where
  | at (problem : Problem) (left : Nat)
  | tooLong (digits : Nat)
  | tooDeep (isObject : Bool)

def isSpace (c : Char) : Bool :=
  c == ' ' || c == '\t' || c == '\n' || c == '\r'

def skipSpace (cs : List CodePoint) : List CodePoint :=
  cs.dropWhile (·.any isSpace)

def hexValue? (c : Char) : Option Nat :=
  if '0' ≤ c && c ≤ '9' then some (c.toNat - '0'.toNat)
  else if 'a' ≤ c && c ≤ 'f' then some (c.toNat - 'a'.toNat + 10)
  else if 'A' ≤ c && c ≤ 'F' then some (c.toNat - 'A'.toNat + 10)
  else none

def hexQuad? (cs : List CodePoint) : Option Nat :=
  match cs.take 4 with
  | [.char a, .char b, .char c, .char d] => do
    let a ← hexValue? a
    let b ← hexValue? b
    let c ← hexValue? c
    let d ← hexValue? d
    return ((a * 16 + b) * 16 + c) * 16 + d
  | _ => none

def isHighSurrogate (n : Nat) : Bool := 0xD800 ≤ n && n ≤ 0xDBFF

def isLowSurrogate (n : Nat) : Bool := 0xDC00 ≤ n && n ≤ 0xDFFF

def simpleEscape? : Char → Option Char
  | '\x22' => some '\x22'
  | '\\' => some '\\'
  | '/' => some '/'
  | 'b' => some '\x08'
  | 'f' => some '\x0c'
  | 'n' => some '\n'
  | 'r' => some '\r'
  | 't' => some '\t'
  | _ => none

def unit (n : Nat) : CodePoint :=
  if isHighSurrogate n || isLowSurrogate n then .half (Fin.ofNat 0x800 (n - 0xD800)) else .char (Char.ofNat n)

/-- The code point that stands after a backslash and a `u`, which is half of a pair without its partner, and how many
code points it takes.  `text` begins at the `u`.  Four digits must be followed by at least one more character, and the
second half of a pair likewise. -/
def codePointEscape (text : List CodePoint) : Except Fault (CodePoint × Nat) :=
  let fault := Fault.at .invalidCodePoint text.length
  if text.length < 6 then .error fault
  else match hexQuad? (text.drop 1) with
    | none => .error fault
    | some high =>
      match text.drop 5 with
      | .char '\\' :: .char 'u' :: more =>
        if isHighSurrogate high && more.length > 4 then
          match hexQuad? more with
          | none => .error (.at .invalidCodePoint (more.length + 1))
          | some low =>
            if isLowSurrogate low then
              .ok (.char (Char.ofNat (0x10000 + (high - 0xD800) * 0x400 + (low - 0xDC00))), 11)
            else .ok (unit high, 5)
        else .ok (unit high, 5)
      | _ => .ok (unit high, 5)

/-- The rest of a string, after `skip` code points of an escape that has been read; `start` tells where the opening
quote stands. -/
def readStringFrom (start : Nat) : (skip : Nat) → List CodePoint → Except Fault (List CodePoint × List CodePoint)
  | _, [] => .error (.at .unterminatedString start)
  | skip + 1, _ :: rest => readStringFrom start skip rest
  | 0, .char '\x22' :: rest => .ok ([], rest)
  | 0, .char '\\' :: rest =>
    match rest with
    | [] => .error (.at .unterminatedString start)
    | .char 'u' :: _ => do
      let (c, used) ← codePointEscape rest
      let (cs, rest) ← readStringFrom start used rest
      return (c :: cs, rest)
    | e :: more =>
      match e.char?.bind simpleEscape? with
      | none => .error (.at .invalidEscape (more.length + 2))
      | some c => do
        let (cs, rest) ← readStringFrom start 1 rest
        return (.char c :: cs, rest)
  | 0, c :: rest =>
    if c.toNat < 0x20 then .error (.at .invalidControl (rest.length + 1))
    else do
      let (cs, rest) ← readStringFrom start 0 rest
      return (c :: cs, rest)

def digitCount (cs : List CodePoint) : Nat :=
  (cs.takeWhile (·.any Text.isAsciiDigit)).length

/-- The digits of a fraction, with the point: a point without a digit is none. -/
def fractionLength : List CodePoint → Nat
  | .char '.' :: rest => match digitCount rest with
    | 0 => 0
    | n => n + 1
  | _ => 0

def exponentLength : List CodePoint → Nat
  | c :: rest =>
    if c.any fun c => c == 'e' || c == 'E' then
      let sign := if rest.head?.any (·.any fun c => c == '+' || c == '-') then 1 else 0
      match digitCount (rest.drop sign) with
      | 0 => 0
      | n => 1 + sign + n
    else 0
  | [] => 0

/-- A number: a zero or digits that begin with no zero, a fraction and an exponent. -/
def readNumber (cs : List CodePoint) : Except Fault (Value × List CodePoint) :=
  let sign := if cs.head? == some (.char '-') then 1 else 0
  let digits := if (cs.drop sign).head? == some (.char '0') then 1 else digitCount (cs.drop sign)
  if digits = 0 then .error (.at .expectingValue cs.length)
  else
    let whole := sign + digits
    let fraction := fractionLength (cs.drop whole)
    let exponent := exponentLength (cs.drop (whole + fraction))
    let length := whole + fraction + exponent
    if length = whole && digits > Text.maxIntegerDigits then .error (.tooLong digits)
    else .ok (.number (String.ofList ((cs.take length).filterMap CodePoint.char?)), cs.drop length)

def literals : List (String × Value) :=
  [("null", .null), ("true", .boolean true), ("false", .boolean false), ("NaN", .number "NaN"),
    ("Infinity", .number "Infinity"), ("-Infinity", .number "-Infinity")]

def readAtomic (cs : List CodePoint) : Except Fault (Value × List CodePoint) :=
  match literals.find? fun l => (CodePoint.ofChars l.1.toList).isPrefixOf cs with
  | some (spelling, v) => .ok (v, cs.drop spelling.length)
  | none => readNumber cs

mutual

/-- A value with at most `depth` brackets inside each other.  Twice the length of the text is fuel enough, since every
second step takes a character. -/
def readValue : (fuel depth : Nat) → List CodePoint → Except Fault (Value × List CodePoint)
  | 0, _, cs => .error (.at .expectingValue cs.length)
  | fuel + 1, depth, cs =>
    match cs with
    | .char '\x22' :: rest => do
      let (points, rest) ← readStringFrom cs.length 0 rest
      return (.string (.ofPoints points), rest)
    | .char '\x7b' :: rest =>
      if depth = 0 then .error (.tooDeep true)
      else match skipSpace rest with
        | .char '\x7d' :: rest => .ok (.object [], rest)
        | rest => do
          let (members, rest) ← readMembers fuel (depth - 1) [] rest
          return (.object members, rest)
    | .char '[' :: rest =>
      if depth = 0 then .error (.tooDeep false)
      else match skipSpace rest with
        | .char ']' :: rest => .ok (.array [], rest)
        | rest => do
          let (items, rest) ← readItems fuel (depth - 1) rest
          return (.array items, rest)
    | _ => readAtomic cs

/-- The members of an object up to its closing brace; `read` came before. -/
def readMembers : (fuel depth : Nat) → (read : List (Spelling × Value)) → List CodePoint →
    Except Fault (List (Spelling × Value) × List CodePoint)
  | 0, _, _, cs => .error (.at .expectingName cs.length)
  | fuel + 1, depth, read, cs =>
    match cs with
    | .char '\x22' :: rest => do
      let (points, rest) ← readStringFrom cs.length 0 rest
      match skipSpace rest with
      | .char ':' :: rest => do
        let (v, rest) ← readValue fuel depth (skipSpace rest)
        let read := writeMember (.ofPoints points) v read
        match skipSpace rest with
        | .char '\x7d' :: rest => return (read, rest)
        | .char ',' :: rest => readMembers fuel depth read (skipSpace rest)
        | rest => .error (.at .expectingComma rest.length)
      | rest => .error (.at .expectingColon rest.length)
    | _ => .error (.at .expectingName cs.length)

def readItems : (fuel depth : Nat) → List CodePoint → Except Fault (List Value × List CodePoint)
  | 0, _, cs => .error (.at .expectingValue cs.length)
  | fuel + 1, depth, cs => do
    let (v, rest) ← readValue fuel depth cs
    match skipSpace rest with
    | .char ']' :: rest => return ([v], rest)
    | .char ',' :: rest => do
      let (items, rest) ← readItems fuel depth (skipSpace rest)
      return (v :: items, rest)
    | rest => .error (.at .expectingComma rest.length)

end

/-- A fault in a text, its place counted in lines and columns from one. -/
def Fault.locate (text : List CodePoint) : Fault → ReadError
  | .tooLong digits => .tooLong digits
  | .tooDeep isObject => .tooDeep isObject
  | .at problem left =>
    let offset := text.length - left
    let before := text.take offset
    let column := (before.reverse.takeWhile (· != .char '\n')).length + 1
    .malformed problem (before.count (.char '\n') + 1) column offset

/-- The value that a text spells, with nothing but white space around it. -/
def readText (text : List CodePoint) : Except Fault Value :=
  if text.head? == some (.char '\uFEFF') then .error (.at .byteOrderMark text.length)
  else do
    let (v, rest) ← readValue (2 * text.length + 2) maxDepth (skipSpace text)
    match skipSpace rest with
    | [] => return v
    | rest => .error (.at .extraData rest.length)

def read (text : Spelling) : Except ReadError Value :=
  (readText text.points).mapError (Fault.locate text.points)

end Json
end Argot
