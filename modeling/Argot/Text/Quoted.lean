import Argot.Text.Printable
/-!
# Quoted — text in quotes for messages

A quoted text stands in single quotes, or in double quotes when it holds a single quote and no double one.  The
backslash, the quote in use, the line feed, the carriage return and the tab are escaped by name, every other character
that cannot be shown by its code point in two, four or eight hexadecimal digits.
-/
namespace Argot
namespace Text

def singleQuote : Char := '\x27'

def doubleQuote : Char := '\x22'

/-- The lowest `digits` hexadecimal digits of a number, the highest first. -/
def hexDigits : (digits : Nat) → Nat → List Char
  | 0, _ => []
  | digits + 1, n => hexDigits digits (n / 16) ++ [Nat.digitChar (n % 16)]

def codePointEscape (n : Nat) : List Char :=
  if n < 0x100 then '\\' :: 'x' :: hexDigits 2 n
  else if n < 0x10000 then '\\' :: 'u' :: hexDigits 4 n
  else '\\' :: 'U' :: hexDigits 8 n

def quoteChar (mark c : Char) : List Char :=
  if c == mark || c == '\\' then ['\\', c]
  else if c == '\n' then ['\\', 'n']
  else if c == '\r' then ['\\', 'r']
  else if c == '\t' then ['\\', 't']
  else if isPrintable c then [c]
  else codePointEscape c.toNat

def quoteMark (cs : List Char) : Char :=
  if cs.contains singleQuote && !cs.contains doubleQuote then doubleQuote else singleQuote

def quoted (s : String) : String :=
  let mark := quoteMark s.toList
  String.ofList (mark :: s.toList.flatMap (quoteChar mark) ++ [mark])

end Text
end Argot
