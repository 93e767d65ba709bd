import Argot.Text.Ranges
/-!
# Blank — white space and trimming

White space is the same set wherever text is matched or trimmed: the ASCII blanks with the four separators before the
space, the next-line character, and the spaces and line separators of Unicode.
-/
namespace Argot
namespace Text

def blankRanges : Ranges := [
  (0x9, 0xD), (0x1C, 0x20), (0x85, 0x85), (0xA0, 0xA0), (0x1680, 0x1680), (0x2000, 0x200A),
  (0x2028, 0x2029), (0x202F, 0x202F), (0x205F, 0x205F), (0x3000, 0x3000)]

def isBlank (c : Char) : Bool :=
  blankRanges.contains c.toNat

def trimRight (cs : List Char) : List Char :=
  (cs.reverse.dropWhile isBlank).reverse

def trim (s : String) : String :=
  String.ofList (trimRight (s.toList.dropWhile isBlank))

def isTrimmed (s : String) : Bool :=
  trim s == s

end Text
end Argot
