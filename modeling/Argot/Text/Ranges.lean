/-!
# Ranges — sets of characters given by code point ranges

A character class of the Unicode standard is a list of inclusive code point ranges in ascending order.  Looking a
character up stops at the first range that begins above it, so the low ranges, where most text lives, cost little.
-/
namespace Argot
namespace Text

/-- Inclusive code point ranges, ascending and disjoint. -/
abbrev Ranges := List (Nat × Nat)

def Ranges.contains : Ranges → Nat → Bool
  | [], _ => false
  | (first, last) :: rest, n => if n < first then false else if n ≤ last then true else Ranges.contains rest n

end Text
end Argot
