/-!
# Newline — one line end for all

A text file may end its lines with a carriage return, a line feed or the pair of both.  Reading makes each of them one
line feed.
-/
namespace Argot
namespace Text

/-- The text with every line end written as one line feed.  `afterReturn` says that a carriage return came just before,
so that a line feed here belongs to it. -/
def unifyNewlinesAfter (afterReturn : Bool) : List Char → List Char
  | [] => []
  | '\r' :: rest => '\n' :: unifyNewlinesAfter true rest
  | '\n' :: rest => if afterReturn then unifyNewlinesAfter false rest else '\n' :: unifyNewlinesAfter false rest
  | c :: rest => c :: unifyNewlinesAfter false rest

/-- The text with every line end written as one line feed. -/
def unifyNewlines (cs : List Char) : List Char :=
  unifyNewlinesAfter false cs

end Text
end Argot
