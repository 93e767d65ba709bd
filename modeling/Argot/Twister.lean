/-!
# Twister — a reproducible source of random numbers

The Mersenne twister of 624 words of 32 bits: an array of seed words is spread over the state, the state is renewed as a
whole when its words are used up, and each word is tempered before it is given out.
-/
namespace Argot

/-- The state of the generator: all words, and how many of them have been given out. -/
structure Twister where
  words : Array UInt32
  used : Nat

namespace Twister

def size : Nat := 624

def spreadWord (seed : UInt32) : Array UInt32 :=
  (List.range (size - 1)).foldl (fun words i =>
    let last := words.getD i 0
    words.push ((1812433253 : UInt32) * (last ^^^ (last >>> 30)) + UInt32.ofNat (i + 1))) #[seed]

def mixed (words : Array UInt32) (i : Nat) (factor : UInt32) : UInt32 :=
  let last := words.getD (i - 1) 0
  words.getD i 0 ^^^ ((last ^^^ (last >>> 30)) * factor)

/-- The next place after a write at `i`: behind the last place the state goes on at its second word, its first word
being the last one. -/
def wrap (words : Array UInt32) (i : Nat) : Array UInt32 × Nat :=
  if i + 1 ≥ size then (words.setIfInBounds 0 (words.getD (size - 1) 0), 1) else (words, i + 1)

/-- One step of spreading seed words: a place of the state takes in a word of the seed; both go on by one. -/
def absorb (seed : Array UInt32) (p : Array UInt32 × Nat × Nat) : Array UInt32 × Nat × Nat :=
  let (words, i, j) := p
  let word := mixed words i 1664525 + seed.getD j 0 + UInt32.ofNat j
  let (words, i) := wrap (words.setIfInBounds i word) i
  (words, i, if j + 1 ≥ seed.size then 0 else j + 1)

/-- One step of the second pass, which takes in no more seed words. -/
def settle (p : Array UInt32 × Nat) : Array UInt32 × Nat :=
  let (words, i) := p
  wrap (words.setIfInBounds i (mixed words i 1566083941 - UInt32.ofNat i)) i

def ofWords (seed : Array UInt32) : Twister :=
  let (words, i, _) := (List.range (max size seed.size)).foldl (fun p _ => absorb seed p)
    (spreadWord 19650218, 1, 0)
  let (words, _) := (List.range (size - 1)).foldl (fun p _ => settle p) (words, i)
  ⟨words.setIfInBounds 0 0x80000000, size⟩

/-- The 32-bit words of a number, the lowest first; zero has one word. -/
def seedWords (n : Nat) : List UInt32 :=
  if n < 0x100000000 then [UInt32.ofNat n] else UInt32.ofNat (n % 0x100000000) :: seedWords (n / 0x100000000)
termination_by n
decreasing_by omega

/-- The generator of a number, whose sign does not count. -/
def ofSeed (seed : Int) : Twister :=
  ofWords (seedWords seed.natAbs).toArray

def renewWord (words : Array UInt32) (i : Nat) : Array UInt32 :=
  let y := (words.getD i 0 &&& 0x80000000) ||| (words.getD ((i + 1) % size) 0 &&& 0x7fffffff)
  let twist : UInt32 := if y &&& 1 == 0 then 0 else 0x9908b0df
  words.setIfInBounds i (words.getD ((i + 397) % size) 0 ^^^ (y >>> 1) ^^^ twist)

def temper (word : UInt32) : UInt32 :=
  let y := word ^^^ (word >>> 11)
  let y := y ^^^ ((y <<< 7) &&& 0x9d2c5680)
  let y := y ^^^ ((y <<< 15) &&& 0xefc60000)
  y ^^^ (y >>> 18)

def next (g : Twister) : UInt32 × Twister :=
  let g := if g.used < size then g else ⟨(List.range size).foldl renewWord g.words, 0⟩
  (temper (g.words.getD g.used 0), { g with used := g.used + 1 })

def bitLength (n : Nat) : Nat :=
  if n = 0 then 0 else n.log2 + 1

/-- A number below `bound`: as many high bits of a word as the bound has digits, drawn again while they are too many.
After `tries` draws in vain it is zero; each draw is in vain with less than even odds. -/
def below (bound : Nat) : (tries : Nat) → Twister → Nat × Twister
  | 0, g => (0, g)
  | tries + 1, g =>
    let (word, g) := g.next
    let drawn := word.toNat >>> (32 - bitLength bound)
    if drawn < bound then (drawn, g) else below bound tries g

/-- One element of a list, and a default if there is none. -/
def choose {α : Type} (g : Twister) (items : List α) (default : α) : α × Twister :=
  let (i, g) := below items.length 1000 g
  (items.getD i default, g)

end Twister
end Argot
