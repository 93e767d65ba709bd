import Argot.Text.Word
/-!
# Grammar — switches and arguments on a command line

A word that begins with a hyphen is a switch, and everything after two lone hyphens is no switch.  A long switch may be
cut short as long as only one can be meant, and may have its value behind an equals sign; a short one may have its value
right behind it, and short flags may share a hyphen.  A word with a space in it is no switch unless it is known to be
one, nor is a negative number.  Words that nobody takes are a fault of usage, as are missing and misspelled values.
-/
namespace Argot

/-- How many words a switch takes. -/
inductive Arity where
  | none
  | one
  | many
  deriving DecidableEq, Repr

/-- A switch: what its values are kept under, its spellings, and the words it takes. -/
structure Switch where
  key : String
  names : List String
  arity : Arity
  accepts : String → Bool := fun _ => true

/-- The switches of a command and its one argument. -/
structure Grammar where
  switches : List Switch
  argument : String
  accepts : String → Bool := fun _ => true

/-- Why reading ends early. -/
inductive Stop where
  | usage
  | help
  deriving DecidableEq, Repr

namespace Grammar

/-- A switch that a word may spell: the switch, its spelling, and a value in the same word. -/
abbrev Spelled := Switch × String × Option String

/-- What a word on the command line is. -/
inductive Word where
  | marker
  | plain (text : String)
  | switch (s : Spelled)
  | unknown (text : String)

def helpSwitch : Switch := { key := "help", names := ["-h", "--help"], arity := .none }

def spellings (switches : List Switch) : List (Switch × String) :=
  switches.flatMap fun s => s.names.map (s, ·)

def named? (switches : List Switch) (name : String) : Option Switch :=
  switches.find? fun s => s.names.contains name

def cutAtEquals (text : String) : Option (String × String) :=
  let before := text.toList.takeWhile (· != '=')
  match text.toList.drop before.length with
  | [] => none
  | _ :: behind => some (String.ofList before, String.ofList behind)

/-- The switches that a word may be a cut spelling of, or a short spelling with a value behind it. -/
def candidates (switches : List Switch) (text : String) : List Spelled :=
  if "--".toList.isPrefixOf text.toList then
    let (start, value) := match cutAtEquals text with
      | some (a, b) => (a, some b)
      | none => (text, none)
    ((spellings switches).filter fun s => start.toList.isPrefixOf s.2.toList).map fun s => (s.1, s.2, value)
  else
    let short := String.ofList (text.toList.take 2)
    (spellings switches).filterMap fun s =>
      if s.2 = short then some (s.1, s.2, some (String.ofList (text.toList.drop 2)))
      else if text.toList.isPrefixOf s.2.toList then some (s.1, s.2, none)
      else none

def isDigits (cs : List Char) : Bool :=
  let digits := cs.takeWhile Text.isDecimalDigit
  !digits.isEmpty && (cs.drop digits.length == [] || cs.drop digits.length == ['\n'])

def isNegativeNumber (text : String) : Bool :=
  match text.toList with
  | '-' :: rest =>
    isDigits rest || match rest.dropWhile Text.isDecimalDigit with
      | '.' :: fraction => isDigits fraction
      | _ => false
  | _ => false

def classify (switches : List Switch) (text : String) : Except Stop Word :=
  if text.toList.head? != some '-' || text = "-" then .ok (.plain text)
  else match named? switches text with
    | some s => .ok (.switch (s, text, none))
    | none =>
      let exact := (cutAtEquals text).bind fun (name, value) => (named? switches name).map (·, name, some value)
      match exact with
      | some spelled => .ok (.switch spelled)
      | none => match candidates switches text with
        | [spelled] => .ok (.switch spelled)
        | [] =>
          if isNegativeNumber text || text.toList.contains ' ' then .ok (.plain text) else .ok (.unknown text)
        | _ => .error .usage

def classifyAll (switches : List Switch) : List String → Except Stop (List Word)
  | [] => .ok []
  | "--" :: rest => .ok (.marker :: rest.map .plain)
  | text :: rest => do
    let word ← classify switches text
    return word :: (← classifyAll switches rest)

/-- The values of switches and of the argument in the order they were given, and whether there were words that nobody
took. -/
structure Reading where
  values : List (String × List String) := []
  leftovers : Bool := false

namespace Reading

def last? (r : Reading) (key : String) : Option (List String) :=
  (r.values.reverse.find? fun v => v.1 == key).map Prod.snd

def has (r : Reading) (key : String) : Bool :=
  (r.last? key).isSome

/-- The one value given last under a key, if the key was not given without one. -/
def value? (r : Reading) (key : String) : Option String :=
  (r.last? key).bind List.head?

def take (r : Reading) (s : Switch) (words : List String) : Except Stop Reading :=
  if s.key = helpSwitch.key then .error .help
  else if words.all s.accepts then .ok { r with values := r.values ++ [(s.key, words)] }
  else .error .usage

end Reading

def plainRun : List Word → List String
  | .plain text :: rest => text :: plainRun rest
  | _ => []

/-- The flags that share a hyphen, and the switch after them with the value it has in the same word.  Each flag takes a
character, so the length of the word is fuel enough. -/
def unfold (switches : List Switch) : (fuel : Nat) → Spelled → Except Stop (List Switch × Spelled)
  | 0, spelled => .ok ([], spelled)
  | fuel + 1, (s, name, value) =>
    match s.arity, value with
    | .none, some text =>
      match text.toList with
      | c :: behind =>
        if (name.toList.drop 1).head? == some '-' then .error .usage
        else
          let next := String.ofList ['-', c]
          match named? switches next with
          | none => .error .usage
          | some s' => do
            let (flags, last) ← unfold switches fuel
              (s', next, if behind.isEmpty then none else some (String.ofList behind))
            return (s :: flags, last)
      | [] => .error .usage
    | _, _ => .ok ([], (s, name, value))

/-- The words that a switch takes: its value in the same word, or words that follow.  Two hyphens in the same word are
no value, so the switch is given without one. -/
def wordsFor (s : Switch) (value : Option String) (rest : List Word) : Except Stop (List String × List Word) :=
  match s.arity, value with
  | .none, _ => .ok ([], rest)
  | _, some text => .ok (if text = "--" then [] else [text], rest)
  | .one, none => match rest with
    | .plain text :: rest => .ok ([text], rest)
    | _ => .error .usage
  | .many, none => .ok (plainRun rest, rest.drop (plainRun rest).length)

def readSwitch (switches : List Switch) (spelled : Spelled) (rest : List Word) (r : Reading) :
    Except Stop (Reading × List Word) := do
  let fuel := match spelled.2.2 with
    | some text => text.length + 1
    | none => 1
  let (flags, (s, _, value)) ← unfold switches fuel spelled
  let (words, rest) ← wordsFor s value rest
  let r ← flags.foldlM (fun r flag => Reading.take r flag []) r
  return (← r.take s words, rest)

/-- The argument at the front, with a marker before or after it. -/
def argumentAt? : List Word → Option (String × List Word)
  | .plain text :: .marker :: rest => some (text, rest)
  | .plain text :: rest => some (text, rest)
  | .marker :: .plain text :: rest => some (text, rest)
  | _ => none

def Word.isSwitch : Word → Bool
  | .switch _ | .unknown _ => true
  | _ => false

/-- Reads the words of a command.  Each step takes a word, so their number is fuel enough. -/
def readWords (g : Grammar) : (fuel : Nat) → List Word → Reading → Except Stop Reading
  | 0, _, r => .ok r
  | _ + 1, [], r => .ok r
  | fuel + 1, .switch spelled :: rest, r => do
    let (r, rest) ← readSwitch g.switches spelled rest r
    readWords g fuel rest r
  | fuel + 1, .unknown _ :: rest, r => readWords g fuel rest { r with leftovers := true }
  | fuel + 1, words, r =>
    match (if r.has g.argument then none else argumentAt? words) with
    | some (text, rest) =>
      if g.accepts text then
        readWords g fuel rest { r with values := r.values ++ [(g.argument, [text])] }
      else .error .usage
    | none => readWords g fuel (words.dropWhile fun w => !w.isSwitch) { r with leftovers := true }

/-- Reads the words of a command, whose argument has to be there. -/
def read (g : Grammar) (words : List String) : Except Stop Reading := do
  let classified ← classifyAll g.switches words
  let r ← readWords g (classified.length + 1) classified {}
  if r.has g.argument then return r else .error .usage

end Grammar
end Argot
