import OutlineIndex.Data.Json
import OutlineIndex.Text.Blank
import OutlineIndex.Text.Lower

namespace OutlineIndex.Arguments

/-- An option with its spellings. -/
structure Spec where
  key : String
  names : List String
  takesValue : Bool

/-- The options in the order in which they were given, and the other words. -/
structure Parsed where
  options : List (String × String)
  words : List String

def addWord (w : String) (p : Parsed) : Parsed := { p with words := w :: p.words }

def find? (specs : List Spec) (name : String) : Option Spec := specs.find? (·.names.contains name)

/-- The letters of a word with one dash: flags, and last perhaps an option whose value is the rest of
the word or the next word. -/
def letters? (specs : List Spec) : List Char → List String → Option (List (String × String) × List String)
  | [], rest => some ([], rest)
  | c :: cs, rest => do
    let spec ← find? specs (String.ofList ['-', c])
    if spec.takesValue then
      if cs.isEmpty then
        match rest with
        | v :: rest => return ([(spec.key, v)], rest)
        | [] => none
      else return ([(spec.key, String.ofList cs)], rest)
    else
      let (more, rest) ← letters? specs cs rest
      return ((spec.key, "") :: more, rest)

/-- A word that begins with a dash: the options it gives and the words after them. -/
def option? (specs : List Spec) (word : List Char) (rest : List String) :
    Option (List (String × String) × List String) :=
  let name := word.takeWhile (· ≠ '=')
  let value := word.drop (name.length + 1)
  match (find? specs (String.ofList name)).filter fun _ => name.length ≠ 2 with
  | some spec =>
    match spec.takesValue, decide (name.length < word.length), rest with
    | true, true, rest => some ([(spec.key, String.ofList value)], rest)
    | true, false, v :: rest => some ([(spec.key, v)], rest)
    | true, false, [] => none
    | false, true, _ => none
    | false, false, rest => some ([(spec.key, "")], rest)
  | none => if "--".toList.isPrefixOf word then none else letters? specs (word.drop 1) rest

/-- Parses words; unless `mixed`, everything from the first word that is no option is left as it is. -/
def parse? (specs : List Spec) (mixed : Bool) : Nat → List String → Option Parsed
  | 0, _ => none
  | _ + 1, [] => some ⟨[], []⟩
  | fuel + 1, w :: rest =>
    if w = "--" then some ⟨[], rest⟩
    else if w.toList.head? = some '-' && w.length ≠ 1 then do
      let (given, rest) ← option? specs w.toList rest
      let p ← parse? specs mixed fuel rest
      return { p with options := given ++ p.options }
    else if mixed then (parse? specs mixed fuel rest).map (addWord w)
    else some ⟨[], w :: rest⟩

namespace Parsed

/-- The last value given for an option. -/
def last? (p : Parsed) (key : String) : Option String :=
  ((p.options.filter (·.1 == key)).map (·.2)).getLast?

def every (p : Parsed) (key : String) : List String := (p.options.filter (·.1 == key)).map (·.2)

def has (p : Parsed) (key : String) : Bool := p.options.any (·.1 == key)

end Parsed

/-- A sign and what follows it. -/
def signed : List Char → Bool × List Char
  | '-' :: rest => (true, rest)
  | '+' :: rest => (false, rest)
  | s => (false, s)

/-- Drops the underscores between digits; elsewhere they have no place. -/
def joinDigits : Bool → List Char → Option (List Char)
  | _, [] => some []
  | afterDigit, '_' :: c :: rest =>
    if afterDigit && Json.isDigit c then (joinDigits true rest).map (c :: ·) else none
  | _, c :: rest => if c = '_' then none else (joinDigits (Json.isDigit c) rest).map (c :: ·)

/-- A whole number with an optional sign. -/
def whole? (s : String) : Option Int := do
  let (negative, body) := signed (Text.trim s.toList)
  let digits ← joinDigits false body
  if digits.isEmpty || !digits.all Json.isDigit then none
  else return if negative then -(Json.natOf digits : Int) else Json.natOf digits

/-- Digits around an optional point, with an optional power of ten. -/
def finite? (negative : Bool) (s : List Char) : Option Data :=
  let (whole, rest) := s.span Json.isDigit
  let (places, rest) := match rest with
    | '.' :: rest => rest.span Json.isDigit
    | rest => ([], rest)
  let (power, rest) := Json.power? rest
  if (whole ++ places).isEmpty || !rest.isEmpty then none
  else some (.numeral negative (Json.natOf (whole ++ places)) (power.getD 0 - places.length))

/-- A number that need not be whole or finite. -/
def real? (s : String) : Option Data := do
  let (negative, body) := signed (Text.trim s.toList)
  let word := String.ofList (Text.lower body)
  if word = "nan" then return .unbounded "NaN"
  else if word = "inf" || word = "infinity" then
    return .unbounded (if negative then "-Infinity" else "Infinity")
  else finite? negative (← joinDigits false body)

end OutlineIndex.Arguments
