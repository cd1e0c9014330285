import OutlineIndex.Data
import OutlineIndex.Text.Lines

namespace OutlineIndex.Json

/-- Why a text is not read: it is no value, a whole number has too many digits, or lists and records stand
too deep in one another. -/
inductive Error where
  | malformed
  | hugeNumber
  | tooDeep
  deriving DecidableEq, Repr

def Error.message : Error → String
  | .malformed => "invalid JSON"
  | .hugeNumber => "too many digits"
  | .tooDeep => "maximum recursion depth exceeded"

def isBlank (c : Char) : Bool := c = ' ' || c = '\t' || c = '\n' || c = '\r'

def skip (s : List Char) : List Char := s.dropWhile isBlank

def hexDigit? (c : Char) : Option Nat :=
  if '0' ≤ c && c ≤ '9' then some (c.toNat - 48)
  else if 'a' ≤ c && c ≤ 'f' then some (c.toNat - 87)
  else if 'A' ≤ c && c ≤ 'F' then some (c.toNat - 55)
  else none

def hexUnit? (a b c d : Char) : Option Nat := do
  return ((16 * (← hexDigit? a) + (← hexDigit? b)) * 16 + (← hexDigit? c)) * 16 + (← hexDigit? d)

def escaped? (c : Char) : Option Nat :=
  match c with
  | '"' => some 34
  | '\\' => some 92
  | '/' => some 47
  | 'b' => some 8
  | 'f' => some 12
  | 'n' => some 10
  | 'r' => some 13
  | 't' => some 9
  | _ => none

/-- The code units of a string up to its closing quote, and what follows. -/
def units? : List Char → Option (List Nat × List Char)
  | [] => none
  | '"' :: rest => some ([], rest)
  | '\\' :: 'u' :: a :: b :: c :: d :: rest => do
    let unit ← hexUnit? a b c d
    let (units, rest) ← units? rest
    return (unit :: units, rest)
  | '\\' :: c :: rest => do
    let unit ← escaped? c
    let (units, rest) ← units? rest
    return (unit :: units, rest)
  | c :: rest => do
    if c.toNat < 32 || c = '\\' then none
    else
      let (units, rest) ← units? rest
      return (c.toNat :: units, rest)

def isHigh (n : Nat) : Bool := 0xD800 ≤ n && n < 0xDC00

def isLow (n : Nat) : Bool := 0xDC00 ≤ n && n < 0xE000

/-- A unit on its own; half of a pair stands for the replacement character. -/
def single (n : Nat) : Char := if isHigh n || isLow n then Char.ofNat 0xFFFD else Char.ofNat n

/-- Joins the two halves of a pair. -/
def joinPairs : List Nat → List Char
  | [] => []
  | [n] => [single n]
  | n :: m :: rest =>
    if isHigh n && isLow m then
      Char.ofNat (0x10000 + (n - 0xD800) * 0x400 + (m - 0xDC00)) :: joinPairs rest
    else single n :: joinPairs (m :: rest)

def isDigit (c : Char) : Bool := '0' ≤ c && c ≤ '9'

def natOf (ds : List Char) : Nat := ds.foldl (fun n c => 10 * n + (c.toNat - 48)) 0

/-- The digits after a point, if there are any. -/
def fraction (s : List Char) : List Char × List Char :=
  match s with
  | '.' :: rest => if (rest.takeWhile isDigit).isEmpty then ([], s) else rest.span isDigit
  | _ => ([], s)

/-- The power of ten after an exponent mark. -/
def power? (s : List Char) : Option Int × List Char :=
  let digits (sign : Int) (rest : List Char) : Option Int × List Char :=
    if (rest.takeWhile isDigit).isEmpty then (none, s)
    else (some (sign * natOf (rest.takeWhile isDigit)), rest.dropWhile isDigit)
  match s with
  | c :: '-' :: rest => if c = 'e' || c = 'E' then digits (-1) rest else (none, s)
  | c :: '+' :: rest => if c = 'e' || c = 'E' then digits 1 rest else (none, s)
  | c :: rest => if c = 'e' || c = 'E' then digits 1 rest else (none, s)
  | [] => (none, s)

/-- The most digits of a whole number. -/
def maxDigits : Nat := 4300

/-- A number without a leading zero. -/
def number (s : List Char) : Except Error (Data × List Char) :=
  let negative := s.head? = some '-'
  let body := if negative then s.drop 1 else s
  let (whole, rest) := match body with
    | '0' :: rest => (['0'], rest)
    | _ => body.span isDigit
  if whole.isEmpty then .error .malformed
  else
    let (places, rest) := fraction rest
    let (power, rest) := power? rest
    if places.isEmpty && power.isNone then
      if whole.length > maxDigits then .error .hugeNumber
      else .ok (.whole (if negative then -(natOf whole : Int) else natOf whole), rest)
    else .ok (.numeral negative (natOf (whole ++ places)) (power.getD 0 - places.length), rest)

/-- The rest of a text after a word it starts with. -/
def after? (word : String) (s : List Char) : Option (List Char) :=
  if word.toList.isPrefixOf s then some (s.drop word.length) else none

def words : List (String × Data) :=
  [("null", .null), ("true", .flag true), ("false", .flag false), ("NaN", .unbounded "NaN"),
    ("Infinity", .unbounded "Infinity"), ("-Infinity", .unbounded "-Infinity")]

def word? (s : List Char) : Option (Data × List Char) :=
  words.findSome? fun w => (after? w.1 s).map fun rest => (w.2, rest)

mutual

/-- A value at the start of a text, with at most `depth` lists and records in one another. Every step takes
a character. -/
def value : Nat → Nat → List Char → Except Error (Data × List Char)
  | 0, _, _ => .error .malformed
  | _ + 1, _, '"' :: rest =>
    match units? rest with
    | some (units, rest) => .ok (.text (String.ofList (joinPairs units)), rest)
    | none => .error .malformed
  | _ + 1, 0, '[' :: _ => .error .tooDeep
  | fuel + 1, depth + 1, '[' :: rest =>
    match skip rest with
    | ']' :: rest => .ok (.list [], rest)
    | rest => do
      let (vs, rest) ← items fuel depth rest
      return (.list vs, rest)
  | _ + 1, 0, '\x7b' :: _ => .error .tooDeep
  | fuel + 1, depth + 1, '\x7b' :: rest =>
    match skip rest with
    | '\x7d' :: rest => .ok (.record [], rest)
    | rest => do
      let (vs, rest) ← fields fuel depth rest
      return (.record (Table.ofList vs).entries, rest)
  | _ + 1, _, s =>
    match word? s with
    | some r => .ok r
    | none => number s

/-- The items of a list up to its closing bracket. -/
def items : Nat → Nat → List Char → Except Error (List Data × List Char)
  | 0, _, _ => .error .malformed
  | fuel + 1, depth, s => do
    let (v, rest) ← value fuel depth s
    match skip rest with
    | ']' :: rest => return ([v], rest)
    | ',' :: rest =>
      let (vs, rest) ← items fuel depth (skip rest)
      return (v :: vs, rest)
    | _ => throw .malformed

/-- The fields of a record up to its closing brace. -/
def fields : Nat → Nat → List Char → Except Error (List (String × Data) × List Char)
  | 0, _, _ => .error .malformed
  | fuel + 1, depth, '"' :: rest =>
    match units? rest with
    | none => .error .malformed
    | some (units, rest) =>
      let name := String.ofList (joinPairs units)
      match skip rest with
      | ':' :: rest => do
        let (v, rest) ← value fuel depth (skip rest)
        match skip rest with
        | '\x7d' :: rest => return ([(name, v)], rest)
        | ',' :: rest =>
          let (vs, rest) ← fields fuel depth (skip rest)
          return ((name, v) :: vs, rest)
        | _ => throw .malformed
      | _ => .error .malformed
  | _ + 1, _, _ => .error .malformed

end

/-- How deep lists and records may usually stand in one another. -/
def maxDepth : Nat := 980

/-- The value that a whole text stands for. -/
def read (depth : Nat) (s : List Char) : Except Error Data := do
  let (v, rest) ← value (s.length + 1) depth (skip s)
  if (skip rest).isEmpty then return v else throw .malformed

def hexChar (n : Nat) : Char := Char.ofNat (if n < 10 then 48 + n else 87 + n)

def unitEscape (n : Nat) : List Char :=
  ['\\', 'u', hexChar (n / 4096 % 16), hexChar (n / 256 % 16), hexChar (n / 16 % 16), hexChar (n % 16)]

/-- A character between quotes. -/
def escape (c : Char) : List Char :=
  if c = '"' then ['\\', '"']
  else if c = '\\' then ['\\', '\\']
  else if c = '\n' then ['\\', 'n']
  else if c = '\r' then ['\\', 'r']
  else if c = '\t' then ['\\', 't']
  else if c = '\x0c' then ['\\', 'f']
  else if c = '\x08' then ['\\', 'b']
  else if ' ' ≤ c && c ≤ '~' then [c]
  else if c.toNat < 0x10000 then unitEscape c.toNat
  else
    unitEscape (0xD800 + (c.toNat - 0x10000) / 0x400) ++
      unitEscape (0xDC00 + (c.toNat - 0x10000) % 0x400)

def quote (s : String) : List Char := '"' :: s.toList.flatMap escape ++ ['"']

/-- A line break and the indentation of a level. -/
def newline (level : Nat) : List Char := '\n' :: List.replicate (2 * level) ' '

mutual

/-- A value at a level of nesting. -/
def write (level : Nat) : Data → List Char
  | .null => "null".toList
  | .flag b => (if b then "true" else "false").toList
  | .whole n => (toString n).toList
  | .real x => x.text.toList
  | .unbounded name => name.toList
  | .text s => quote s
  | .list [] => ['[', ']']
  | .list (v :: rest) =>
    '[' :: newline (level + 1) ++ write (level + 1) v ++ writeItems (level + 1) rest ++
      newline level ++ [']']
  | .record [] => ['\x7b', '\x7d']
  | .record ((k, v) :: rest) =>
    '\x7b' :: newline (level + 1) ++ quote k ++ [':', ' '] ++ write (level + 1) v ++
      writeFields (level + 1) rest ++ newline level ++ ['\x7d']

def writeItems (level : Nat) : List Data → List Char
  | [] => []
  | v :: rest => ',' :: newline level ++ write level v ++ writeItems level rest

def writeFields (level : Nat) : List (String × Data) → List Char
  | [] => []
  | (k, v) :: rest =>
    ',' :: newline level ++ quote k ++ [':', ' '] ++ write level v ++ writeFields level rest

end

/-- A list of texts on one line. -/
def printTexts (ss : List String) : String :=
  String.ofList ('[' :: Text.join [',', ' '] (ss.map quote) ++ [']'])

/-- A value as a text of its own. -/
def print (v : Data) : String := String.ofList (write 0 v)

end OutlineIndex.Json
