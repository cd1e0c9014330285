import OutlineIndex.Data.Json
import OutlineIndex.Text.Blank
import OutlineIndex.Text.Lines

namespace OutlineIndex.Toml

abbrev Fields := List (String × Data)

def isBlank (c : Char) : Bool := c = ' ' || c = '\t' || c = '\r'

def skip (s : List Char) : List Char := s.dropWhile isBlank

/-- Passes over a comment, up to the end of its line. -/
def skipComment (s : List Char) : List Char :=
  match s with
  | '#' :: rest => rest.dropWhile (· ≠ '\n')
  | s => s

/-- Passes over blanks, line ends and comments. -/
def skipLines : Nat → List Char → List Char
  | 0, s => s
  | fuel + 1, s =>
    match skipComment (skip s) with
    | '\n' :: rest => skipLines fuel rest
    | s => s

def isBare (c : Char) : Bool := c.isAlphanum || c = '_' || c = '-' || 128 ≤ c.toNat

/-- The scalar value that hexadecimal digits stand for. -/
def scalar? (digits : List Char) : Option Char := do
  let n ← digits.foldlM (fun n c => do return 16 * n + (← Json.hexDigit? c)) 0
  if n < 0xD800 || (0xE000 ≤ n && n < 0x110000) then some (Char.ofNat n) else none

/-- The character that a backslash and a letter stand for. -/
def escaped? (c : Char) : Option Char :=
  match c with
  | '0' => some '\x00'
  | 'b' => some '\x08'
  | 'f' => some '\x0c'
  | 'n' => some '\n'
  | 'r' => some '\r'
  | 't' => some '\t'
  | '"' => some '"'
  | '\\' => some '\\'
  | _ => none

/-- A text between double quotes whose opening has been read; `lines` allows line ends in it and
wants three quotes at the end. -/
def basic? (lines : Bool) : Nat → List Char → Option (List Char × List Char)
  | 0, _ => none
  | _ + 1, [] => none
  | fuel + 1, '\\' :: 'u' :: a :: b :: c :: d :: rest => do
    let x ← scalar? [a, b, c, d]
    let (s, rest) ← basic? lines fuel rest
    return (x :: s, rest)
  | fuel + 1, '\\' :: 'U' :: a :: b :: c :: d :: e :: f :: g :: h :: rest => do
    let x ← scalar? [a, b, c, d, e, f, g, h]
    let (s, rest) ← basic? lines fuel rest
    return (x :: s, rest)
  | fuel + 1, '\\' :: '\n' :: rest =>
    if lines then basic? lines fuel (rest.dropWhile fun c => isBlank c || c = '\n') else none
  | fuel + 1, '\\' :: c :: rest => do
    let x ← escaped? c
    let (s, rest) ← basic? lines fuel rest
    return (x :: s, rest)
  | fuel + 1, c :: rest =>
    if lines then
      if ['"', '"', '"'].isPrefixOf (c :: rest) then some ([], rest.drop 2)
      else do
        let (s, rest) ← basic? lines fuel rest
        return (c :: s, rest)
    else if c = '"' then some ([], rest)
    else if c = '\n' then none
    else do
      let (s, rest) ← basic? lines fuel rest
      return (c :: s, rest)

/-- A text up to a closing mark, taken as it stands. -/
def verbatim? (mark : List Char) : List Char → Option (List Char × List Char)
  | [] => none
  | c :: rest =>
    if mark.isPrefixOf (c :: rest) then some ([], (c :: rest).drop mark.length)
    else if mark.length = 1 && c = '\n' then none
    else do
      let (s, rest) ← verbatim? mark rest
      return (c :: s, rest)

/-- A line end right after the opening of a text of many lines does not count. -/
def dropFirstEnd (s : List Char) : List Char :=
  match s with
  | '\n' :: rest => rest
  | s => s

/-- A quoted text. -/
def quoted? (s : List Char) : Option (List Char × List Char) :=
  match s with
  | '"' :: '"' :: '"' :: rest => basic? true (rest.length + 1) (dropFirstEnd rest)
  | '\'' :: '\'' :: '\'' :: rest => verbatim? ['\'', '\'', '\''] (dropFirstEnd rest)
  | '"' :: rest => basic? false (rest.length + 1) rest
  | '\'' :: rest => verbatim? ['\''] rest
  | _ => none

/-- One part of a key. -/
def keyPart? (s : List Char) : Option (String × List Char) :=
  match s with
  | [] => none
  | c :: rest =>
    if c = '"' || c = '\'' then (quoted? s).map fun (k, rest) => (String.ofList k, rest)
    else if isBare c then some (String.ofList (c :: rest.takeWhile isBare), rest.dropWhile isBare)
    else none

/-- A key with its parts between points. -/
def key? : Nat → List Char → Option (List String × List Char)
  | 0, _ => none
  | fuel + 1, s => do
    let (part, rest) ← keyPart? (skip s)
    match skip rest with
    | '.' :: rest =>
      let (parts, rest) ← key? fuel rest
      return (part :: parts, rest)
    | rest => return ([part], rest)

def digitValue? (c : Char) : Option Nat := Json.hexDigit? c

/-- A whole number in a base, without a sign. -/
def digits? (base : Nat) (s : List Char) : Option Nat :=
  if s.isEmpty then none
  else s.foldlM (fun n c => do
    let d ← digitValue? c
    if d < base then some (base * n + d) else none) 0

/-- Whether underscores stand only between digits. -/
def separated : List Char → Bool
  | [] => true
  | '_' :: _ => false
  | c :: '_' :: d :: rest => c ≠ '.' && d ≠ '_' && d ≠ '.' && separated (d :: rest)
  | [_, '_'] => false
  | _ :: rest => separated rest

/-- A number with a point or an exponent. -/
def real? (negative : Bool) (s : List Char) : Option Data :=
  let whole := s.takeWhile Json.isDigit
  let (places, rest) := Json.fraction (s.dropWhile Json.isDigit)
  let (power, rest) := Json.power? rest
  if whole.isEmpty || !rest.isEmpty then none
  else some (.numeral negative (Json.natOf (whole ++ places)) (power.getD 0 - places.length))

/-- A number without its sign; a leading zero stands alone, or before a point or the mark of a base. -/
def number? (signed negative : Bool) (s : List Char) : Option Data :=
  let plain := s.filter (· ≠ '_')
  let whole (n : Nat) : Data := .whole (if negative then -(n : Int) else n)
  if s.isEmpty || !separated s then none
  else match plain with
    | ['i', 'n', 'f'] => some (.unbounded (if negative then "-Infinity" else "Infinity"))
    | ['n', 'a', 'n'] => some (.unbounded "NaN")
    | '0' :: 'x' :: rest => if signed then none else (digits? 16 rest).map whole
    | '0' :: 'o' :: rest => if signed then none else (digits? 8 rest).map whole
    | '0' :: 'b' :: rest => if signed then none else (digits? 2 rest).map whole
    | '0' :: c :: rest => if c = '.' then real? negative ('0' :: c :: rest) else none
    | cs => ((digits? 10 cs).map whole).orElse fun _ => real? negative cs

/-- A value that is not quoted and has no brackets. -/
def atom? (s : List Char) : Option Data :=
  if s = "true".toList then some (.flag true)
  else if s = "false".toList then some (.flag false)
  else match s with
    | '-' :: rest => number? true true rest
    | '+' :: rest => number? true false rest
    | s => number? false false s

/-- What an array tells apart. -/
def kind : Data → Nat
  | .null => 0
  | .flag _ => 1
  | .whole _ => 2
  | .real _ => 3
  | .unbounded _ => 3
  | .text _ => 4
  | .list _ => 5
  | .record _ => 6

def uniform (items : List Data) : Bool :=
  match items with
  | [] => true
  | v :: rest => rest.all (kind · == kind v)

/-- Sets a field at the end of a way through tables, making those that are missing; a field that is
present is not set again. -/
def insertAt (v : Data) : List String → Fields → Option Fields
  | [], _ => none
  | [k], fs => if fs.any (·.1 == k) then none else some (fs ++ [(k, v)])
  | k :: ks, fs =>
    match fs.find? (·.1 == k) with
    | none => do return fs ++ [(k, .record (← insertAt v ks []))]
    | some (_, .record sub) => do return Data.putField fs k (.record (← insertAt v ks sub))
    | some _ => none

mutual

/-- A value at the start of a text. -/
def value? : Nat → List Char → Option (Data × List Char)
  | 0, _ => none
  | fuel + 1, '[' :: rest => do
    let (items, rest) ← items? fuel rest
    if uniform items then return (.list items, rest) else none
  | fuel + 1, '\x7b' :: rest =>
    match skip rest with
    | '\x7d' :: rest => some (.record [], rest)
    | rest => do
      let (fields, rest) ← inline? fuel [] rest
      return (.record fields, rest)
  | _ + 1, s =>
    if s.head? = some '"' || s.head? = some '\'' then
      (quoted? s).map fun (t, rest) => (.text (String.ofList t), rest)
    else
      let stops (c : Char) : Bool := c = ',' || c = ']' || c = '\x7d' || c = '\n' || c = '#'
      let word := s.takeWhile (!stops ·)
      (atom? (Text.trim word)).map fun v => (v, s.drop word.length)

/-- The items of an array up to its closing bracket; commas may be left over. -/
def items? : Nat → List Char → Option (List Data × List Char)
  | 0, _ => none
  | fuel + 1, s =>
    match skipLines (s.length + 1) s with
    | ']' :: rest => some ([], rest)
    | ',' :: rest => items? fuel rest
    | s => do
      let (v, rest) ← value? fuel s
      match skipLines (rest.length + 1) rest with
      | ']' :: rest => return ([v], rest)
      | ',' :: rest =>
        let (vs, rest) ← items? fuel rest
        return (v :: vs, rest)
      | _ => none

/-- The fields of a table in braces. -/
def inline? : Nat → Fields → List Char → Option (Fields × List Char)
  | 0, _, _ => none
  | fuel + 1, fs, s => do
    let (key, rest) ← key? (s.length + 1) s
    match rest with
    | '=' :: rest =>
      let (v, rest) ← value? fuel (skip rest)
      let fs ← insertAt v key fs
      match skip rest with
      | '\x7d' :: rest => return (fs, rest)
      | ',' :: rest => inline? fuel fs rest
      | _ => none
    | _ => none

end

/-- Opens the table under a heading, or a further table of an array of them. Tables above it that
are missing are made, and their names remembered: such a table may still get a heading of its own. -/
def openTable (many : Bool) : List String → Fields → List String → Option (Fields × List String)
  | [], _, _ => none
  | [k], fs, made =>
    match fs.find? (·.1 == k) with
    | none => some (fs ++ [(k, if many then .list [.record []] else .record [])], made)
    | some (_, v) =>
      if made.contains k then if many then none else some (fs, made.erase k)
      else match many, v with
        | true, .list items => some (Data.putField fs k (.list (items ++ [.record []])), made)
        | _, _ => none
  | k :: ks, fs, made =>
    match fs.find? (·.1 == k) with
    | none => do
      let (sub, made) ← openTable many ks [] (made ++ [k])
      return (fs ++ [(k, .record sub)], made)
    | some (_, .record sub) => do
      let (sub, made) ← openTable many ks sub made
      return (Data.putField fs k (.record sub), made)
    | some (_, .list items) =>
      match items.getLast? with
      | some (.record sub) => do
        let (sub, made) ← openTable many ks sub made
        return (Data.putField fs k (.list (items.dropLast ++ [.record sub])), made)
      | _ => none
    | some _ => none

/-- Changes the table at the end of a way; of an array of tables, the last one. -/
def inTable (f : Fields → Option Fields) : List String → Fields → Option Fields
  | [], fs => f fs
  | k :: ks, fs =>
    match fs.find? (·.1 == k) with
    | some (_, .record sub) => do return Data.putField fs k (.record (← inTable f ks sub))
    | some (_, .list items) =>
      match items.getLast? with
      | some (.record sub) => do
        return Data.putField fs k (.list (items.dropLast ++ [.record (← inTable f ks sub)]))
      | _ => none
    | _ => none

/-- A reading of a text so far: all fields, the way to the open table, and the tables made on the
way to others. -/
structure State where
  fields : Fields
  way : List String
  made : List String

/-- A heading whose opening brackets have been read. -/
def heading? (many : Bool) (st : State) (s : List Char) : Option (State × List Char) := do
  let (way, rest) ← key? (s.length + 1) s
  let rest ← Json.after? (if many then "]]" else "]") rest
  if way.contains "" then none
  let (fields, made) ← openTable many way st.fields st.made
  return (⟨fields, way, made⟩, rest)

def assignment? (st : State) (s : List Char) : Option (State × List Char) := do
  let (key, rest) ← key? (s.length + 1) s
  let rest ← Json.after? "=" rest
  let (v, rest) ← value? (rest.length + 1) (skip rest)
  let fields ← inTable (insertAt v key) st.way st.fields
  return ({ st with fields := fields }, rest)

/-- Headings and assignments, each on a line of its own. -/
def statements? : Nat → State → List Char → Option State
  | 0, _, _ => none
  | fuel + 1, st, s => do
    let next ← match skipLines (s.length + 1) s with
      | [] => return st
      | '[' :: '[' :: rest => heading? true st rest
      | '[' :: rest => heading? false st rest
      | s => assignment? st s
    let (st, rest) := next
    match skipComment (skip rest) with
    | [] => return st
    | '\n' :: rest => statements? fuel st rest
    | _ => none

/-- The record that a whole text stands for. -/
def read? (s : List Char) : Option Fields :=
  (statements? (s.length + 1) ⟨[], [], []⟩ s).map (·.fields)

end OutlineIndex.Toml
