import OutlineIndex.Source.Token

namespace OutlineIndex.Source.Grammar

abbrev Parser (α : Type) := List Token → Option (α × List Token)

/-- What can be done with an expression, and where it starts. -/
structure Shape where
  start : Mark
  /-- It may be assigned to. -/
  target : Bool
  /-- It may be assigned to together with an operator or an annotation. -/
  single : Bool
  /-- It may be deleted. -/
  erasable : Bool
  starred : Bool
  /-- It binds a name on the way. -/
  walrus : Bool
  deriving DecidableEq, Repr

namespace Shape

def plain (start : Mark) : Shape := ⟨start, false, false, false, false, false⟩

/-- A name, an attribute or an item. -/
def place (start : Mark) : Shape := ⟨start, true, true, true, false, false⟩

def star (start : Mark) (s : Shape) : Shape := { plain start with target := s.target && !s.starred, starred := true }

/-- A sequence written with brackets or commas. -/
def sequence (start : Mark) (items : List Shape) : Shape :=
  { plain start with target := items.all (·.target), erasable := items.all (·.erasable) }

end Shape

def keywords : List String :=
  ["False", "None", "True", "and", "as", "assert", "async", "await", "break", "class", "continue",
    "def", "del", "elif", "else", "except", "finally", "for", "from", "global", "if", "import",
    "in", "is", "lambda", "nonlocal", "not", "or", "pass", "raise", "return", "try", "while",
    "with", "yield"]

def isName (t : Token) : Bool := t.kind == .word && !keywords.contains t.text

def symbol (s : String) : List Token → Option (List Token)
  | t :: rest => if t.isSymbol s then some rest else none
  | [] => none

def word (w : String) : List Token → Option (List Token)
  | t :: rest => if t.isWord w then some rest else none
  | [] => none

def name : List Token → Option (List Token)
  | t :: rest => if isName t then some rest else none
  | [] => none

def nextIs (s : String) (ts : List Token) : Bool := (symbol s ts).isSome

def nextWordIs (w : String) (ts : List Token) : Bool := (word w ts).isSome

def markOf (ts : List Token) : Mark := (ts.head?.map Token.start).getD ⟨0, 0⟩

/-- At least one item, with commas between; the flag tells of a comma at the end. -/
def commas {α : Type} (item : Parser α) : Nat → Parser (List α × Bool)
  | 0, _ => none
  | n + 1, ts => do
    let (a, ts) ← item ts
    match symbol "," ts with
    | none => return (([a], false), ts)
    | some rest =>
      match commas item n rest with
      | some ((as, trailing), left) => return ((a :: as, trailing), left)
      | none => return (([a], true), rest)

/-- Operators, each with an item after it; the answer counts them. -/
def chain {α : Type} (operator : List Token → Option (List Token)) (item : Parser α) :
    Nat → Parser Nat
  | 0, ts => some (0, ts)
  | n + 1, ts =>
    match operator ts with
    | none => some (0, ts)
    | some rest => do
      let (_, rest) ← item rest
      let (k, left) ← chain operator item n rest
      return (k + 1, left)

/-- Dotted names. -/
def dotted (ts : List Token) : Option (List Token) := do
  let rest ← name ts
  let (_, left) ← chain (symbol ".") (fun ts => (name ts).map ((), ·)) rest.length rest
  return left

end OutlineIndex.Source.Grammar
