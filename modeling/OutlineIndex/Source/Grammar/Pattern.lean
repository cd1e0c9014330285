import OutlineIndex.Source.Grammar.Expression

namespace OutlineIndex.Source.Grammar

def isImaginary (t : Token) : Bool :=
  match t.text.toList.getLast? with
  | some c => c == 'j' || c == 'J'
  | none => false

/-- A number with an optional minus, or a real one plus or minus an imaginary one. -/
def numberPattern (ts : List Token) : Option (List Token) :=
  match (symbol "-" ts).getD ts with
  | t :: rest =>
    if t.kind != .number then none
    else if nextIs "+" rest || nextIs "-" rest then
      match rest.tail with
      | u :: left => if u.kind == .number && isImaginary u && !isImaginary t then some left else none
      | [] => none
    else some rest
  | [] => none

/-- Numbers, strings and the three constants. -/
def literalPattern (r : Rules) (ts : List Token) : Option (List Token) :=
  match ts with
  | [] => none
  | t :: rest =>
    match t.kind with
    | .number => numberPattern ts
    | .quoted => r.literals ts
    | .word => if t.text == "None" || t.text == "True" || t.text == "False" then some rest else none
    | .symbol => if t.text == "-" then numberPattern ts else none
    | .invalid => none

/-- A name to bind, which is not the wildcard. -/
def captureName (ts : List Token) : Option (List Token) :=
  if nextWordIs "_" ts then none
  else do
    let rest ← name ts
    if nextIs "." rest || nextIs "(" rest || nextIs "=" rest then none else return rest

/-- A name to bind or the wildcard, after a star. -/
def starPattern (ts : List Token) : Option (List Token) := do
  let rest ← symbol "*" ts
  (captureName rest).orElse fun _ => word "_" rest

structure PatternRules where
  pattern : List Token → Option (List Token)

namespace PatternRules

def itemOf (p : PatternRules) (ts : List Token) : Option (Unit × List Token) :=
  ((starPattern ts).orElse fun _ => p.pattern ts).map ((), ·)

/-- Patterns with commas between, each possibly starred; the flag tells of any comma. -/
def sequence (p : PatternRules) (ts : List Token) : Option (Bool × List Token) :=
  (commas p.itemOf ts.length ts).map fun ((items, trailing), left) =>
    (trailing || items.length ≠ 1, left)

/-- What follows an opening parenthesis. -/
def group (p : PatternRules) (ts : List Token) : Option (List Token) :=
  match symbol ")" ts with
  | some rest => some rest
  | none => do
    let (comma, left) ← p.sequence ts
    if comma || !nextIs "*" ts then symbol ")" left else none

def list (p : PatternRules) (ts : List Token) : Option (List Token) :=
  match symbol "]" ts with
  | some rest => some rest
  | none => do symbol "]" (← p.sequence ts).2

/-- A key with its pattern, or the name for the rest; the flag marks the latter. -/
def entry (r : Rules) (p : PatternRules) (ts : List Token) : Option (Bool × List Token) :=
  match symbol "**" ts with
  | some rest => (captureName rest).map (true, ·)
  | none => do
    let left ← (literalPattern r ts).orElse fun _ => do
      let left ← dotted ts
      if ts.length = left.length + 1 then none else some left
    return (false, ← p.pattern (← symbol ":" left))

def mapping (r : Rules) (p : PatternRules) (ts : List Token) : Option (List Token) :=
  match symbol "\x7d" ts with
  | some rest => some rest
  | none => do
    let ((entries, _), left) ← commas (p.entry r) ts.length ts
    if entries.dropLast.any id then none else symbol "\x7d" left

/-- A pattern of a class's arguments; the flag marks a keyword. -/
def argument (p : PatternRules) (ts : List Token) : Option (Bool × List Token) :=
  match ts with
  | a :: b :: rest =>
    if isName a && b.isSymbol "=" then (p.pattern rest).map (true, ·)
    else (p.pattern ts).map (false, ·)
  | _ => (p.pattern ts).map (false, ·)

/-- The arguments of a class pattern up to the closing parenthesis, positional ones first. -/
def classArguments (p : PatternRules) (ts : List Token) : Option (List Token) :=
  match symbol ")" ts with
  | some rest => some rest
  | none => do
    let ((args, _), left) ← commas p.argument ts.length ts
    if (args.dropWhile (!·)).all id then symbol ")" left else none

def closed (r : Rules) (p : PatternRules) (ts : List Token) : Option (List Token) :=
  match ts with
  | [] => none
  | t :: rest =>
    if t.isSymbol "(" then p.group rest
    else if t.isSymbol "[" then p.list rest
    else if t.isSymbol "\x7b" then p.mapping r rest
    else if isName t then
      match dotted ts with
      | some left =>
        match symbol "(" left with
        | some inner => p.classArguments inner
        | none => if nextIs "=" left then none else some left
      | none => none
    else literalPattern r ts

/-- Alternatives, with an optional name for the whole. -/
def whole (r : Rules) (p : PatternRules) (ts : List Token) : Option (List Token) := do
  let left ← closed r p ts
  let (_, left) ← chain (symbol "|") (fun ts => (closed r p ts).map ((), ·)) left.length left
  match word "as" left with
  | some rest => captureName rest
  | none => return left

end PatternRules

def patternRules (r : Rules) : Nat → PatternRules
  | 0 => ⟨fun _ => none⟩
  | n + 1 => ⟨PatternRules.whole r (patternRules r n)⟩

/-- The pattern of a case clause, which may be a sequence without brackets. -/
def casePattern (r : Rules) (depth : Nat) (ts : List Token) : Option (List Token) := do
  let (comma, left) ← (patternRules r depth).sequence ts
  if comma || !nextIs "*" ts then some left else none

end OutlineIndex.Source.Grammar
