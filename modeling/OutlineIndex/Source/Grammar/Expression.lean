import OutlineIndex.Source.Grammar.Basic
import OutlineIndex.Source.Grammar.Literal
import OutlineIndex.Source.Lexer

namespace OutlineIndex.Source.Grammar

/-- The rules that others refer back to. -/
structure Rules where
  factor : Parser Shape
  inversion : Parser Shape
  primary : Parser Shape
  bitOr : Parser Shape
  disjunction : Parser Shape
  expression : Parser Shape
  named : Parser Shape
  starList : Parser Shape

namespace Rules

/-- A starred operand, or a named expression. -/
def starNamed (r : Rules) (ts : List Token) : Option (Shape × List Token) :=
  match symbol "*" ts with
  | some rest => do
    let (s, left) ← r.bitOr rest
    return (.star (markOf ts) s, left)
  | none => r.named ts

/-- What may stand left of an assignment or after `for`, one piece. -/
def starTarget (r : Rules) (ts : List Token) : Option (Shape × List Token) := do
  let (s, left) ← match symbol "*" ts with
    | some rest => do
      let (s, left) ← r.primary rest
      pure (Shape.star (markOf ts) s, left)
    | none => r.primary ts
  if s.target then some (s, left) else none

def starTargets (r : Rules) (ts : List Token) : Option (List Token) :=
  (commas r.starTarget ts.length ts).map (·.2)

def yields (r : Rules) (ts : List Token) : Option (Shape × List Token) := do
  let rest ← word "yield" ts
  match word "from" rest with
  | some rest => do
    let (_, left) ← r.expression rest
    return (.plain (markOf ts), left)
  | none =>
    match r.starList rest with
    | some (_, left) => return (.plain (markOf ts), left)
    | none => return (.plain (markOf ts), rest)

def startsClause (ts : List Token) : Bool :=
  nextWordIs "for" ts || (nextWordIs "async" ts && nextWordIs "for" ts.tail)

/-- The clauses of a comprehension. -/
def clauses (r : Rules) : Nat → List Token → Option (List Token)
  | 0, _ => none
  | n + 1, ts => do
    let ts := (word "async" ts).getD ts
    let ts ← word "for" ts
    let ts ← r.starTargets ts
    let ts ← word "in" ts
    let (_, ts) ← r.disjunction ts
    let (_, ts) ← chain (word "if") r.disjunction ts.length ts
    if startsClause ts then clauses r n ts else return ts

/-- The arguments of a call up to its closing parenthesis. Once a keyword argument has come, only
keyword and unpacked arguments follow; once a mapping is unpacked, no sequence is. -/
def arguments (r : Rules) (generator : Bool) : Nat → Nat → List Token → Option (List Token)
  | 0, _, _ => none
  | n + 1, phase, ts =>
    match symbol ")" ts with
    | some rest => some rest
    | none => do
      let (phase, positional, ts) ← match ts with
        | a :: b :: rest =>
          if a.isSymbol "*" then
            if phase ≤ 1 then (r.expression (b :: rest)).map fun (_, left) => (phase, false, left)
            else none
          else if a.isSymbol "**" then
            (r.expression (b :: rest)).map fun (_, left) => (2, false, left)
          else if isName a && b.isSymbol "=" then
            (r.expression rest).map fun (_, left) => (max phase 1, false, left)
          else if phase = 0 then (r.named ts).map fun (_, left) => (0, true, left)
          else none
        | _ => none
      if generator && positional && startsClause ts then
        symbol ")" (← clauses r ts.length ts)
      else match symbol "," ts with
        | some rest => arguments r false n phase rest
        | none => symbol ")" ts

def slice (r : Rules) (ts : List Token) : Option (Unit × List Token) :=
  let upper (ts : List Token) : Option (List Token) :=
    if nextIs ":" ts || nextIs "," ts || nextIs "]" ts then some ts
    else (r.expression ts).map (·.2)
  let bounds (ts : List Token) : Option (Unit × List Token) := do
    let ts ← upper ts
    match symbol ":" ts with
    | some rest => return ((), ← upper rest)
    | none => return ((), ts)
  match symbol "*" ts, symbol ":" ts with
  | some rest, _ => (r.expression rest).map fun (_, left) => ((), left)
  | none, some rest => bounds rest
  | none, none => do
    let (s, left) ← r.named ts
    match symbol ":" left with
    | some rest => if s.walrus then none else bounds rest
    | none => return ((), left)

/-- Attributes, calls and items after an atom that starts at `first`. -/
def trailers (r : Rules) (first : Mark) : Nat → Shape → List Token → Option (Shape × List Token)
  | 0, s, ts => some (s, ts)
  | n + 1, s, ts =>
    match symbol "." ts, symbol "(" ts, symbol "[" ts with
    | some rest, _, _ => do trailers r first n (.place first) (← name rest)
    | _, some rest, _ => do trailers r first n (.plain first) (← arguments r true (rest.length + 1) 0 rest)
    | _, _, some rest => do
      let (_, left) ← commas r.slice rest.length rest
      trailers r first n (.place first) (← symbol "]" left)
    | none, none, none => some (s, ts)

/-- What follows an opening parenthesis at `first`: a group keeps the shape of what it holds. -/
def parenthesised (r : Rules) (first : Mark) (ts : List Token) : Option (Shape × List Token) :=
  match symbol ")" ts with
  | some rest => some (.sequence first [], rest)
  | none =>
    if nextWordIs "yield" ts then do
      let (s, left) ← r.yields ts
      return (s, ← symbol ")" left)
    else do
      let (s, left) ← r.starNamed ts
      if startsClause left then
        if s.starred then none
        else return (.plain first, ← symbol ")" (← clauses r left.length left))
      else match symbol "," left with
        | some rest =>
          match commas r.starNamed rest.length rest with
          | some ((more, _), left) => return (.sequence first (s :: more), ← symbol ")" left)
          | none => return (.sequence first [s], ← symbol ")" rest)
        | none => if s.starred then none else return ({ s with walrus := false }, ← symbol ")" left)

def bracketed (r : Rules) (first : Mark) (ts : List Token) : Option (Shape × List Token) :=
  match symbol "]" ts with
  | some rest => some (.sequence first [], rest)
  | none => do
    let ((items, trailing), left) ← commas r.starNamed ts.length ts
    if startsClause left then
      if items.length = 1 && !trailing && items.all (!·.starred) then
        return (.plain first, ← symbol "]" (← clauses r left.length left))
      else none
    else return (.sequence first items, ← symbol "]" left)

/-- A key with its value, or a mapping to unpack. -/
def pair (r : Rules) (ts : List Token) : Option (Bool × List Token) :=
  match symbol "**" ts with
  | some rest => (r.bitOr rest).map fun (_, left) => (true, left)
  | none => do
    let (_, left) ← r.expression ts
    let (_, left) ← r.expression (← symbol ":" left)
    return (false, left)

def braced (r : Rules) (first : Mark) (ts : List Token) : Option (Shape × List Token) :=
  let close (left : List Token) : Option (Shape × List Token) := do
    return (.plain first, ← symbol "\x7d" left)
  /- The rest of a mapping after its first entry. -/
  let mapping (unpacked : Bool) (left : List Token) : Option (Shape × List Token) :=
    if startsClause left then
      if unpacked then none else do close (← clauses r left.length left)
    else match symbol "," left with
      | some rest =>
        match commas r.pair rest.length rest with
        | some (_, left) => close left
        | none => close rest
      | none => close left
  if nextIs "\x7d" ts then close ts
  else if nextIs "**" ts then do
    let (_, left) ← r.pair ts
    mapping true left
  else do
    let (s, left) ← r.starNamed ts
    match symbol ":" left with
    | some rest =>
      if s.starred || s.walrus then none
      else do
        let (_, left) ← r.expression rest
        mapping false left
    | none =>
      if startsClause left then
        if s.starred then none else close (← clauses r left.length left)
      else match symbol "," left with
        | some rest =>
          match commas r.starNamed rest.length rest with
          | some (_, left) => close left
          | none => close rest
        | none => close left

/-- Whether an expression inside a formatted literal is one. -/
def formattedOk (r : Rules) (e : List Char) : Bool :=
  let lexed := items .strict ('(' :: e ++ [')'])
  let tokens := lexed.filterMap fun
    | .token t => some t
    | _ => none
  tokens.all (·.kind != .invalid) && ((r.starList tokens).map (·.2.isEmpty)).getD false

/-- Adjacent string literals. -/
def literals (r : Rules) (ts : List Token) : Option (List Token) :=
  let quoted := ts.takeWhile (·.kind == .quoted)
  let ls := quoted.map fun t => Literal.ofText t.text.toList
  if Literal.agree ls && ls.all (fun l => (l.check.map (·.all r.formattedOk)).getD false) then
    some (ts.drop quoted.length)
  else none

def atom (r : Rules) (ts : List Token) : Option (Shape × List Token) :=
  match ts with
  | [] => none
  | t :: rest =>
    match t.kind with
    | .word =>
      if isName t then some (.place t.start, rest)
      else if t.text == "None" || t.text == "True" || t.text == "False" then some (.plain t.start, rest)
      else none
    | .number => some (.plain t.start, rest)
    | .quoted => (literals r ts).map fun left => (.plain t.start, left)
    | .symbol =>
      if t.text == "(" then parenthesised r t.start rest
      else if t.text == "[" then bracketed r t.start rest
      else if t.text == "\x7b" then braced r t.start rest
      else if t.text == "..." then some (.plain t.start, rest)
      else none
    | .invalid => none

end Rules

def primaryRule (r : Rules) (ts : List Token) : Option (Shape × List Token) := do
  let (s, left) ← r.atom ts
  r.trailers (markOf ts) left.length s left

def factorRule (r : Rules) (ts : List Token) : Option (Shape × List Token) :=
  match ts with
  | [] => none
  | t :: rest =>
    if t.isSymbol "+" || t.isSymbol "-" || t.isSymbol "~" then
      (r.factor rest).map fun (_, left) => (.plain t.start, left)
    else if t.isWord "await" then (primaryRule r rest).map fun (_, left) => (.plain t.start, left)
    else primaryRule r ts

def arithmetic : List String := ["|", "^", "&", "<<", ">>", "+", "-", "*", "/", "//", "%", "@", "**"]

def operator (ops : List String) : List Token → Option (List Token)
  | t :: rest => if t.kind == .symbol && ops.contains t.text then some rest else none
  | [] => none

/-- An operand followed by operators and operands; alone it keeps its shape. -/
def operation (op : List Token → Option (List Token)) (item : Parser Shape) (ts : List Token) :
    Option (Shape × List Token) := do
  let (s, left) ← item ts
  let (k, left) ← chain op item left.length left
  return (if k = 0 then s else .plain (markOf ts), left)

def bitOrRule (r : Rules) : Parser Shape := operation (operator arithmetic) (factorRule r)

def comparison (ts : List Token) : Option (List Token) :=
  match operator ["==", "!=", "<=", "<", ">=", ">"] ts with
  | some rest => some rest
  | none =>
    match word "in" ts, word "is" ts, word "not" ts with
    | some rest, _, _ => some rest
    | _, some rest, _ => some ((word "not" rest).getD rest)
    | _, _, some rest => word "in" rest
    | none, none, none => none

def inversionRule (r : Rules) (ts : List Token) : Option (Shape × List Token) :=
  match word "not" ts with
  | some rest => (r.inversion rest).map fun (_, left) => (.plain (markOf ts), left)
  | none => operation comparison (bitOrRule r) ts

def connective (ts : List Token) : Option (List Token) := (word "and" ts).orElse fun _ => word "or" ts

def disjunctionRule (r : Rules) : Parser Shape := operation connective (inversionRule r)

/-- Where a list of parameters stands. -/
structure Params where
  count : Nat
  defaulted : Bool
  slash : Bool
  star : Bool

/-- Parameters up to, and without, the closing symbol. -/
def params (r : Rules) (annotated : Bool) (close : String) :
    Nat → Params → List Token → Option (List Token)
  | 0, _, _ => none
  | n + 1, p, ts =>
    if nextIs close ts then some ts
    else
      let next (p : Params) (ts : List Token) : Option (List Token) :=
        match symbol "," ts with
        | some rest => params r annotated close n p rest
        | none => if nextIs close ts then some ts else none
      let annotation (starred : Bool) (ts : List Token) : Option (List Token) :=
        match symbol ":" ts with
        | some rest =>
          if !annotated then some ts
          else match symbol "*" rest with
            | some more => if starred then (r.bitOr more).map (·.2) else none
            | none => (r.expression rest).map (·.2)
        | none => some ts
      match symbol "/" ts, symbol "**" ts, symbol "*" ts with
      | some rest, _, _ =>
        if p.slash || p.star || p.count = 0 then none else next { p with slash := true } rest
      | _, some rest, _ => do
        let left ← annotation false (← name rest)
        let left := (symbol "," left).getD left
        if nextIs close left then some left else none
      | _, _, some rest =>
        if p.star then none
        else match symbol "," rest with
          | some more =>
            if (name more).isSome then params r annotated close n { p with star := true } more
            else none
          | none => do next { p with star := true } (← annotation true (← name rest))
      | none, none, none => do
        let left ← annotation false (← name ts)
        match symbol "=" left with
        | some rest => do
          let (_, left) ← r.expression rest
          next { p with count := p.count + 1, defaulted := p.defaulted || !p.star } left
        | none =>
          if p.defaulted && !p.star then none else next { p with count := p.count + 1 } left

def expressionRule (r : Rules) (ts : List Token) : Option (Shape × List Token) :=
  match word "lambda" ts with
  | some rest => do
    let left ← params r false ":" (rest.length + 1) ⟨0, false, false, false⟩ rest
    let (_, left) ← r.expression (← symbol ":" left)
    return (.plain (markOf ts), left)
  | none => do
    let (s, left) ← disjunctionRule r ts
    match word "if" left with
    | some rest => do
      let (_, left) ← disjunctionRule r rest
      let (_, left) ← r.expression (← word "else" left)
      return (.plain (markOf ts), left)
    | none => return (s, left)

def namedRule (r : Rules) (ts : List Token) : Option (Shape × List Token) :=
  match ts with
  | a :: b :: rest =>
    if isName a && b.isSymbol ":=" then
      (r.expression rest).map fun (_, left) => ({ Shape.plain a.start with walrus := true }, left)
    else expressionRule r ts
  | _ => expressionRule r ts

def starExpression (r : Rules) (ts : List Token) : Option (Shape × List Token) :=
  match symbol "*" ts with
  | some rest => (bitOrRule r rest).map fun (s, left) => (.star (markOf ts) s, left)
  | none => expressionRule r ts

/-- Expressions with commas between, which make a sequence if there is a comma. -/
def starListRule (r : Rules) (ts : List Token) : Option (Shape × List Token) := do
  let ((items, trailing), left) ← commas (starExpression r) ts.length ts
  match items, trailing with
  | [s], false => return (s, left)
  | _, _ => return (.sequence (markOf ts) items, left)

def rules : Nat → Rules
  | 0 => ⟨fun _ => none, fun _ => none, fun _ => none, fun _ => none, fun _ => none, fun _ => none,
      fun _ => none, fun _ => none⟩
  | n + 1 =>
    let r := rules n
    ⟨factorRule r, inversionRule r, primaryRule r, bitOrRule r, disjunctionRule r,
      expressionRule r, namedRule r, starListRule r⟩

/-- A depth that suffices for these tokens. -/
def depthFor (ts : List Token) : Nat := ts.foldl (fun n t => n + t.text.length + 1) 8

/-- Where a decorator's expression starts, given the tokens after its mark. -/
def decoratorStart? (ts : List Token) : Option Mark :=
  ((rules (depthFor ts)).named ts).map (·.1.start)

end OutlineIndex.Source.Grammar
