import OutlineIndex.Source.Grammar.Pattern
import OutlineIndex.Source.Layout

namespace OutlineIndex.Source.Grammar

def names (ts : List Token) : Option (List Token) := do
  let left ← name ts
  let (_, left) ← chain (symbol ",") (fun ts => (name ts).map ((), ·)) left.length left
  return left

def aliased (ts : List Token) : Option (List Token) :=
  match word "as" ts with
  | some rest => name rest
  | none => some ts

def importNames (ts : List Token) : Option (List Token) := do
  let item (ts : List Token) : Option (Unit × List Token) := do return ((), ← aliased (← dotted ts))
  let (_, left) ← item ts
  let (_, left) ← chain (symbol ",") item left.length left
  return left

def isDots (t : Token) : Bool := t.isSymbol "." || t.isSymbol "..."

def importFrom (ts : List Token) : Option (List Token) := do
  let dots := ts.takeWhile isDots
  let rest := ts.drop dots.length
  let left ← if dots ≠ [] && nextWordIs "import" rest then some rest else dotted rest
  let left ← word "import" left
  let item (ts : List Token) : Option (Unit × List Token) := do return ((), ← aliased (← name ts))
  match symbol "*" left, symbol "(" left with
  | some rest, _ => return rest
  | _, some inner => do
    let (_, left) ← commas item inner.length inner
    symbol ")" left
  | none, none => do
    let ((_, trailing), left) ← commas item left.length left
    if trailing then none else return left

/-- The value of an assignment. -/
def assigned (r : Rules) (ts : List Token) : Option (Shape × List Token) :=
  if nextWordIs "yield" ts then r.yields ts else r.starList ts

/-- The rest of a chain of assignments after an equals sign. -/
def assignments (r : Rules) : Nat → List Token → Option (List Token)
  | 0, _ => none
  | n + 1, ts => do
    let (s, left) ← assigned r ts
    match symbol "=" left with
    | some rest => if s.target then assignments r n rest else none
    | none => return left

def augmented : List String :=
  ["+=", "-=", "*=", "@=", "/=", "%=", "&=", "|=", "^=", "<<=", ">>=", "**=", "//="]

def annotated (r : Rules) (ts : List Token) : Option (List Token) := do
  let (_, left) ← r.expression ts
  match symbol "=" left with
  | some rest => (assigned r rest).map (·.2)
  | none => return left

/-- An expression, or an assignment of any kind. -/
def expressionStatement (r : Rules) (ts : List Token) : Option (List Token) :=
  if nextWordIs "yield" ts then (r.yields ts).map (·.2)
  else do
    let (s, left) ← r.starList ts
    match symbol ":" left, symbol "=" left, operator augmented left with
    | some rest, _, _ => if s.single then annotated r rest else none
    | _, some rest, _ => if s.target then assignments r rest.length rest else none
    | _, _, some rest => if s.single then (assigned r rest).map (·.2) else none
    | none, none, none => return left

def ends (ts : List Token) : Bool := ts.isEmpty || nextIs ";" ts

def eraseTarget (r : Rules) (ts : List Token) : Option (Unit × List Token) := do
  let (s, left) ← r.primary ts
  if s.erasable then some ((), left) else none

def simple (r : Rules) (ts : List Token) : Option (List Token) :=
  match ts with
  | [] => none
  | t :: rest =>
    if t.kind != .word then expressionStatement r ts
    else match t.text with
      | "pass" | "break" | "continue" => some rest
      | "return" => if ends rest then some rest else (r.starList rest).map (·.2)
      | "raise" =>
        if ends rest then some rest
        else do
          let (_, left) ← r.expression rest
          match word "from" left with
          | some rest => (r.expression rest).map (·.2)
          | none => return left
      | "global" | "nonlocal" => names rest
      | "del" => (commas (eraseTarget r) rest.length rest).map (·.2)
      | "assert" => do
        let (_, left) ← r.expression rest
        match symbol "," left with
        | some rest => (r.expression rest).map (·.2)
        | none => return left
      | "import" => importNames rest
      | "from" => importFrom rest
      | _ => expressionStatement r ts

/-- Simple statements with semicolons between and perhaps one at the end. -/
def simples (r : Rules) : Nat → List Token → Bool
  | 0, _ => false
  | n + 1, ts =>
    match simple r ts with
    | none => false
    | some [] => true
    | some left =>
      match symbol ";" left with
      | some [] => true
      | some rest => simples r n rest
      | none => false

/-- What a line is in its block. -/
inductive Clause where
  | conditional
  | alternative
  | otherwise
  | loop
  | attempt
  | handler
  | groupHandler
  | cleanup
  | context
  | definition
  | decorator
  | selection
  | other
  deriving DecidableEq, Repr

def handlerRest (r : Rules) (ts : List Token) : Option (List Token) := do
  let (_, left) ← r.expression ts
  symbol ":" (← aliased left)

def contextItem (r : Rules) (ts : List Token) : Option (Unit × List Token) := do
  let (_, left) ← r.expression ts
  match word "as" left with
  | some rest => (r.starTarget rest).map fun (_, left) => ((), left)
  | none => return ((), left)

def contextRest (r : Rules) (ts : List Token) : Option (List Token) :=
  let inParens : Option (List Token) := do
    let inner ← symbol "(" ts
    let (_, left) ← commas (contextItem r) inner.length inner
    symbol ":" (← symbol ")" left)
  inParens.orElse fun _ => do
    let ((_, trailing), left) ← commas (contextItem r) ts.length ts
    if trailing then none else symbol ":" left

def loopRest (r : Rules) (ts : List Token) : Option (List Token) := do
  let left ← r.starTargets ts
  let (_, left) ← r.starList (← word "in" left)
  symbol ":" left

def functionRest (r : Rules) (ts : List Token) : Option (List Token) := do
  let left ← symbol "(" (← name ts)
  let left ← params r true ")" (left.length + 1) ⟨0, false, false, false⟩ left
  let left ← symbol ")" left
  let left ← match symbol "->" left with
    | some rest => (r.expression rest).map (·.2)
    | none => some left
  symbol ":" left

def classRest (r : Rules) (ts : List Token) : Option (List Token) := do
  let left ← name ts
  match symbol "(" left with
  | some inner => symbol ":" (← r.arguments false (inner.length + 1) 0 inner)
  | none => symbol ":" left

def testRest (r : Rules) (ts : List Token) : Option (List Token) := do
  let (_, left) ← r.named ts
  symbol ":" left

def subjectRest (r : Rules) (ts : List Token) : Option (List Token) := do
  let ((items, trailing), left) ← commas r.starNamed ts.length ts
  if items.length = 1 && !trailing && items.any (·.starred) then none else symbol ":" left

/-- What a line is, with the tokens after its colon. -/
def header (r : Rules) (hasBlock : Bool) (ts : List Token) : Option (Clause × List Token) :=
  match ts with
  | [] => none
  | t :: rest =>
    if t.isSymbol "@" then do
      let (_, left) ← r.named rest
      if left.isEmpty then some (.decorator, []) else none
    else if t.kind != .word then some (.other, ts)
    else match t.text with
      | "if" => (testRest r rest).map (.conditional, ·)
      | "elif" => (testRest r rest).map (.alternative, ·)
      | "else" => (symbol ":" rest).map (.otherwise, ·)
      | "while" => (testRest r rest).map (.loop, ·)
      | "for" => (loopRest r rest).map (.loop, ·)
      | "try" => (symbol ":" rest).map (.attempt, ·)
      | "finally" => (symbol ":" rest).map (.cleanup, ·)
      | "with" => (contextRest r rest).map (.context, ·)
      | "def" => (functionRest r rest).map (.definition, ·)
      | "class" => (classRest r rest).map (.definition, ·)
      | "except" =>
        match symbol ":" rest, symbol "*" rest with
        | some left, _ => some (.handler, left)
        | _, some inner => (handlerRest r inner).map (.groupHandler, ·)
        | none, none => (handlerRest r rest).map (.handler, ·)
      | "async" =>
        match word "def" rest, word "for" rest, word "with" rest with
        | some rest, _, _ => (functionRest r rest).map (.definition, ·)
        | _, some rest, _ => (loopRest r rest).map (.loop, ·)
        | _, _, some rest => (contextRest r rest).map (.context, ·)
        | none, none, none => none
      | "match" => if hasBlock then (subjectRest r rest).map (.selection, ·) else some (.other, ts)
      | _ => some (.other, ts)

/-- What the lines so far allow the next one to be. -/
inductive Expect where
  | anything
  | afterTest
  | afterLoop
  | afterAttempt
  | afterHandler
  | afterGroupHandler
  | afterElse
  | afterDecorator
  deriving DecidableEq, Repr

/-- Whether a statement may begin, or the block end, here. -/
def Expect.isOpen : Expect → Bool
  | .afterAttempt | .afterDecorator => false
  | _ => true

def Expect.after (e : Expect) : Clause → Option Expect
  | .conditional => if e.isOpen then some .afterTest else none
  | .alternative => if e = .afterTest then some .afterTest else none
  | .otherwise => match e with
    | .afterTest | .afterLoop => some .anything
    | .afterHandler | .afterGroupHandler => some .afterElse
    | _ => none
  | .loop => if e.isOpen then some .afterLoop else none
  | .attempt => if e.isOpen then some .afterAttempt else none
  | .handler => if e = .afterAttempt || e = .afterHandler then some .afterHandler else none
  | .groupHandler =>
    if e = .afterAttempt || e = .afterGroupHandler then some .afterGroupHandler else none
  | .cleanup => match e with
    | .afterAttempt | .afterHandler | .afterGroupHandler | .afterElse => some .anything
    | _ => none
  | .definition => if e.isOpen || e = .afterDecorator then some .anything else none
  | .decorator => if e.isOpen || e = .afterDecorator then some .afterDecorator else none
  | .context | .selection | .other => if e.isOpen then some .anything else none

/-- The tokens of a case clause after its colon. -/
def caseRest (r : Rules) (ts : List Token) : Option (List Token) := do
  let rest ← word "case" ts
  let left ← casePattern r (depthFor ts) rest
  match word "if" left with
  | some guard => testRest r guard
  | none => symbol ":" left

mutual

/-- Whether a line with its block may come where `e` is expected, and what may come after it. -/
def acceptTree (e : Expect) : Layout → Option Expect
  | .node line block =>
    let r := rules (depthFor line.tokens)
    match header r (!block.isEmpty) line.tokens with
    | none => none
    | some (clause, rest) =>
      match e.after clause with
      | none => none
      | some next =>
        let ok := match clause with
          | .other => block.isEmpty && simples r (rest.length + 1) rest
          | .decorator => block.isEmpty
          | .selection => rest.isEmpty && !block.isEmpty && acceptCases block
          | _ =>
            if rest.isEmpty then !block.isEmpty && acceptForest .anything block
            else block.isEmpty && simples r (rest.length + 1) rest
        if ok then some next else none

def acceptForest (e : Expect) : List Layout → Bool
  | [] => e.isOpen
  | t :: ts =>
    match acceptTree e t with
    | some next => acceptForest next ts
    | none => false

/-- Whether every line of a selection's block is a case clause. -/
def acceptCases : List Layout → Bool
  | [] => true
  | .node line block :: ts =>
    let r := rules (depthFor line.tokens)
    (match caseRest r line.tokens with
      | none => false
      | some rest =>
        if rest.isEmpty then !block.isEmpty && acceptForest .anything block
        else block.isEmpty && simples r (rest.length + 1) rest) && acceptCases ts

end

/-- The most blocks inside one another. -/
def maxBlocks : Nat := 99

mutual

/-- Lines of one block have one margin, and a deeper margin is deeper by either measure of a tab. -/
def alignedTree (depth : Nat) (m : Margin) : Layout → Bool
  | .node line block =>
    line.margin.stops = m.stops && line.margin.ones = m.ones &&
      match block with
      | [] => true
      | .node first below :: ts =>
        depth < maxBlocks && m.stops < first.margin.stops && m.ones < first.margin.ones &&
          alignedTree (depth + 1) first.margin (.node first below) &&
          alignedForest (depth + 1) first.margin ts

def alignedForest (depth : Nat) (m : Margin) : List Layout → Bool
  | [] => true
  | t :: ts => alignedTree depth m t && alignedForest depth m ts

end

mutual

def lexedTree : Layout → Bool
  | .node line block => line.tokens.all (·.kind != .invalid) && lexedForest block

def lexedForest : List Layout → Bool
  | [] => true
  | t :: ts => lexedTree t && lexedForest ts

end

/-- Whether a forest of lines, strictly read, is a program. -/
def accepts (forest : List Layout) : Bool :=
  lexedForest forest && alignedForest 0 ⟨0, 0, 0⟩ forest && acceptForest .anything forest

end OutlineIndex.Source.Grammar
