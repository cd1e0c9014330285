import OutlineIndex.Source.Grammar.Statement
import OutlineIndex.Source.Program
import OutlineIndex.Source.Tree

namespace OutlineIndex.Source

/-- A dotted name in an import list. -/
structure Listed where
  name : List Token
  aliased : Bool
  deriving Repr

/-- An import as it is written. -/
inductive Import where
  | modules (names : List Listed)
  | members (dots module : List Token) (names : List Listed)
  deriving Repr

/-- A statement by its lines. A definition holds the lines of its decorators, and its own with the block
below. -/
inductive Sentence where
  | definition (kind : DefinitionKind) (name : Token) (decorators : List Line) (layout : Layout)
      (body : List Sentence)
  | imports (i : Import)
  | compound (inner : List Sentence)
  deriving Repr

namespace Sentence

def splitTokens (isSep : Token → Bool) : List Token → List (List Token)
  | [] => [[]]
  | t :: rest =>
    match splitTokens isSep rest with
    | [] => [[t]]
    | l :: ls => if isSep t then [] :: l :: ls else (t :: l) :: ls

/-- The names of an import list, with their aliases cut off. -/
def listed (ts : List Token) : List Listed :=
  let bare := ts.filter fun t => !(t.isSymbol "(" || t.isSymbol ")")
  ((splitTokens (·.isSymbol ",") bare).map fun part =>
    ⟨part.takeWhile (!·.isWord "as"), part.any (·.isWord "as")⟩).filter (!·.name.isEmpty)

/-- The import that a simple statement is. -/
def import? : List Token → Option Import
  | [] => none
  | t :: rest =>
    if t.isWord "import" then some (.modules (listed rest))
    else if t.isWord "from" then
      let dots := rest.takeWhile Grammar.isDots
      let after := rest.drop dots.length
      some (.members dots (after.takeWhile (!·.isWord "import"))
        (listed ((after.dropWhile (!·.isWord "import")).drop 1)))
    else none

/-- What follows the colon of a header, past the colons inside brackets and of lambdas. -/
def afterColon : Nat → Nat → List Token → List Token
  | _, _, [] => []
  | depth, lambdas, t :: ts =>
    if t.isSymbol "(" || t.isSymbol "[" || t.isSymbol "\x7b" then afterColon (depth + 1) lambdas ts
    else if t.isSymbol ")" || t.isSymbol "]" || t.isSymbol "\x7d" then
      afterColon (depth - 1) lambdas ts
    else if depth = 0 && t.isWord "lambda" then afterColon depth (lambdas + 1) ts
    else if depth = 0 && t.isSymbol ":" then
      if lambdas = 0 then ts else afterColon depth (lambdas - 1) ts
    else afterColon depth lambdas ts

def openers : List String :=
  ["if", "elif", "else", "while", "for", "try", "except", "finally", "with", "def", "class", "async"]

def headWord (l : Line) : String :=
  match l.tokens with
  | t :: _ => if t.kind == .word then t.text else ""
  | [] => ""

/-- Whether simple statements on the line stand behind a header. -/
def isHeader (inSelection : Bool) (l : Line) : Bool :=
  openers.contains (headWord l) || (inSelection && headWord l == "case")

/-- The imports on a line, behind its header if it has one. -/
def lineImports (inSelection : Bool) (l : Line) : List Sentence :=
  let simples := if isHeader inSelection l then afterColon 0 0 l.tokens else l.tokens
  ((splitTokens (·.isSymbol ";") simples).filterMap import?).map imports

/-- Kind and name of the definition that a line heads. -/
def defined? (l : Line) : Option (DefinitionKind × Token) :=
  let ts := match l.tokens with
    | t :: rest => if t.isWord "async" then rest else l.tokens
    | [] => []
  match ts with
  | t :: n :: _ =>
    if n.kind != .word then none
    else if t.isWord "def" then some (.function, n)
    else if t.isWord "class" then some (.classDef, n)
    else none
  | _ => none

def isDecorator (l : Line) : Bool := (l.tokens.head?.map (·.isSymbol "@")).getD false

/-- How many statements deeper than other clauses the body of a clause is, after some `elif` clauses: each
of these is a statement inside the one before, and a handler holds its own body. -/
def clauseDepth (elifs : Nat) (word : String) : Nat :=
  if word = "elif" then elifs + 1
  else if word = "else" then elifs
  else if word = "except" then 1
  else 0

/-- The body of a clause, so many statements deeper than usual. -/
def clause : Nat → List Sentence → Sentence
  | 0, body => compound body
  | n + 1, body => compound [clause n body]

mutual

def ofTree (inSelection : Bool) (elifs : Nat) (decorators : List Line) : Layout → List Sentence
  | .node line block =>
    let here := lineImports inSelection line
    let below := ofForest (headWord line == "match") 0 [] block
    match defined? line with
    | some (kind, name) => [definition kind name decorators (.node line block) (here ++ below)]
    | none =>
      if isHeader inSelection line then [clause (clauseDepth elifs (headWord line)) (here ++ below)]
      else here ++ if below.isEmpty then [] else [compound below]

/-- The statements of a block, with the `elif` clauses and the decorators just read. -/
def ofForest (inSelection : Bool) (elifs : Nat) (decorators : List Line) : List Layout → List Sentence
  | [] => []
  | t :: ts =>
    if isDecorator t.line then ofForest inSelection 0 (decorators ++ [t.line]) ts
    else
      ofTree inSelection elifs decorators t ++
        ofForest inSelection (if headWord t.line = "elif" then elifs + 1 else 0) [] ts

end

/-- Where a definition ends: strictly, with its last token; tolerantly, with a comment on its last
line or below it that is indented at least as its block. -/
def stopOf (d : Dialect) (t : Layout) : Mark :=
  let last := t.lastLine
  match d with
  | .strict => last.codeStop
  | .tolerant =>
    let inner : List Comment := match t.block.getLast? with
      | none => []
      | some final => last.after.takeWhile fun c => final.line.margin.eights ≤ c.margin.eights
    match inner.getLast? with
    | some c => c.stop
    | none => last.remark.getD last.codeStop

/-- Where the expression of a decorator starts. -/
def expressionOf (l : Line) : Mark :=
  (Grammar.decoratorStart? l.tokens.tail).getD ⟨l.start.line, l.start.column + 1⟩

end Sentence

def levelOf (dots : List Token) : Nat := dots.foldl (fun n t => n + t.text.length) 0

/-- A dotted name, with the normal forms of its parts joined. -/
def dotted (normal : String → String) (ts : List Token) : String :=
  ts.foldl (fun s t => s ++ normal t.text) ""

def Import.statement (normal : String → String) : Import → Program.Statement
  | .modules names => .imports (names.map fun n => dotted normal n.name)
  | .members dots module names =>
    .importsFrom (if module.isEmpty then none else some (dotted normal module)) (levelOf dots)
      (names.map fun n => dotted normal n.name)

/-- A node for some tokens. -/
def Tree.ofTokens (kind : Tree.Kind) (role : Option Tree.Role) (ts : List Token) (children : List Tree) : Tree :=
  .node kind role ((ts.head?.map Token.start).getD ⟨0, 0⟩) ((ts.getLast?.map Token.stop).getD ⟨0, 0⟩)
    (Token.spelling ts) children

def Listed.tree (n : Listed) : Tree :=
  if n.aliased then .ofTokens .aliasedImport (some .name) n.name [.ofTokens .dottedName (some .name) n.name []]
  else .ofTokens .dottedName (some .name) n.name []

/-- A list of names that starts with a star. -/
def Import.isStar (names : List Listed) : Bool :=
  ((names.head?.bind fun n => n.name.head?).map (·.isSymbol "*")).getD false

/-- The node of the module that names are taken from. -/
def Import.sourceTree (dots module : List Token) : Tree :=
  if dots.isEmpty then .ofTokens .dottedName (some .moduleName) module []
  else .ofTokens .relativeImport (some .moduleName) (dots ++ module)
    (.node .importPrefix none ⟨0, 0⟩ ⟨0, 0⟩ (String.join (dots.map Token.text)) [] ::
      if module.isEmpty then [] else [.ofTokens .dottedName none module []])

/-- The node of an import. The language's own pseudo-module is imported by a statement of another kind, and
a star is no name. -/
def Import.tree : Import → Tree
  | .modules names => .node .importStatement none ⟨0, 0⟩ ⟨0, 0⟩ "" (names.map Listed.tree)
  | .members dots module names =>
    if dots.isEmpty && Token.spelling module = "__future__" then .node .other none ⟨0, 0⟩ ⟨0, 0⟩ "" []
    else
      .node .importFromStatement none ⟨0, 0⟩ ⟨0, 0⟩ ""
        (sourceTree dots module :: if isStar names then [] else names.map Listed.tree)

namespace Sentence

mutual

def statement (normal : String → String) : Sentence → Program.Statement
  | .definition kind name decorators layout body =>
    .definition kind (normal name.text) (decorators.map expressionOf) layout.line.start (stopOf .strict layout)
      (statements normal body)
  | .imports i => i.statement normal
  | .compound inner => .compound (statements normal inner)

def statements (normal : String → String) : List Sentence → List Program.Statement
  | [] => []
  | s :: ss => statement normal s :: statements normal ss

end

def definitionKind : DefinitionKind → Tree.Kind
  | .classDef => .classDefinition
  | .function => .functionDefinition

mutual

def tree : Sentence → Tree
  | .definition kind name decorators layout body =>
    let bare (role : Option Tree.Role) : Tree :=
      .node (definitionKind kind) role layout.line.start (stopOf .tolerant layout) ""
        [.ofTokens .other (some .name) [name] [],
          .node .other (some .body) layout.line.start (stopOf .tolerant layout) "" (trees body)]
    match decorators with
    | [] => bare none
    | l :: _ =>
      .node .decoratedDefinition none l.start (stopOf .tolerant layout) "" [bare (some .definition)]
  | .imports i => i.tree
  | .compound inner => .node .other none ⟨0, 0⟩ ⟨0, 0⟩ "" (trees inner)

def trees : List Sentence → List Tree
  | [] => []
  | s :: ss => tree s :: trees ss

end

end Sentence

end OutlineIndex.Source
