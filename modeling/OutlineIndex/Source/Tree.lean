import OutlineIndex.Source.Outline

namespace OutlineIndex.Source

/-- The kinds of grammar nodes that are told apart. -/
inductive Tree.Kind where
  | functionDefinition
  | classDefinition
  | decoratedDefinition
  | importStatement
  | importFromStatement
  | dottedName
  | aliasedImport
  | relativeImport
  | importPrefix
  | other
  deriving DecidableEq, Repr

/-- The fields of a node that are asked for. -/
inductive Tree.Role where
  | definition
  | name
  | body
  | moduleName
  deriving DecidableEq, Repr

/-- A node of a grammar, in its field of the node above it, with its text. -/
inductive Tree where
  | node (kind : Tree.Kind) (role : Option Tree.Role) (start stop : Mark) (text : String) (children : List Tree)
  deriving Repr

namespace Tree

def kind : Tree → Kind
  | .node kind _ _ _ _ _ => kind

def role : Tree → Option Role
  | .node _ role _ _ _ _ => role

def text : Tree → String
  | .node _ _ _ _ text _ => text

def children : Tree → List Tree
  | .node _ _ _ _ _ children => children

/-- The first child in a field. -/
def field? (role : Role) (children : List Tree) : Option Tree := children.find? (·.role == some role)

/-- The kind of definition that a node is. -/
def Kind.defines? : Kind → Option DefinitionKind
  | .functionDefinition => some .function
  | .classDefinition => some .classDef
  | _ => none

/-- A definition of some kind with the children of its node, if it has a name. -/
def pack (kind : Kind) (children : List Tree) (start stop : Mark) (inner : List Located) : List Located :=
  match kind.defines?, field? .name children with
  | some kind, some name => [.mk kind name.text start stop inner]
  | _, _ => []

mutual

/-- The definition that a node is, or that it holds behind its decorators. -/
def located : Tree → List Located
  | .node kind _ start stop _ children =>
    if kind = .decoratedDefinition then decorated start stop children
    else pack kind children start stop (inBody children)

def locatedAll : List Tree → List Located
  | [] => []
  | t :: ts => located t ++ locatedAll ts

/-- The definition held by a node with decorators. -/
def decorated (start stop : Mark) : List Tree → List Located
  | [] => []
  | .node kind role _ _ _ children :: ts =>
    if role = some .definition then pack kind children start stop (inBody children)
    else decorated start stop ts

/-- The definitions in the body of a definition. -/
def inBody : List Tree → List Located
  | [] => []
  | .node _ role _ _ _ children :: ts => if role = some .body then locatedAll children else inBody ts

end

/-- The name of an imported module, without its alias. -/
def imported (t : Tree) : Option String :=
  match t.kind with
  | .dottedName => some t.text
  | .aliasedImport => (field? .name t.children).map text
  | _ => none

/-- The name taken from a module, without its alias. -/
def taken (t : Tree) : Option String :=
  if t.kind = .aliasedImport then (field? .name t.children).map text else some t.text

/-- Takes a part of a relative import into account: the dots for the level, the name for the name. -/
def refine (s : String × Nat) (part : Tree) : String × Nat :=
  match part.kind with
  | .importPrefix => (s.1, part.text.toList.count '.')
  | .dottedName => (part.text, s.2)
  | _ => s

/-- Name and level of the module that names are taken from. -/
def source (t : Tree) : String × Nat :=
  if t.kind = .relativeImport then t.children.foldl refine ("", 0) else (t.text, 0)

mutual

/-- The imports at and below a node. -/
def refs : Tree → List ImportRef
  | .node kind _ _ _ _ children =>
    match kind with
    | .importStatement => (children.filterMap imported).map fun m => ⟨m, 0, []⟩
    | .importFromStatement =>
      match field? .moduleName children with
      | none => []
      | some m =>
        [⟨(source m).1, (source m).2, (children.filter (·.role == some .name)).filterMap taken⟩]
    | _ => refsAll children

def refsAll : List Tree → List ImportRef
  | [] => []
  | t :: ts => refs t ++ refsAll ts

end

mutual

/-- How deep the search for imports goes below a node. -/
def depth : Tree → Nat
  | .node kind _ _ _ _ children =>
    match kind with
    | .importStatement => 0
    | .importFromStatement => 0
    | _ => if children.isEmpty then 0 else depthAll children + 1

def depthAll : List Tree → Nat
  | [] => 0
  | t :: ts => max (depth t) (depthAll ts)

end

/-- A reader of texts that takes any text. The statements that it finds definitions in are nested and
disjoint pieces of the text. -/
structure Parser where
  parse : List Char → Tree
  laid : ∀ text, Located.LaidAll text (locatedAll (parse text).children)
  ends : ∀ text, ∀ x ∈ locatedAll (parse text).children, x.stop.line ≤ text.count '\n'

end Tree

end OutlineIndex.Source
