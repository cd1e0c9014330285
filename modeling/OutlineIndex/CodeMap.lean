import OutlineIndex.IdSet
import OutlineIndex.Node
import OutlineIndex.NodeId
import OutlineIndex.Source.Program
import OutlineIndex.Source.Tree
import OutlineIndex.Table
import OutlineIndex.Workspace

namespace OutlineIndex

/-- A definition with the span of the definition around it. -/
structure Definition where
  kind : Source.DefinitionKind
  name : String
  span : Span
  parent : Option Span
  deriving DecidableEq, Repr

namespace Definition

def spanOf (text : List Char) (start stop : Source.Mark) : Span :=
  ⟨positionOfBytes text start.line start.column, positionOfBytes text stop.line stop.column⟩

mutual

/-- A definition and those inside it; outer ones come first. -/
def ofLocated (text : List Char) (parent : Option Span) : Source.Located → List Definition
  | .mk kind name start stop inner =>
    let span := spanOf text start stop
    ⟨kind, name, span, parent⟩ :: ofLocatedAll text (some span) inner

def ofLocatedAll (text : List Char) (parent : Option Span) : List Source.Located → List Definition
  | [] => []
  | x :: xs => ofLocated text parent x ++ ofLocatedAll text parent xs

end

end Definition

/-- The kind of node that a definition makes. -/
def Source.DefinitionKind.nodeKind : Source.DefinitionKind → NodeKind
  | .classDef => .classDef
  | .function => .function

/-- Who reads the source: a reader of programs, a reader of any text whose trees are followed down to some
depth, or nobody. -/
inductive Backend where
  | program (parser : Source.Program.Parser)
  | tree (parser : Source.Tree.Parser) (stack : Nat)
  | unavailable

structure CodeMap where
  nodes : Table Node
  imports : Table IdSet
  exports : Table IdSet
  deriving DecidableEq

namespace CodeMap

inductive Error where
  | unavailable (document : String)
  | notAProgram (document : String)
  | nulCharacter
  | tooDeep
  | emptyModuleName
  | file (e : FileTree.Error)
  | uri (e : Uri.Error)
  deriving DecidableEq, Repr

def Error.message : Error → String
  | .unavailable d => "Failed to parse " ++ d ++ ": tree-sitter parser unavailable"
  | .notAProgram d => "Failed to parse " ++ d ++ ": invalid syntax"
  | .nulCharacter => "source code string cannot contain null bytes"
  | .tooDeep => "maximum recursion depth exceeded"
  | .emptyModuleName => "empty name"
  | .file e => e.message
  | .uri e => e.message

def empty : CodeMap := ⟨.empty, .empty, .empty⟩

def extensions : List String := [".py", ".pyi"]

def supports (path : Path) : Bool := extensions.contains path.suffix

/-- The outline of a document. -/
def outline (b : Backend) (d : Document) : Except Error Source.Outline :=
  match b with
  | .program p =>
    if d.text.toList.contains '\x00' then .error .nulCharacter
    else match p.parse d.text.toList with
      | some ss => .ok ⟨Source.Program.Statement.locatedAll ss, Source.Program.Statement.refs ss⟩
      | none => .error (.notAProgram d.uri)
  | .tree p stack =>
    let nodes := (p.parse d.text.toList).children
    if stack < Source.Tree.depthAll nodes then .error .tooDeep
    else .ok ⟨Source.Tree.locatedAll nodes, Source.Tree.refsAll nodes⟩
  | .unavailable => .error (.unavailable d.uri)

/-- The resolved path of a file, if it is there. -/
def existing? (w : Workspace) (p : Path) : Except Error (Option Path) := do
  if ← (w.isFile p).mapError .file then return some (Path.resolve w.cwd p) else return none

/-- The file of a module given its path without extension: the path with `.py`, or the package
file below it. -/
def moduleFile? (w : Workspace) (base : Path) : Except Error (Option Path) :=
  if base.name = "" then .error .emptyModuleName
  else do
    match ← existing? w (base.parent.child (base.name ++ ".py")) with
    | some p => return some p
    | none => existing? w (base.child "__init__.py")

/-- Where the search for a module starts: for a relative import, the directory that many packages
up; otherwise the workspace and its source directory. -/
def searchRoots (w : Workspace) (file : Path) (ref : Source.ImportRef) : List Path :=
  if 0 < ref.level then [(List.range ref.level).foldl (fun p _ => p.parent) file]
  else [w.base, w.base.child "src"]

/-- The path without extension of the module that a reference names below a root. -/
def moduleBase (root : Path) (ref : Source.ImportRef) : Path :=
  if ref.module = "" then root else
    (Text.split '.' ref.module.toList).foldl (fun p part => p ++ Path.ofString (String.ofList part)) root

/-- The files that a reference finds below one root: the module's, then those of the names. -/
def filesBelow (w : Workspace) (root : Path) (ref : Source.ImportRef) : Except Error (List Path) := do
  let own ← moduleFile? w (moduleBase root ref)
  let named ← ref.names.mapM fun n => moduleFile? w (moduleBase root ref ++ Path.ofString n)
  return own.toList ++ named.filterMap id

/-- The files that a reference finds at the first root where it finds any. -/
def filesAt (w : Workspace) (ref : Source.ImportRef) : List Path → Except Error (List Path)
  | [] => .ok []
  | root :: roots => do
    let found ← filesBelow w root ref
    if found.isEmpty then filesAt w ref roots else return found

/-- The files inside the workspace that a reference stands for. -/
def targets (w : Workspace) (file : Path) (ref : Source.ImportRef) : Except Error (List Path) := do
  return (← filesAt w ref (searchRoots w file ref)).filter (Path.within w.base)

/-- The node of another module, if the document that its URI names can be read. -/
def foreignNode? (w : Workspace) (p : Path) : Except Error (Option Node) := do
  match ← (w.read (Uri.ofResolved p)).mapError .uri with
  | .text d => return some ⟨d.uri, d.uri, d.fullSpan, none, .module, p.stem⟩
  | _ => return none

def definitionNode (uri : String) (d : Definition) : Node :=
  ⟨NodeId.make uri d.span, uri, d.span,
    some ((d.parent.map (NodeId.make uri)).getD uri), d.kind.nodeKind, d.name⟩

def ownNodes (d : Document) (path : Path) (definitions : List Source.Located) : Table Node :=
  let module : Node := ⟨d.uri, d.uri, d.fullSpan, none, .module, path.stem⟩
  (Definition.ofLocatedAll d.text.toList none definitions).foldl
    (fun t x => t.put (definitionNode d.uri x).id (definitionNode d.uri x)) (Table.empty.put d.uri module)

/-- Adds an imported module, unless it is the importing one. -/
def link (uri : String) (m : CodeMap) (foreign : Node) : CodeMap :=
  if foreign.id = uri then m
  else
    { nodes := if m.nodes.contains foreign.id then m.nodes else m.nodes.put foreign.id foreign
      imports := m.imports.put uri (((m.imports.find? uri).getD .empty).insert foreign.id)
      exports := m.exports.put foreign.id (((m.exports.find? foreign.id).getD .empty).insert uri) }

/-- The contribution of a document; nothing for other kinds of file and blank texts. -/
def ofDocument (b : Backend) (w : Workspace) (d : Document) : Except Error CodeMap := do
  let path ← (Uri.toPath d.uri).mapError .uri
  if !supports path || Text.blank d.text.toList then return empty
  let o ← outline b d
  let found ← o.refs.mapM (targets w path)
  let foreign ← found.flatten.eraseDups.mapM (foreignNode? w)
  return (foreign.filterMap id).foldl (link d.uri) ⟨ownNodes d path o.definitions, .empty, .empty⟩

end CodeMap

end OutlineIndex
