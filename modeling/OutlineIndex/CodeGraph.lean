import OutlineIndex.IdSet
import OutlineIndex.Node
import OutlineIndex.NodeId
import OutlineIndex.Table

namespace OutlineIndex

structure FileEntry where
  nodeIds : IdSet
  sha : String
  deriving DecidableEq, Repr

structure CodeGraph where
  workspace : Path
  files : Table FileEntry
  imports : Table IdSet
  exports : Table IdSet
  nodes : Table Node

namespace CodeGraph

def empty (workspace : Path) : CodeGraph := ⟨workspace, .empty, .empty, .empty, .empty⟩

/-- The absolute form of an identifier. -/
def absolute (g : CodeGraph) (id : String) : String := NodeId.absolute g.workspace id

def absoluteSet (g : CodeGraph) (s : IdSet) : IdSet := .ofList (s.toList.map g.absolute)

def entry? (g : CodeGraph) (path : String) : Option FileEntry := g.files.find? path

def node? (g : CodeGraph) (id : String) : Option Node := g.nodes.find? id

def importsOf? (g : CodeGraph) (id : String) : Option IdSet := g.imports.find? id

def exportsOf? (g : CodeGraph) (id : String) : Option IdSet := g.exports.find? id

/-- Forgets the edges and nodes under the given absolute identifiers. -/
def drop (g : CodeGraph) (ids : IdSet) : CodeGraph :=
  { g with
    imports := g.imports.filter fun k _ => !ids.contains k
    exports := g.exports.filter fun k _ => !ids.contains k
    nodes := g.nodes.filter fun k _ => !ids.contains k }

/-- Writes one key's targets. A key of the file itself, or a new one, takes them as they are; a key
of another file keeps its old targets apart from the file's previous identifiers. -/
def writeEdge (own previous : IdSet) (t : Table IdSet) (key : String) (targets : IdSet) :
    Table IdSet :=
  match own.contains key, t.find? key with
  | false, some old => t.put key ((old.sdiff previous).union targets)
  | _, _ => t.put key targets

def writeEdges (own previous : IdSet) (t edges : Table IdSet) : Table IdSet :=
  edges.entries.foldl (fun t e => writeEdge own previous t e.1 e.2) t

/-- Replaces what is known of a file. -/
def update (g : CodeGraph) (path : String) (entry : FileEntry) (imports exports : Table IdSet)
    (nodes : List Node) : CodeGraph :=
  let previous := g.absoluteSet (((g.entry? path).map FileEntry.nodeIds).getD .empty)
  let own := g.absoluteSet entry.nodeIds
  let g := g.drop previous
  { g with
    files := g.files.put path entry
    imports := writeEdges own previous g.imports imports
    exports := writeEdges own previous g.exports exports
    nodes := nodes.foldl (fun t n => t.put n.id n) g.nodes }

/-- Takes targets out of every set and then the sets left empty. -/
def withoutTargets (t : Table IdSet) (ids : IdSet) : Table IdSet :=
  (t.map fun _ s => s.sdiff ids).filter fun _ s => !s.isEmpty

/-- Forgets a file with every edge from and to it. -/
def remove (g : CodeGraph) (path : String) : CodeGraph :=
  match g.entry? path with
  | none => g
  | some entry =>
    let ids := g.absoluteSet entry.nodeIds
    let g := g.drop ids
    { g with
      files := g.files.erase path
      imports := withoutTargets g.imports ids
      exports := withoutTargets g.exports ids }

/-- Edges with relative identifiers, as a snapshot holds them; a repeated key counts once, with its
last targets. -/
def absoluteEdges (g : CodeGraph) (edges : List (String × List String)) : Table IdSet :=
  edges.foldl (fun t e => t.put (g.absolute e.1) (.ofList (e.2.map g.absolute))) .empty

/-- The graph of a snapshot; nodes are not part of one. -/
def restore (g : CodeGraph) (files : Table FileEntry) (imports exports : List (String × List String)) :
    CodeGraph :=
  { g with
    files := files
    imports := g.absoluteEdges imports
    exports := g.absoluteEdges exports
    nodes := .empty }

def clear (g : CodeGraph) : CodeGraph := empty g.workspace

end CodeGraph

end OutlineIndex
