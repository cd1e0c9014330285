import OutlineIndex.CodeGraph
import OutlineIndex.CodeMap
import OutlineIndex.Skeleton.Compose
import OutlineIndex.Store

namespace OutlineIndex

/-- Who hears of a pass. A deferred listener is answered when the pass ends; a failing one hears the
news and then fails, a deferred one that fails does so instead. -/
inductive Listener where
  | nobody
  | prompt
  | failing
  | deferred
  | deferredFailing
  deriving DecidableEq, Repr

structure Context where
  workspace : Workspace
  backend : Backend
  generate : Generator
  listener : Listener

/-- An index: the code graph in memory, the store, and the filter for files of the workspace. -/
structure Index where
  graph : CodeGraph
  store : Store
  filter : FileFilter
  syncing : Bool

namespace Context

/-- The resolved directory of the workspace. -/
def base (c : Context) : Path := c.workspace.base

/-- The path of a file relative to the workspace. -/
def relative (c : Context) (p : Path) : String := Uri.relativePath c.workspace.cwd c.base p

def relativeId (c : Context) (id : String) : Except Failure String :=
  (NodeId.toRelative c.workspace.cwd c.base id).mapError .uri

def filePath (c : Context) (id : String) : Except Failure String :=
  (NodeId.filePath c.workspace.cwd c.base id).mapError .uri

/-- Edges with relative identifiers, in the order of their absolute keys. -/
def relativeEdges (c : Context) (edges : Table IdSet) : Except Failure EdgeList :=
  edges.sorted.mapM fun e => do
    let targets ← e.2.toList.mapM c.relativeId
    return (← c.relativeId e.1, targets.mergeSort (· ≤ ·))

/-- Whether something is at a path. -/
def present (c : Context) (p : Path) : Except Failure Bool := (c.workspace.present p).mapError .file

end Context

end OutlineIndex
