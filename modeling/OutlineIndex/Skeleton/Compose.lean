import OutlineIndex.CodeGraph
import OutlineIndex.Skeleton.Generator
import OutlineIndex.Skeleton.Splice
import OutlineIndex.Workspace

namespace OutlineIndex.Skeleton

/-- A node with the nodes below it. -/
inductive Tree where
  | mk (node : Node) (children : List Tree)

namespace Tree

def node : Tree → Node
  | .mk n _ => n

def children : Tree → List Tree
  | .mk _ ts => ts

/-- The tree under a node, to a depth. -/
def grow (nodes : List Node) : Nat → Node → Tree
  | 0, n => .mk n []
  | depth + 1, n => .mk n ((nodes.filter (·.parent == some n.id)).map (grow nodes depth))

/-- Whether a node has no parent among the given nodes; an empty identifier names none. -/
def isRoot (nodes : List Node) (n : Node) : Bool :=
  match n.parent with
  | none => true
  | some p => p = "" || !nodes.any (·.id == p)

/-- The trees of a list of nodes. -/
def forest (nodes : List Node) : List Tree :=
  (nodes.filter (isRoot nodes)).map (grow nodes nodes.length)

end Tree

/-- What the skeletons are made from. -/
structure Sources where
  workspace : Workspace
  graph : CodeGraph
  generate : Generator

/-- The nodes that a node depends on, as far as they are known. -/
def related (g : CodeGraph) (n : Node) : List Node :=
  (((g.importsOf? n.id).getD .empty).toList).filterMap g.node?

/-- The document of a node, with a notice when it cannot be read. -/
def documentOf (w : Workspace) (n : Node) : Traced (Option Document) := do
  match ← Traced.ofExcept ((w.read n.uri).mapError .uri) with
  | .text d => return some d
  | .absent => return none
  | .unreadable path e =>
    Traced.note (.unreadableFile path.toString (.file e))
    return none

/-- The skeleton of one node, given those of its children; none if its document is gone. -/
def single (s : Sources) (n : Node) (childIds : List String) (completed : List Completed) :
    Traced (Option Completed) := do
  match ← documentOf s.workspace n with
  | none =>
    Traced.note (.skippedNode n.id)
    return none
  | some d =>
    let raw := d.slice n.span
    let code := if childIds.isEmpty then raw
      else String.ofList (splice n.span raw.toList childIds completed)
    let path ← Traced.ofExcept ((Uri.toPath n.uri).mapError .uri)
    let skeleton ← s.generate path.toString n code (related s.graph n)
    return some ⟨n, skeleton⟩

/-- Both results, or the first failure; everything is reported in either case. -/
def both {α : Type} (x y : Traced (List α)) : Traced (List α) :=
  ⟨do return (← x.result) ++ (← y.result), x.reports ++ y.reports⟩

mutual

/-- The skeletons of a tree, each child before its parent. -/
def ofTree (s : Sources) : Tree → Traced (List Completed)
  | .mk n children => do
    let completed ← ofTrees s children
    let own ← single s n (children.map (·.node.id)) completed
    return completed ++ own.toList

def ofTrees (s : Sources) : List Tree → Traced (List Completed)
  | [] => return []
  | t :: ts => both (ofTree s t) (ofTrees s ts)

end

/-- Trees one after the other, up to the first failure. -/
def inTurn (s : Sources) : List Tree → Traced (List Completed)
  | [] => return []
  | t :: ts => do return (← ofTree s t) ++ (← inTurn s ts)

/-- The skeletons of a list of nodes. A node whose parent is not in the list stands on its own. -/
def ofNodes (s : Sources) (nodes : List Node) : Traced (List Completed) :=
  inTurn s (Tree.forest nodes)

end OutlineIndex.Skeleton
