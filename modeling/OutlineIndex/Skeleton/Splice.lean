import OutlineIndex.Node
import OutlineIndex.Table

namespace OutlineIndex.Skeleton

/-- A node with its skeleton. -/
structure Completed where
  node : Node
  skeleton : String
  deriving DecidableEq, Repr

/-- A replacement for the text from `start` up to `stop`. -/
structure Patch where
  start : Nat
  stop : Nat
  text : List Char
  deriving DecidableEq, Repr

/-- Applies patches from the last to the first; one that reaches past the start of the patch just
applied is left out. -/
def applyPatches : List Char → Nat → List Patch → List Char
  | text, _, [] => text
  | text, bound, p :: ps =>
    if bound < p.stop then applyPatches text bound ps
    else applyPatches (text.take p.start ++ p.text ++ text.drop p.stop) p.start ps

/-- Latest start first; equal starts keep their order. -/
def descending (ps : List Patch) : List Patch := ps.mergeSort fun p q => q.start ≤ p.start

/-- The patch that puts a child's skeleton into text that begins at `origin`. -/
def patchOf (raw : List Char) (origin : Position) (c : Completed) : Patch :=
  ⟨offsetAt raw (c.node.span.start.rebase origin), offsetAt raw (c.node.span.stop.rebase origin),
    c.skeleton.toList⟩

/-- The completed children, once each, with their last skeleton. -/
def wanted (childIds : List String) (completed : List Completed) : List Completed :=
  (Table.ofList ((completed.filter fun c => childIds.contains c.node.id).map
    fun c => (c.node.id, c))).values

/-- The text of a parent with the skeletons of its children put in. Children without a skeleton
keep their text. -/
def splice (span : Span) (raw : List Char) (childIds : List String) (completed : List Completed) :
    List Char :=
  applyPatches raw (raw.length + 1)
    (descending ((wanted childIds completed).map (patchOf raw span.start)))

end OutlineIndex.Skeleton
