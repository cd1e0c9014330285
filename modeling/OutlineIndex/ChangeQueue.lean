import OutlineIndex.CodeMap

namespace OutlineIndex

structure ChangeQueue (τ : Type) where
  debounce : τ
  lastChange : τ
  pending : IdSet

/-- A change to a file; a move names where it went. -/
structure FileChange where
  source : String
  destination : String
  directory : Bool
  deriving DecidableEq, Repr

namespace ChangeQueue

variable {τ : Type}

def start (debounce now : τ) : ChangeQueue τ := ⟨debounce, now, .empty⟩

def isHidden (part : String) : Bool := part.toList.head? = some '.'

/-- Source files count, unless they or a directory above them are hidden. -/
def accepts (p : Path) : Bool := CodeMap.supports p && !p.parts.any isHidden

def add (q : ChangeQueue τ) (now : τ) (path : String) : ChangeQueue τ :=
  let p := Path.ofString path
  if accepts p then { q with pending := q.pending.insert p.toString, lastChange := now } else q

/-- A move counts for both of its ends. -/
def dispatch (q : ChangeQueue τ) (now : τ) (c : FileChange) : ChangeQueue τ :=
  if c.directory then q
  else
    let q := q.add now c.source
    if c.destination = "" then q else q.add now c.destination

/-- Paths are ordered by their components. -/
def pathKey (p : Path) : List String :=
  match p.anchor with
  | .relative => p.parts
  | a => String.ofList a.text :: p.parts

/-- The pending paths in order. -/
def batch (q : ChangeQueue τ) : List Path :=
  (q.pending.toList.map Path.ofString).mergeSort fun a b => !(pathKey b < pathKey a)

/-- Hands over the pending paths, unless a change is too recent or a pass is going on. -/
def flush [Sub τ] [LT τ] [DecidableLT τ] (q : ChangeQueue τ) (now : τ) (busy : Bool) :
    ChangeQueue τ × List Path :=
  if q.pending.isEmpty || now - q.lastChange < q.debounce || busy then (q, [])
  else ({ q with pending := .empty }, q.batch)

end ChangeQueue

end OutlineIndex
