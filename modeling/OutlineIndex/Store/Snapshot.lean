import OutlineIndex.CodeGraph
import OutlineIndex.Data.Json

namespace OutlineIndex

/-- Edges as pairs of a key and its targets. -/
abbrev EdgeList := List (String × List String)

structure Snapshot where
  files : Table FileEntry
  imports : Data
  exports : Data

namespace Snapshot

def texts (l : List String) : Data := .list (l.map .text)

def ofEdges (edges : EdgeList) : Data := .list (edges.map fun e => .list [.text e.1, texts e.2])

def ofEntry (e : FileEntry) : Data :=
  .record [("nodeIds", texts e.nodeIds.toList), ("sha", .text e.sha)]

def toData (s : Snapshot) : Data :=
  .record [("imports", s.imports), ("exports", s.exports),
    ("symbolTable", .record (s.files.sorted.map fun e => (e.1, ofEntry e.2)))]

/-- A value as an identifier; lists and records cannot be one. -/
def identifier : Data → Except Data.Mismatch String
  | .text s => .ok s
  | .list _ => .error .notAKey
  | .record _ => .error .notAKey
  | v => .ok (Json.print v)

def entry : Data → Except Data.Mismatch FileEntry
  | .record fields => do
    let ids ← (((Data.record fields).field? "nodeIds").getD (.list [])).members
    let sha := ((Data.record fields).field? "sha").getD (.text "")
    return ⟨.ofList (← ids.mapM identifier), sha.text?.getD (Json.print sha)⟩
  | _ => .error .notARecord

def table : Data → Except Data.Mismatch (Table FileEntry)
  | .record fields => do
    return .ofList (← fields.mapM fun e => do return (e.1, ← entry e.2))
  | _ => .error .notARecord

/-- The snapshot in a value; parts that are missing count as empty. -/
def ofData : Data → Except Data.Mismatch Snapshot
  | .record fields => do
    let part (name : String) (missing : Data) : Data := ((Data.record fields).field? name).getD missing
    return ⟨← table (part "symbolTable" (.record [])), part "imports" (.list []),
      part "exports" (.list [])⟩
  | _ => .error .notARecord

/-- A key with its targets: something with exactly two members, the second of which has members
that are texts. -/
def edge (v : Data) : Except Data.Mismatch (String × List String) := do
  match ← v.members with
  | [key, targets] =>
    let targets ← (← targets.members).mapM textOf
    return (← textOf key, targets)
  | _ => throw .notAPair
where
  textOf : Data → Except Data.Mismatch String
    | .text s => .ok s
    | _ => .error .notText

def edges (v : Data) : Except Data.Mismatch EdgeList := do
  (← v.members).mapM edge

end Snapshot

end OutlineIndex
