import OutlineIndex.Embedding
import OutlineIndex.Store.Predicate
import OutlineIndex.Store.Snapshot
import OutlineIndex.Trace

namespace OutlineIndex

/-- A skeleton as it is handed to the store and found again. -/
structure IndexDocument where
  id : String
  content : String
  filePath : String
  startRange : String
  endRange : String
  parent : Option String
  related : List String
  deriving DecidableEq, Repr

namespace Store

/-- A text that lists paths. -/
structure PathList where
  text : String
  listed : ∃ paths, text = Json.printTexts paths
  deriving DecidableEq

namespace PathList

def ofPaths (paths : List String) : PathList := ⟨Json.printTexts paths, paths, rfl⟩

def paths (l : PathList) : List String :=
  match Json.read Json.maxDepth l.text.toList with
  | .ok (.list items) => items.filterMap Data.text?
  | _ => []

end PathList

structure Row where
  id : String
  vector : Embedding
  content : String
  filePath : String
  startRange : String
  endRange : String
  parent : String
  related : PathList
  deriving DecidableEq

/-- Rows whose vectors all have one dimension. -/
structure RowTable where
  dimension : Nat
  rows : List Row
  deriving DecidableEq

/-- The file that the snapshot is written to. -/
inductive GraphFile where
  | absent
  | text (s : String)
  | directory
  deriving DecidableEq, Repr

end Store

structure Store where
  graphPath : String
  dimension : Int
  table : Option Store.RowTable
  graphFile : Store.GraphFile
  deriving DecidableEq

namespace Store

def empty (graphPath : String) (dimension : Int) : Store := ⟨graphPath, dimension, none, .absent⟩

/-- An absent parent is written as an empty text. -/
def Row.ofDocument (d : IndexDocument) (v : Embedding) : Row :=
  ⟨d.id, v, d.content, d.filePath, d.startRange, d.endRange, d.parent.getD "",
    .ofPaths d.related⟩

def Row.document (r : Row) : IndexDocument :=
  ⟨r.id, r.content, r.filePath, r.startRange, r.endRange, if r.parent = "" then none else some r.parent,
    r.related.paths⟩

def Row.get (r : Row) : Column → String
  | .id => r.id
  | .filePath => r.filePath

def rows (s : Store) : List Row := (s.table.map RowTable.rows).getD []

def count (s : Store) : Nat := s.rows.length

/-- Drops the rows that a condition selects. -/
def RowTable.delete (t : RowTable) (p : Predicate) : RowTable :=
  { t with rows := t.rows.filter fun r => !p.values.contains (r.get p.column) }

def deleteWhere (s : Store) (p : Predicate) : Store := { s with table := s.table.map (·.delete p) }

def deleteDocuments (s : Store) (ids : List String) : Store := s.deleteWhere ⟨.id, ids⟩

def findByPath (s : Store) (paths : List String) : List IndexDocument :=
  (s.rows.filter fun r => paths.contains r.filePath).map Row.document

def embedAll (dimension : Int) (docs : List IndexDocument) : Except Failure (List Row) :=
  docs.mapM fun d => do
    return Row.ofDocument d (← (Embedding.ofText dimension d.content).mapError .embedding)

/-- Adds rows in place of those with the same identifiers. Rows of another dimension are refused
only after the old ones are gone. -/
def upsert (s : Store) (docs : List IndexDocument) : Store × Except Failure Unit :=
  match embedAll s.dimension docs with
  | .error e => (s, .error e)
  | .ok rows =>
    let size := s.dimension.toNat
    match s.table with
    | none => if size = 0 then (s, .error .dimension) else ({ s with table := some ⟨size, rows⟩ }, .ok ())
    | some t =>
      let kept := t.delete ⟨.id, docs.map (·.id)⟩
      if size = t.dimension then
        ({ s with table := some { kept with rows := kept.rows ++ rows } }, .ok ())
      else ({ s with table := some kept }, .error .dimension)

/-- The identifier of a row relative to the workspace. -/
def Row.relativeId (r : Row) : String := NodeId.withFragment r.filePath (NodeId.split r.id).2

/-- Whether the table of files still has the node of a row. -/
def Row.isCurrent (files : Table FileEntry) (r : Row) : Bool :=
  match files.find? r.filePath with
  | some e => e.nodeIds.contains r.relativeId
  | none => false

/-- The files of rows that are not in the table of files. -/
def orphans (files : Table FileEntry) (rows : List Row) : List String :=
  (IdSet.ofList ((rows.map (·.filePath)).filter (!files.contains ·))).toList

/-- The identifiers of rows whose file is in the table but not their node. -/
def stale (files : Table FileEntry) (rows : List Row) : List String :=
  (rows.filter fun r => files.contains r.filePath && !r.isCurrent files).map (·.id)

/-- Drops the rows of files that are no longer indexed and of nodes that are gone. -/
def prune (s : Store) (files : Table FileEntry) : Store :=
  (s.deleteWhere ⟨.filePath, orphans files s.rows⟩).deleteDocuments (stale files s.rows)

def writeGraph (s : Store) (snapshot : Snapshot) : Store × Except Failure Unit :=
  match s.graphFile with
  | .directory => (s, .error (.file .isDirectory))
  | _ => ({ s with graphFile := .text (Json.print snapshot.toData) }, .ok ())

/-- The steps of saving in order, up to the first that fails. -/
def saveSteps (s : Store) (docs : List IndexDocument) (snapshot : Snapshot) (incremental : Bool) :
    Store × Except Failure Unit :=
  match if docs.isEmpty then (s, .ok ()) else s.upsert docs with
  | (s, .error e) => (s, .error e)
  | (s, .ok ()) => (if incremental then s else s.prune snapshot.files).writeGraph snapshot

/-- Commits documents together with a snapshot. A full save also prunes. -/
def save (s : Store) (docs : List IndexDocument) (imports exports : EdgeList) (files : Table FileEntry)
    (incremental : Bool) : Store × Except Failure Unit :=
  let (s, r) := s.saveSteps docs ⟨files, Snapshot.ofEdges imports, Snapshot.ofEdges exports⟩ incremental
  (s, r.mapError fun _ => .persistence docs.length)

/-- The last snapshot. A text that holds no value counts as none, with a notice; one past the limits of the
reader is a failure. -/
def load (s : Store) : Traced (Option Snapshot) :=
  match s.graphFile with
  | .absent => return none
  | .directory => do
    Traced.note (.unreadableSnapshot s.graphPath (.file .isDirectory))
    return none
  | .text t =>
    match Json.read Json.maxDepth t.toList with
    | .error .malformed => do
      Traced.note (.unreadableSnapshot s.graphPath (.json .malformed))
      return none
    | .error e => Traced.fail (.json e)
    | .ok v => do return some (← Traced.ofExcept ((Snapshot.ofData v).mapError .shape))

/-- Drops the rows and then the snapshot. -/
def clear (s : Store) : Store × Except Failure Unit :=
  let s := { s with table := none }
  match s.graphFile with
  | .directory => (s, .error (.file .isDirectory))
  | _ => ({ s with graphFile := .absent }, .ok ())

/-- A row found by a search, with its cosine in units of a hundred-thousandth. -/
structure Match where
  row : Row
  score : Nat

/-- The rows nearest to a query, nearest first; rows and queries without words match nothing. -/
def search (s : Store) (query : String) (limit : Int) : Except Failure (List Match) :=
  match s.table with
  | none => .ok []
  | some t => do
    let q ← (Embedding.ofText s.dimension query).mapError .embedding
    if limit ≤ 0 then throw .searchLimit
    if q.counts.length ≠ t.dimension then throw .dimension
    let found := t.rows.filterMap fun r => (q.similarity? r.vector).map fun n => Match.mk r n
    return (found.mergeSort fun a b => q.nearer a.row.vector b.row.vector).take limit.toNat

end Store

end OutlineIndex
