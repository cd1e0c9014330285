import OutlineIndex.Digest.Sha256
import OutlineIndex.Index.Context

namespace OutlineIndex

/-- A change that a pass asks of the store. -/
inductive StoreCall where
  | delete (ids : List String)
  | save (ids : List String) (incremental : Bool)
  deriving DecidableEq, Repr

/-- Rows are deleted by one call, unless there are none. -/
def StoreCall.deletion (ids : List String) : List StoreCall := if ids.isEmpty then [] else [.delete ids]

/-- The state of a pass: graph, store and filter, the digests entered so far, the documents visited,
those of them that were parsed, the calls to the store, the files whose deferred listener waits, and
what has been reported. -/
structure Pass where
  graph : CodeGraph
  store : Store
  filter : FileFilter
  digests : Table String
  visited : List String
  parsed : List String
  calls : List StoreCall
  waiting : List String
  reports : List Report

/-- A readable file with what the graph knows of it. -/
structure FileState where
  entry : Option FileEntry
  path : String
  sha : String
  document : Document

/-- What a visit adds to the work on an item: documents to visit and nodes to make skeletons for. -/
structure Visit where
  found : List String
  nodes : List Node

namespace Pass

def start (i : Index) : Pass := ⟨i.graph, i.store, i.filter, .empty, [], [], [], [], []⟩

def report (p : Pass) (rs : List Report) : Pass := { p with reports := p.reports ++ rs }

def note (p : Pass) (n : Notice) : Pass := p.report [.notice n]

/-- Goes on with the outcome of a step, unless the step failed. -/
def andThen {α β : Type} (step : Pass × Except Failure α) (next : Pass → α → Pass × Except Failure β) :
    Pass × Except Failure β :=
  match step with
  | (p, .error e) => (p, .error e)
  | (p, .ok a) => next p a

/-- The state of the file at a URI; none if it cannot be read. -/
def fileState (c : Context) (g : CodeGraph) (uri : String) : Traced (Option FileState) := do
  match ← Traced.ofExcept ((c.workspace.read uri).mapError .uri) with
  | .absent => return none
  | .unreadable path e =>
    Traced.note (.unreadableFile path.toString (.file e))
    return none
  | .text d =>
    let path ← Traced.ofExcept ((Uri.toPath uri).mapError .uri)
    let rel := c.relative path
    return some ⟨g.entry? rel, rel, Digest.ofText d.text, d⟩

/-- Whether the text of a file has been entered before, or in this pass. -/
def isCurrent (p : Pass) (s : FileState) : Bool :=
  match s.entry with
  | none => false
  | some e => e.sha == s.sha || p.digests.find? s.path == some s.sha

/-- Tells the listener that a file is being processed. -/
def notify (l : Listener) (p : Pass) (path : String) : Pass :=
  match l with
  | .nobody => p
  | .prompt => p.report [.processing path true]
  | .failing => p.report [.processing path true, .notice (.listenerFailed path .listener)]
  | .deferred => { p with waiting := p.waiting ++ [path] }
  | .deferredFailing => { p with waiting := p.waiting ++ [path] }

/-- Whether a referenced document is to be visited: its file is readable, passes the filter, and is
not current. -/
def wants (c : Context) (p : Pass) (uri : String) : Pass × Except Failure Bool :=
  let state := fileState c p.graph uri
  let p := p.report state.reports
  match state.result with
  | .error e => (p, .error e)
  | .ok none => (p, .ok false)
  | .ok (some s) =>
    match p.filter.accepts c.workspace.files c.base.parts s.path with
    | .error e => (p, .error (.filter e))
    | .ok (accepted, filter) =>
      let p := { p with filter := filter }
      (p, .ok (accepted && !p.isCurrent s))

/-- Those of some referenced documents that are to be visited. -/
def wanted (c : Context) (p : Pass) : List String → Pass × Except Failure (List String)
  | [] => (p, .ok [])
  | uri :: rest =>
    andThen (wants c p uri) fun p w =>
      andThen (wanted c p rest) fun p uris => (p, .ok (if w then uri :: uris else uris))

/-- The documents other than `uri` that a code map has nodes of. -/
def foreignUris (uri : String) (m : CodeMap) : List String :=
  (IdSet.ofList ((m.nodes.values.map (·.uri)).filter (· ≠ uri))).toList

def ownNodes (uri : String) (m : CodeMap) : List Node := m.nodes.values.filter (·.uri == uri)

/-- The rows of nodes that the file had and no longer has. -/
def staleIds (c : Context) (s : FileState) (ids : IdSet) : List String :=
  match s.entry with
  | none => []
  | some e => (e.nodeIds.sdiff ids).toList.map (NodeId.absolute c.base)

/-- Enters a parsed file into the graph and drops its stale rows. -/
def enter (c : Context) (p : Pass) (s : FileState) (ids : IdSet) (m : CodeMap) : Pass :=
  { p with
    store := p.store.deleteDocuments (staleIds c s ids)
    calls := p.calls ++ StoreCall.deletion (staleIds c s ids)
    digests := p.digests.put s.path s.sha
    graph := p.graph.update s.path ⟨ids, s.sha⟩ m.imports m.exports m.nodes.values }

/-- Works on a file that is not current. A document that is no program is passed over. -/
def refresh (c : Context) (p : Pass) (uri : String) (s : FileState) : Pass × Except Failure Visit :=
  let p := notify c.listener p s.path
  let p := { p with parsed := p.parsed ++ [uri] }
  match CodeMap.ofDocument c.backend c.workspace s.document with
  | .error e =>
    if (Failure.source e).isParseError then (p.note (.unparsed (.source e)), .ok ⟨[], []⟩)
    else (p, .error (.source e))
  | .ok m =>
    if m.nodes.entries.isEmpty then (p, .ok ⟨[], []⟩)
    else
      andThen (wanted c p (foreignUris uri m)) fun p found =>
        match (ownNodes uri m).mapM fun n => c.relativeId n.id with
        | .error e => (p, .error e)
        | .ok ids => (enter c p s (.ofList ids) m, .ok ⟨found, ownNodes uri m⟩)

def visit (c : Context) (p : Pass) (uri : String) : Pass × Except Failure Visit :=
  let state := fileState c p.graph uri
  let p := p.report state.reports
  match state.result with
  | .error e => (p, .error e)
  | .ok none => (p, .ok ⟨[], []⟩)
  | .ok (some s) => if p.isCurrent s then (p, .ok ⟨[], []⟩) else refresh c p uri s

end Pass

end OutlineIndex
