import OutlineIndex.Index.Pass

namespace OutlineIndex.Index

/-- An index with an empty graph over a store. -/
def make (workspace : Path) (store : Store) (pattern : String) (exclusion : List String)
    (spec : Ignore.Spec := .gitignore) : Index :=
  ⟨.empty workspace, store, .make pattern exclusion spec, false⟩

/-- Brings a batch of documents up to date, with every stale document they lead to. -/
def process (c : Context) (i : Index) (uris : List String) (full : Bool) : Index × Traced Unit :=
  let (p, r) := Pass.items c full (.start i) uris
  let p := p.settle c.listener
  (⟨p.graph, p.store, p.filter, false⟩, ⟨r, p.reports⟩)

/-- Processes every file of the workspace that passes the filter. -/
def build (c : Context) (i : Index) : Index × Traced (List String) :=
  let i := { i with filter := i.filter.forget }
  match FileFilter.documents c.workspace.files c.base i.filter.pattern i.filter.exclusion with
  | .error e => (i, .fail (.filter e))
  | .ok uris =>
    let (i, r) := process c i uris true
    (i, ⟨r.result.map fun _ => uris, r.reports⟩)

/-- Drops a file from the graph and the store and saves the graph. -/
def deleteFile (c : Context) (i : Index) (path : String) : Index × Traced Unit :=
  let ids := (i.store.findByPath [path]).map (·.id)
  let p := Pass.start { i with graph := i.graph.remove path, store := i.store.deleteDocuments ids }
  let (p, r) := Pass.commit c p [] true
  ({ i with graph := p.graph, store := p.store }, ⟨r, p.reports⟩)

/-- Takes over the snapshot of the store, if there is one. What comes before a part of the snapshot
that cannot be used is taken over all the same. -/
def load (i : Index) : Index × Traced Bool :=
  let loaded := i.store.load
  match loaded.result with
  | .error e => (i, ⟨.error e, loaded.reports⟩)
  | .ok none => (i, ⟨.ok false, loaded.reports⟩)
  | .ok (some s) =>
    let g := { i.graph with files := s.files }
    match Snapshot.edges s.imports with
    | .error e => ({ i with graph := g }, ⟨.error (.shape e), loaded.reports⟩)
    | .ok imports =>
      match Snapshot.edges s.exports with
      | .error e =>
        ({ i with graph := { g with imports := g.absoluteEdges imports } },
          ⟨.error (.shape e), loaded.reports⟩)
      | .ok exports => ({ i with graph := g.restore s.files imports exports }, ⟨.ok true, loaded.reports⟩)

/-- Whether a file passes the filter. -/
def includes (c : Context) (i : Index) (path : String) : Index × Except Failure Bool :=
  match i.filter.accepts c.workspace.files c.base.parts path with
  | .ok (b, f) => ({ i with filter := f }, .ok b)
  | .error e => (i, .error (.filter e))

/-- Whether a changed file calls for a pass: it is there and passes the filter, or it is gone and
was indexed. -/
def isTarget (c : Context) (i : Index) (p : Path) : Index × Except Failure Bool :=
  match c.present p with
  | .error e => (i, .error e)
  | .ok true => i.includes c (c.relative p)
  | .ok false => (i, .ok (i.graph.entry? (c.relative p)).isSome)

/-- The changed files that call for a pass. -/
def targetsFrom (c : Context) (i : Index) : List Path → Index × Except Failure (List Path)
  | [] => (i, .ok [])
  | p :: rest =>
    let p := Path.resolve c.workspace.cwd p
    match i.isTarget c p with
    | (i, .error e) => (i, .error e)
    | (i, .ok keep) =>
      match targetsFrom c i rest with
      | (i, .error e) => (i, .error e)
      | (i, .ok ps) => (i, .ok (if keep then p :: ps else ps))

/-- The filter looks at the workspace afresh, since a batch may hold new files. -/
def targets (c : Context) (i : Index) (files : List Path) : Index × Except Failure (List Path) :=
  targetsFrom c { i with filter := i.filter.forget } files

end OutlineIndex.Index
