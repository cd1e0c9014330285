import OutlineIndex.Index.Visit

namespace OutlineIndex.Pass

/-- The work on an item: the documents that belong to it, and the nodes collected from them. -/
structure Item where
  frontier : List String
  nodes : Table Node

def Item.start (uri : String) : Item := ⟨[uri], .empty⟩

/-- The documents that a visit found and the item does not have yet. -/
def Item.fresh (item : Item) (v : Visit) : List String := v.found.filter (!item.frontier.contains ·)

def Item.extend (item : Item) (v : Visit) : Item :=
  ⟨item.frontier ++ item.fresh v, v.nodes.foldl (fun t n => t.put n.id n) item.nodes⟩

def mark (p : Pass) (uri : String) : Pass := { p with visited := p.visited ++ [uri] }

/-- Visits the documents of an item in order; new ones join the end of the queue. -/
def walk (c : Context) : Nat → Pass → Item → List String → Pass × Except Failure Item
  | 0, p, item, _ => (p, .ok item)
  | _ + 1, p, item, [] => (p, .ok item)
  | fuel + 1, p, item, uri :: queue =>
    if p.visited.contains uri then walk c fuel p item queue
    else
      andThen (visit c (p.mark uri) uri) fun p v =>
        walk c fuel p (item.extend v) (queue ++ item.fresh v)

/-- More steps than there can be documents in the frontier of one item: the first one and files of
the workspace. -/
def walkFuel (c : Context) : Nat := c.workspace.files.entries.length + 2

/-- The document that is stored for a skeleton. -/
def indexDocument (c : Context) (g : CodeGraph) (s : Skeleton.Completed) :
    Except Failure IndexDocument := do
  let n := s.node
  let related ← (((g.importsOf? n.id).getD .empty).toList).mapM c.filePath
  return ⟨n.id, s.skeleton, ← c.filePath n.id, n.span.start.key, n.span.stop.key, n.parent, related⟩

/-- Saves documents with the graph as it stands. -/
def commit (c : Context) (p : Pass) (docs : List IndexDocument) (incremental : Bool) :
    Pass × Except Failure Unit :=
  match c.relativeEdges p.graph.imports, c.relativeEdges p.graph.exports with
  | .error e, _ => (p, .error e)
  | _, .error e => (p, .error e)
  | .ok imports, .ok exports =>
    let (store, r) := p.store.save docs imports exports p.graph.files incremental
    ({ p with store := store, calls := p.calls ++ [.save (docs.map (·.id)) incremental] }, r)

/-- Makes the skeletons of an item's nodes and commits them. -/
def finish (c : Context) (p : Pass) (nodes : List Node) (full : Bool) : Pass × Except Failure Unit :=
  let made := Skeleton.ofNodes ⟨c.workspace, p.graph, c.generate⟩ nodes
  let p := p.report made.reports
  match made.result with
  | .error e => (p, .error e)
  | .ok completed =>
    if completed.isEmpty then (p, .ok ())
    else
      match completed.mapM (indexDocument c p.graph) with
      | .error e => (p, .error e)
      | .ok docs => commit c p docs (!full)

/-- Tells the listener that a file is gone. -/
def notifyRemoved (l : Listener) (p : Pass) (path : String) : Pass × Except Failure Unit :=
  match l with
  | .nobody => (p, .ok ())
  | .failing => (p.report [.removed path], .error .listener)
  | _ => (p.report [.removed path], .ok ())

/-- Drops a file that is gone from the store and the graph. -/
def drop (c : Context) (p : Pass) (path : Path) : Pass × Except Failure Unit :=
  let rel := c.relative path
  let ids := (p.store.findByPath [rel]).map (·.id)
  notifyRemoved c.listener
    { p with
      store := p.store.deleteDocuments ids
      calls := p.calls ++ StoreCall.deletion ids
      graph := p.graph.remove rel } path.toString

/-- Works on one item of a batch. -/
def item (c : Context) (full : Bool) (p : Pass) (uri : String) : Pass × Except Failure Unit :=
  if p.visited.contains uri then (p, .ok ())
  else
    match (Uri.toPath uri).mapError Failure.uri with
    | .error e => (p, .error e)
    | .ok path =>
      match c.present path with
      | .error e => (p, .error e)
      | .ok false => drop c p path
      | .ok true =>
        andThen (walk c (walkFuel c) p (.start uri) [uri]) fun p done =>
          if done.nodes.entries.isEmpty then (p, .ok ()) else finish c p done.nodes.values full

/-- Works on one item; its failure is reported, and only a failure to save remains one. -/
def attempt (c : Context) (full : Bool) (p : Pass) (uri : String) : Pass × Except Failure Unit :=
  match item c full p uri with
  | (p, .ok ()) => (p, .ok ())
  | (p, .error e) =>
    if e.isPersistence then (p, .error e) else (p.note (.documentFailed uri e), .ok ())

/-- The items of a batch in turn. -/
def items (c : Context) (full : Bool) (p : Pass) : List String → Pass × Except Failure Unit
  | [] => (p, .ok ())
  | uri :: rest => andThen (attempt c full p uri) fun p _ => items c full p rest

/-- Answers the listeners that wait for the end of the pass. -/
def settle (l : Listener) (p : Pass) : Pass :=
  p.report (p.waiting.map fun path =>
    if l = .deferredFailing then .notice (.deferredListenerFailed .listener) else .processing path true)

end OutlineIndex.Pass
