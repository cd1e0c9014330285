import OutlineIndex.Proofs.Persistence

namespace OutlineIndex

theorem CodeMap.entries_eq_nil_iff {b : Backend} {w : Workspace} {d : Document} {m : CodeMap} {path : Path}
    (h : ofDocument b w d = .ok m) (hpath : Uri.toPath d.uri = .ok path) :
    m.nodes.entries = [] ↔ (!supports path || Text.blank d.text.toList) = true := by
  obtain ⟨path', hpath', h⟩ := Results.bind_eq_ok.mp h
  cases hpath.symm.trans (Results.mapError_eq_ok.mp hpath')
  split at h
  · rename_i hnothing
    cases h
    exact ⟨fun _ => hnothing, fun _ => rfl⟩
  · rename_i hsomething
    refine iff_of_false (fun hnil => ?_) hsomething
    obtain ⟨o, -, h⟩ := Results.bind_eq_ok.mp h
    obtain ⟨found, -, h⟩ := Results.bind_eq_ok.mp h
    obtain ⟨foreign, -, h⟩ := Results.bind_eq_ok.mp h
    cases h
    have hmodule : ((foreign.filterMap id).foldl (link d.uri)
        ⟨ownNodes d path o.definitions, .empty, .empty⟩).nodes.find? d.uri = some (moduleNode d path) :=
      find?_foldl_link_of_find? (find?_ownNodes_uri d path o.definitions)
    rw [Table.find?, hnil] at hmodule
    cases hmodule

/-- A document's own nodes are those of its text, whatever else is in the workspace. -/
theorem CodeMap.mem_ownNodes_iff {b : Backend} {w : Workspace} {d : Document} {m : CodeMap} {path : Path}
    {o : Source.Outline} (h : ofDocument b w d = .ok m) (hnodes : m.nodes.entries ≠ [])
    (hpath : Uri.toPath d.uri = .ok path) (ho : outline b d = .ok o) {n : Node} :
    n ∈ Pass.ownNodes d.uri m ↔ (ownNodes d path o.definitions).find? n.id = some n := by
  rcases ofDocument_cases h with rfl | ⟨path', o', foreign, hpath', -, ho', hlinked, rfl⟩
  · exact absurd rfl hnodes
  cases hpath.symm.trans hpath'
  cases ho.symm.trans ho'
  have hlaid := laidAll_outline ho
  rw [Pass.ownNodes, List.mem_filter, Table.mem_values_iff]
  constructor
  · rintro ⟨⟨k, hk⟩, huri⟩
    rcases find?_nodes_foldl_link hk with hown | ⟨hmem, hid, hne⟩
    · rw [(find?_ownNodes hlaid hown).1]
      exact hown
    · have hforeign := hlinked.isForeign n hmem
      rw [hforeign.id_eq] at hne
      exact absurd (by simpa using huri) hne
  · intro hown
    exact ⟨⟨n.id, find?_foldl_link_of_find? hown⟩, by simpa using (find?_ownNodes hlaid hown).2.uri_eq⟩

/-- An entry describes a text of the document at `uri`: it has the digest of the text and, relative to
the workspace, exactly the identifiers of the nodes that the text gives the document. The other files
of the workspace have no part in these. -/
structure FileEntry.Describes (cwd root : Path) (b : Backend) (e : FileEntry) (uri text : String) :
    Prop where
  digest : Digest.ofText text = e.sha
  nonempty : ∃ w m, w.cwd = cwd ∧ w.root = root ∧ CodeMap.ofDocument b w ⟨uri, text⟩ = .ok m ∧
    m.nodes.entries ≠ []
  nodes : ∀ w m, w.cwd = cwd → w.root = root → CodeMap.ofDocument b w ⟨uri, text⟩ = .ok m →
    ∀ id, id ∈ e.nodeIds ↔ ∃ n ∈ Pass.ownNodes uri m,
      NodeId.toRelative cwd (Path.resolve cwd root) n.id = .ok id

/-- A document that is entered gets an entry that describes its text. -/
theorem Context.describes {c : Context} {uri : String} {path : Path} {d : Document} {m : CodeMap}
    {ids : List String} (hreads : c.Reads uri d path)
    (hm : CodeMap.ofDocument c.backend c.workspace d = .ok m) (hnodes : m.nodes.entries ≠ [])
    (hids : ((Pass.ownNodes uri m).mapM fun n => c.relativeId n.id) = .ok ids) :
    FileEntry.Describes c.workspace.cwd c.workspace.root c.backend
      ⟨.ofList ids, Digest.ofText d.text⟩ uri d.text := by
  obtain ⟨uri', text⟩ := d
  obtain rfl : uri' = uri := hreads.uri_eq
  refine ⟨rfl, ⟨c.workspace, m, rfl, rfl, hm, hnodes⟩, ?_⟩
  intro w m' _ _ hm' id
  have hnodes' : m'.nodes.entries ≠ [] := by
    rw [Ne, CodeMap.entries_eq_nil_iff hm' hreads.path, ← CodeMap.entries_eq_nil_iff hm hreads.path]
    exact hnodes
  have hsame : ∀ n, n ∈ Pass.ownNodes uri' m' ↔ n ∈ Pass.ownNodes uri' m := by
    intro n
    rcases CodeMap.ofDocument_cases hm with rfl | ⟨_, ss, -, -, -, hss, -⟩
    · exact absurd rfl hnodes
    · exact (CodeMap.mem_ownNodes_iff hm' hnodes' hreads.path hss).trans
        (CodeMap.mem_ownNodes_iff hm hnodes hreads.path hss).symm
  rw [IdSet.mem_ofList]
  constructor
  · intro hid
    obtain ⟨n, hn, hrel⟩ := Results.exists_of_mem_mapM hids hid
    exact ⟨n, (hsame n).mpr hn, Results.mapError_eq_ok.mp hrel⟩
  · rintro ⟨n, hn, hrel⟩
    obtain ⟨id', hid', hrel'⟩ := Results.exists_mem_of_mapM hids ((hsame n).mp hn)
    cases (Results.mapError_eq_ok.mp hrel').symm.trans hrel
    exact hid'

/-- The documents that a call comes to: those of its batch, and the files that can be indexed. -/
def Context.ComesTo (c : Context) (f : FileFilter) (U : String → Prop) (u : String) : Prop :=
  U u ∨ ∃ q, c.Indexable f q ∧ u = Uri.ofResolved q

theorem Context.Indexable.resolved {c : Context} {f : FileFilter} {q : Path} (h : c.Indexable f q) :
    q.Resolved := by
  rcases h with htarget | ⟨_, _, _, _, rfl⟩
  · exact htarget.resolved
  · exact Path.resolved_resolve _ _

namespace Index

/-- The states of an index after any calls with any outcome, over batches of documents that satisfy
`U` and contexts that satisfy `W` with the filter of the index. The files, the generator and the
listener may be others in each call. A store may be put in the place of another, so that an index can
be opened again. -/
inductive Reachable (cwd root : Path) (b : Backend) (U : String → Prop)
    (W : Context → FileFilter → Prop) : Index → Prop where
  | start (graphPath : String) (dimension : Int) (pattern : String) (exclusion : List String) :
      Reachable cwd root b U W
        (make (Path.resolve cwd root) (.empty graphPath dimension) pattern exclusion)
  | process {i : Index} {c : Context} {uris : List String} {full : Bool}
      (reachable : Reachable cwd root b U W i) (cwd_eq : c.workspace.cwd = cwd)
      (root_eq : c.workspace.root = root) (backend_eq : c.backend = b) (sited : W c i.filter)
      (batch : ∀ u ∈ uris, U u) : Reachable cwd root b U W (i.process c uris full).1
  | build {i : Index} {c : Context} (reachable : Reachable cwd root b U W i)
      (cwd_eq : c.workspace.cwd = cwd) (root_eq : c.workspace.root = root)
      (backend_eq : c.backend = b) (sited : W c i.filter) : Reachable cwd root b U W (i.build c).1
  | deleteFile {i : Index} {c : Context} {path : String} (reachable : Reachable cwd root b U W i)
      (sited : W c i.filter) : Reachable cwd root b U W (i.deleteFile c path).1
  | load {i : Index} (reachable : Reachable cwd root b U W i) : Reachable cwd root b U W i.load.1
  | store {i i' : Index} (reachable : Reachable cwd root b U W i)
      (other : Reachable cwd root b U W i') : Reachable cwd root b U W { i with store := i'.store }
  | filter {i : Index} (reachable : Reachable cwd root b U W i) (f : FileFilter) :
      Reachable cwd root b U W { i with filter := f }

/-- A property of graphs that lasts: it holds of the empty one, and is kept when a document is entered,
when a file is removed, and when a graph is restored from its snapshot. -/
structure Lasting (cwd root : Path) (b : Backend) (U : String → Prop) (W : Context → FileFilter → Prop)
    (G : CodeGraph → Prop) : Prop where
  empty : G (.empty (Path.resolve cwd root))
  enter : ∀ {c : Context} {f : FileFilter} {g : CodeGraph} {uri : String} {d : Document} {path : Path}
    {m : CodeMap} {ids : List String}, c.workspace.cwd = cwd → c.workspace.root = root → c.backend = b →
    W c f → c.ComesTo f U uri → c.Reads uri d path →
    CodeMap.ofDocument c.backend c.workspace d = .ok m → m.nodes.entries ≠ [] →
    ((Pass.ownNodes uri m).mapM fun n => c.relativeId n.id) = .ok ids → G g →
    G (g.update (c.relative path) ⟨.ofList ids, Digest.ofText d.text⟩ m.imports m.exports m.nodes.values)
  remove : ∀ {g : CodeGraph} (path : String), G g → G (g.remove path)
  restore : ∀ {c : Context} {f : FileFilter} {g : CodeGraph} {imports exports : EdgeList}, W c f → G g →
    c.relativeEdges g.imports = .ok imports → c.relativeEdges g.exports = .ok exports →
    G ((CodeGraph.empty (Path.resolve cwd root)).restore (.ofList g.files.sorted) imports exports)

/-- The graph of an index has a property, and so has the one that the snapshot of its store is restored
to. -/
structure Kept (base : Path) (G : CodeGraph → Prop) (i : Index) : Prop where
  workspace : i.graph.workspace = base
  graph : G i.graph
  saved : ∀ s, i.store.load.result = .ok (some s) → ∃ imports exports,
    Snapshot.edges s.imports = .ok imports ∧ Snapshot.edges s.exports = .ok exports ∧
      G ((CodeGraph.empty base).restore s.files imports exports)

namespace Kept

variable {base : Path} {G : CodeGraph → Prop} {i i' : Index}

/-- The graph changes, the snapshot does not. -/
theorem change (h : i.Kept base G) (hfile : i'.store.graphFile = i.store.graphFile)
    (hworkspace : i'.graph.workspace = i.graph.workspace) (hgraph : G i'.graph) : i'.Kept base G := by
  refine ⟨hworkspace.trans h.workspace, hgraph, ?_⟩
  rw [Store.load_congr hfile]
  exact h.saved

theorem congr (h : i.Kept base G) (hfile : i'.store.graphFile = i.store.graphFile)
    (hgraph : i'.graph = i.graph) : i'.Kept base G :=
  h.change hfile (congrArg _ hgraph) (hgraph ▸ h.graph)

theorem load (h : i.Kept base G) : i.load.1.Kept base G := by
  unfold Index.load
  dsimp only
  split
  · exact h
  · exact h
  · rename_i s hs
    obtain ⟨imports, exports, himports, hexports, hgraph⟩ := h.saved s hs
    rw [← h.workspace] at hgraph
    rw [himports, hexports]
    exact ⟨h.workspace, hgraph, h.saved⟩

end Kept

end Index

namespace Pass

variable {cwd root : Path} {b : Backend} {U : String → Prop} {W : Context → FileFilter → Prop}
  {G : CodeGraph → Prop} {c : Context} {f : FileFilter}

/-- The snapshot that a commit may write is that of the graph. -/
theorem kept_commit (hlasting : Index.Lasting cwd root b U W G) (hover : W c f) {p p' : Pass}
    {docs : List IndexDocument} {incremental : Bool} {r : Except Failure Unit}
    (h : commit c p docs incremental = (p', r)) (hp : p.index.Kept (Path.resolve cwd root) G) :
    p'.index.Kept (Path.resolve cwd root) G := by
  unfold commit at h
  split at h
  · cases h
    exact hp
  · cases h
    exact hp
  · rename_i imports exports himports hexports
    obtain ⟨rfl, -⟩ := Prod.mk.inj h
    have hsaved : (p.store.save docs imports exports p.graph.files incremental).1.graphFile = _ ∨ _ :=
      Store.graphFile_save rfl
    rcases hsaved with hfile | hfile
    · exact hp.congr hfile rfl
    · refine ⟨hp.workspace, hp.graph, fun s hs => ?_⟩
      cases (Store.load_of_written hfile).symm.trans hs
      exact ⟨imports, exports, Snapshot.edges_ofEdges _, Snapshot.edges_ofEdges _,
        hlasting.restore hover hp.graph himports hexports⟩

theorem kept_finish (hlasting : Index.Lasting cwd root b U W G) (hover : W c f) {p p' : Pass}
    {nodes : List Node} {full : Bool} {r : Except Failure Unit} (h : finish c p nodes full = (p', r))
    (hp : p.index.Kept (Path.resolve cwd root) G) : p'.index.Kept (Path.resolve cwd root) G := by
  unfold finish at h
  dsimp only at h
  generalize (Skeleton.ofNodes ⟨c.workspace, p.graph, c.generate⟩ nodes) = made at h
  have hreported : (p.report made.reports).index.Kept (Path.resolve cwd root) G := hp.congr rfl rfl
  split at h
  · cases h
    exact hreported
  · split at h
    · cases h
      exact hreported
    · split at h
      · cases h
        exact hreported
      · exact kept_commit hlasting hover h hreported

theorem kept_drop (hlasting : Index.Lasting cwd root b U W G) {p p' : Pass} {path : Path}
    {r : Except Failure Unit} (h : drop c p path = (p', r)) (hp : p.index.Kept (Path.resolve cwd root) G) :
    p'.index.Kept (Path.resolve cwd root) G := by
  have hdropped := dropped_of_drop h
  have hgraph : p'.index.graph = p.graph.remove (c.relative path) := hdropped.graph
  have hfile : p'.store.graphFile = p.store.graphFile := by
    rw [hdropped.store]
    rfl
  refine hp.change hfile ?_ ?_
  · rw [hgraph]
    exact CodeGraph.workspace_remove _ _
  · rw [hgraph]
    exact hlasting.remove _ hp.graph

/-- Only a visit that enters its document changes the graph. -/
theorem kept_visit (hlasting : Index.Lasting cwd root b U W G) (hcwd : c.workspace.cwd = cwd)
    (hroot : c.workspace.root = root) (hbackend : c.backend = b) (hover : W c f) {p p' : Pass}
    {uri : String} {r : Except Failure Visit} (huri : c.ComesTo f U uri) (h : visit c p uri = (p', r))
    (hp : p.index.Kept (Path.resolve cwd root) G) : p'.index.Kept (Path.resolve cwd root) G := by
  have hquiet : ∀ {p'}, Quiet c p p' → p'.index.Kept (Path.resolve cwd root) G := fun quiet =>
    hp.congr (congrArg Store.graphFile quiet.store) quiet.graph
  cases outcome_of_visit h with
  | idle quiet => exact hquiet quiet
  | blank quiet => exact hquiet quiet
  | failed quiet => exact hquiet quiet
  | entered quiet _ reads _ map nodes _ _ ids_eq =>
    have hbefore := hquiet quiet
    exact hbefore.change rfl rfl
      (hlasting.enter hcwd hroot hbackend hover huri reads map nodes ids_eq hbefore.graph)

theorem invariant_kept (hlasting : Index.Lasting cwd root b U W G) (hcwd : c.workspace.cwd = cwd)
    (hroot : c.workspace.root = root) (hbackend : c.backend = b) (hover : W c f) (full : Bool) :
    Invariant c full (c.ComesTo f U) (c.ComesTo f U) fun p => p.index.Kept (Path.resolve cwd root) G where
  batch _ hu _ := hu
  found q _ _ hq _ := .inr ⟨q, .inl hq, rfl⟩
  visit _ _ _ _ huri _ hvisit hp :=
    kept_visit hlasting hcwd hroot hbackend hover huri hvisit (hp.congr rfl rfl)
  finish _ _ _ _ _ h hp := kept_finish hlasting hover h hp
  drop _ _ _ _ _ _ _ _ h hp := kept_drop hlasting h hp
  report _ _ hp := hp.congr rfl rfl

end Pass

namespace Index

variable {cwd root : Path} {b : Backend} {U : String → Prop} {W : Context → FileFilter → Prop}
  {G : CodeGraph → Prop}

theorem kept_deleteFile (hlasting : Lasting cwd root b U W G) {c : Context} {f : FileFilter} (hover : W c f)
    {i : Index} {path : String} (h : i.Kept (Path.resolve cwd root) G) :
    (i.deleteFile c path).1.Kept (Path.resolve cwd root) G := by
  have hremoved : (Pass.index (.start { i with
      graph := i.graph.remove path
      store := i.store.deleteDocuments ((i.store.findByPath [path]).map (·.id)) })).Kept
        (Path.resolve cwd root) G :=
    h.change rfl (CodeGraph.workspace_remove _ _) (hlasting.remove path h.graph)
  unfold deleteFile
  dsimp only
  generalize hcommit : Pass.commit c _ _ _ = x
  obtain ⟨p, r⟩ := x
  exact (Pass.kept_commit hlasting hover hcommit hremoved).congr rfl rfl

/-- What lasts holds of every reachable index. -/
theorem Reachable.kept (hlasting : Lasting cwd root b U W G) {i : Index}
    (h : Reachable cwd root b U W i) : i.Kept (Path.resolve cwd root) G := by
  have hprocess : ∀ (i : Index) (c : Context) f uris full, c.workspace.cwd = cwd →
      c.workspace.root = root → c.backend = b → W c f → (∀ u ∈ uris, c.ComesTo f U u) →
      i.Kept (Path.resolve cwd root) G → (i.process c uris full).1.Kept (Path.resolve cwd root) G := by
    intro i c f uris full hcwd hroot hbackend hover hbatch hi
    have hstart : (Pass.start i).index.Kept (Path.resolve cwd root) G := hi.congr rfl rfl
    have hend := (Pass.invariant_kept hlasting hcwd hroot hbackend hover full).items hbatch hstart
    obtain ⟨hgraph, hstore⟩ := process_eq c i uris full
    exact hend.congr (congrArg Store.graphFile hstore) hgraph
  induction h with
  | start => exact ⟨rfl, hlasting.empty, by rintro _ ⟨⟩⟩
  | process _ hcwd hroot hbackend hover batch ih =>
    exact hprocess _ _ _ _ _ hcwd hroot hbackend hover (fun u hu => .inl (batch u hu)) ih
  | @build i c _ hcwd hroot hbackend hover ih =>
    have hforget : Kept (Path.resolve cwd root) G { i with filter := i.filter.forget } := ih.congr rfl rfl
    unfold Index.build
    dsimp only
    cases hdocuments : FileFilter.documents c.workspace.files c.base i.filter.forget.pattern
        i.filter.forget.exclusion with
    | error e => exact hforget
    | ok uris =>
      refine hprocess _ _ _ _ _ hcwd hroot hbackend hover (fun u hu => .inr ?_) hforget
      obtain ⟨found, hfound, huris⟩ := Results.bind_eq_ok.mp hdocuments
      cases huris
      obtain ⟨rel, hrel, rfl⟩ := List.mem_map.mp hu
      exact ⟨_, .inr ⟨found, hfound, rel, hrel, rfl⟩, rfl⟩
  | deleteFile _ hover ih => exact kept_deleteFile hlasting hover ih
  | load _ ih => exact ih.load
  | store _ _ ih ih' => exact ⟨ih.workspace, ih.graph, ih'.saved⟩
  | filter _ _ ih => exact ih.congr rfl rfl

/-- What every text that is entered gives its entry lasts: entries are copied into the snapshot and back
as a whole. -/
theorem lasting_entries {T : String → FileEntry → Prop}
    (hT : ∀ (c : Context) f uri d path m ids, c.workspace.cwd = cwd → c.workspace.root = root →
      c.backend = b → W c f → c.ComesTo f U uri → c.Reads uri d path →
      CodeMap.ofDocument c.backend c.workspace d = .ok m → m.nodes.entries ≠ [] →
      ((Pass.ownNodes uri m).mapM fun n => c.relativeId n.id) = .ok ids →
      T (c.relative path) ⟨.ofList ids, Digest.ofText d.text⟩) :
    Lasting cwd root b U W fun g => ∀ path e, g.entry? path = some e → T path e where
  empty := by rintro _ _ ⟨⟩
  enter := by
    intro c f g uri d path m ids hcwd hroot hbackend hover huri hreads hm hnodes hids hg rel e he
    rw [CodeGraph.entry?_update] at he
    split at he
    · rename_i hrel
      cases he
      rw [hrel]
      exact hT c f uri d path m ids hcwd hroot hbackend hover huri hreads hm hnodes hids
    · exact hg rel e he
  remove := by
    intro g path hg k e he
    have hfind := (CodeGraph.find?_files_remove g path k).symm.trans he
    split at hfind
    · cases hfind
    · exact hg k e hfind
  restore := by
    intro c f g imports exports _ hg _ _ path e he
    exact hg path e ((Table.find?_ofList_sorted _ path).symm.trans he)

/-- Every entry of a reachable index describes one text of a document at the entry's path. -/
theorem describes_of_reachable {cwd root : Path} {b : Backend} {U : String → Prop}
    {W : Context → FileFilter → Prop} {i : Index} (h : Reachable cwd root b U W i) {path : String} {e : FileEntry}
    (he : i.graph.entry? path = some e) : ∃ uri file text, (U uri ∨ ∃ q : Path, q.Resolved ∧ uri = Uri.ofResolved q) ∧
      Uri.toPath uri = .ok file ∧ Uri.relativePath cwd (Path.resolve cwd root) file = path ∧
      e.Describes cwd root b uri text := by
  refine (h.kept (lasting_entries (T := fun path e => ∃ uri file text,
    (U uri ∨ ∃ q : Path, q.Resolved ∧ uri = Uri.ofResolved q) ∧ Uri.toPath uri = .ok file ∧
    Uri.relativePath cwd (Path.resolve cwd root) file = path ∧ e.Describes cwd root b uri text)
    ?_)).graph path e he
  rintro c f uri d path m ids rfl rfl rfl - huri hreads hm hnodes hids
  refine ⟨uri, path, d.text, ?_, hreads.path, rfl, Context.describes hreads hm hnodes hids⟩
  exact huri.imp_right fun ⟨q, hq, heq⟩ => ⟨q, hq.resolved, heq⟩

/-- `a.py` is indexed, edited, and entered anew without a save, since its skeletons cannot be made. -/
theorem describes_of_reachable_unsaved :
    let cwd : Path := ⟨.root, ["tmp", "w"]⟩
    let root : Path := ⟨.root, ["tmp", "w", "ws"]⟩
    let uri := "file:///tmp/w/ws/a.py"
    let i := (((make (Path.resolve cwd root) (.empty "graph.json" 4) "a.py" []).process
      (sampleContext [("a.py", "x\n")] "") [uri] false).1.process
      (sampleContext [("a.py", "def g():0\n")] "g") [uri] false).1
    ∃ e, i.graph.entry? "a.py" = some e ∧ e.nodeIds = .ofList ["a.py", "a.py#0:0"] ∧
      ∃ uri' file text, (uri' = uri ∨ ∃ q : Path, q.Resolved ∧ uri' = Uri.ofResolved q) ∧
        Uri.toPath uri' = .ok file ∧ Uri.relativePath cwd (Path.resolve cwd root) file = "a.py" ∧
        e.Describes cwd root .tolerant uri' text := by
  intro cwd root uri i
  have hbatch : ∀ u ∈ [uri], u = uri := fun _ hu => List.mem_singleton.mp hu
  have hreachable : Reachable cwd root .tolerant (· = uri) (fun _ _ => True) i :=
    .process (.process (.start _ _ _ _) rfl rfl rfl trivial hbatch) rfl rfl rfl trivial hbatch
  have hentry : ∃ e ∈ i.graph.entry? "a.py", e.nodeIds = .ofList ["a.py", "a.py#0:0"] := by
    decide +kernel
  clear_value i
  obtain ⟨e, he, hids⟩ := hentry
  exact ⟨e, he, hids, describes_of_reachable hreachable he⟩

end Index

end OutlineIndex
