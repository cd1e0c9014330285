import OutlineIndex.Proofs.Agreement
import OutlineIndex.Proofs.Snapshot

namespace OutlineIndex

/-- Two tables hold the same values, in whatever order. -/
def Table.Same {α : Type} (t t' : Table α) : Prop := ∀ k, t.find? k = t'.find? k

instance {α : Type} [DecidableEq α] (t t' : Table α) : Decidable (t.Same t') :=
  decidable_of_iff (∀ k ∈ t.keys ++ t'.keys, t.find? k = t'.find? k) <| by
    refine ⟨fun h k => ?_, fun h k _ => h k⟩
    by_cases hk : k ∈ t.keys ++ t'.keys
    · exact h k hk
    · rw [List.mem_append, not_or] at hk
      rw [Table.find?_eq_none_iff.mpr hk.1, Table.find?_eq_none_iff.mpr hk.2]

/-- Files and edges are the same; a restored graph has no nodes. -/
def CodeGraph.Matches (g g' : CodeGraph) : Prop :=
  g.files.Same g'.files ∧ g.imports.Same g'.imports ∧ g.exports.Same g'.exports

instance (g g' : CodeGraph) : Decidable (g.Matches g') :=
  inferInstanceAs (Decidable (_ ∧ _ ∧ _))

theorem Store.load_congr {s s' : Store} (h : s.graphFile = s'.graphFile) :
    s.load.result = s'.load.result := by
  unfold load
  rw [h]
  cases s'.graphFile with
  | absent => rfl
  | directory => rfl
  | text t =>
    dsimp only
    cases Json.read Json.maxDepth t.toList with
    | ok v => rfl
    | error e => cases e <;> rfl

/-- Where an identifier goes when its relative form is read at another directory. -/
def Context.relocate (c : Context) (base : Path) (id : String) : String :=
  match c.relativeId id with
  | .ok rel => NodeId.absolute base rel
  | .error _ => id

def Context.relocateSet (c : Context) (base : Path) (s : IdSet) : IdSet :=
  .ofList (s.toList.map (c.relocate base))

namespace Index

/-- A new index over the same store, which takes over its snapshot. -/
def reopen (i : Index) : Index × Traced Bool := load { i with graph := .empty i.graph.workspace }

/-- Whoever opens the index anew has the same graph. -/
def InStep (i : Index) : Prop :=
  i.reopen.2.result.isOk = true ∧ i.reopen.1.graph.Matches i.graph

instance (i : Index) : Decidable i.InStep := inferInstanceAs (Decidable (_ ∧ _))

theorem load_congr {i i' : Index} (hgraph : i.graph = i'.graph)
    (hfile : i.store.graphFile = i'.store.graphFile) :
    i.load.1.graph = i'.load.1.graph ∧ i.load.2.result = i'.load.2.result := by
  unfold load
  dsimp only
  rw [Store.load_congr hfile, hgraph]
  split
  · exact ⟨hgraph, rfl⟩
  · exact ⟨hgraph, rfl⟩
  · split
    · exact ⟨rfl, rfl⟩
    · split <;> exact ⟨rfl, rfl⟩

theorem reopen_congr {i i' : Index} (hworkspace : i.graph.workspace = i'.graph.workspace)
    (hfile : i.store.graphFile = i'.store.graphFile) :
    i.reopen.1.graph = i'.reopen.1.graph ∧ i.reopen.2.result = i'.reopen.2.result :=
  load_congr (congrArg CodeGraph.empty hworkspace) hfile

theorem inStep_congr {i i' : Index} (hgraph : i.graph = i'.graph)
    (hfile : i.store.graphFile = i'.store.graphFile) : i.InStep ↔ i'.InStep := by
  obtain ⟨hg, hr⟩ := reopen_congr (congrArg CodeGraph.workspace hgraph) hfile
  rw [InStep, InStep, hg, hr, hgraph]

/-- The snapshot in the store is that of the graph. -/
def Saved (c : Context) (i : Index) : Prop := ∃ imports exports,
  c.relativeEdges i.graph.imports = .ok imports ∧ c.relativeEdges i.graph.exports = .ok exports ∧
    i.store.graphFile = .text (Json.print
      (Snapshot.mk i.graph.files (Snapshot.ofEdges imports) (Snapshot.ofEdges exports)).toData)

/-- The edges of a graph are found again from their relative form. -/
def Restorable (c : Context) (g : CodeGraph) : Prop :=
  (∀ es, c.relativeEdges g.imports = .ok es → (g.absoluteEdges es).Same g.imports) ∧
    ∀ es, c.relativeEdges g.exports = .ok es → (g.absoluteEdges es).Same g.exports

theorem load_of_written {i : Index} {files : Table FileEntry} {imports exports : EdgeList}
    (h : i.store.graphFile = .text (Json.print
      (Snapshot.mk files (Snapshot.ofEdges imports) (Snapshot.ofEdges exports)).toData)) :
    i.load.2.result = .ok true ∧ i.load.1.graph = i.graph.restore (.ofList files.sorted) imports exports := by
  unfold load
  dsimp only
  rw [Store.load_of_written h]
  dsimp only
  rw [Snapshot.edges_ofEdges]
  dsimp only
  rw [Snapshot.edges_ofEdges]
  exact ⟨rfl, rfl⟩

theorem Saved.reopen_eq {c : Context} {i : Index} (h : i.Saved c) : ∃ imports exports,
    c.relativeEdges i.graph.imports = .ok imports ∧ c.relativeEdges i.graph.exports = .ok exports ∧
      i.reopen.2.result = .ok true ∧
      i.reopen.1.graph = i.graph.restore (.ofList i.graph.files.sorted) imports exports := by
  obtain ⟨imports, exports, himports, hexports, hfile⟩ := h
  have hload := load_of_written (i := { i with graph := .empty i.graph.workspace }) hfile
  exact ⟨imports, exports, himports, hexports, hload⟩

theorem Saved.files_same {c : Context} {i : Index} (h : i.Saved c) :
    i.reopen.1.graph.files.Same i.graph.files := by
  obtain ⟨imports, exports, -, -, -, hgraph⟩ := h.reopen_eq
  rw [hgraph]
  exact Table.find?_ofList_sorted _

/-- After a save the snapshot is in step exactly if the edges can be restored. -/
theorem Saved.inStep_iff {c : Context} {i : Index} (h : i.Saved c) :
    i.InStep ↔ Restorable c i.graph := by
  have hfiles := h.files_same
  obtain ⟨imports, exports, himports, hexports, hresult, hgraph⟩ := h.reopen_eq
  constructor
  · rintro ⟨-, -, him, hex⟩
    rw [hgraph] at him hex
    refine ⟨fun es hes => ?_, fun es hes => ?_⟩
    · cases himports.symm.trans hes
      exact him
    · cases hexports.symm.trans hes
      exact hex
  · rintro ⟨him, hex⟩
    refine ⟨by rw [hresult]; rfl, hfiles, ?_⟩
    rw [hgraph]
    exact ⟨him imports himports, hex exports hexports⟩

/-- The edges found from relative forms are those whose identifiers are all moved, each in its turn. -/
theorem absoluteEdges_eq {c : Context} {g : CodeGraph} {edges : Table IdSet} {es : EdgeList}
    (h : c.relativeEdges edges = .ok es) : g.absoluteEdges es = .ofList (edges.sorted.map fun e =>
      (c.relocate g.workspace e.1, c.relocateSet g.workspace e.2)) := by
  have hmoved : ∀ {id rel}, c.relativeId id = .ok rel → g.absolute rel = c.relocate g.workspace id := by
    intro id rel hrel
    rw [Context.relocate, hrel]
    rfl
  have hedges : List.Forall₂ (fun e e' => (g.absolute e'.1, IdSet.ofList (e'.2.map g.absolute)) =
      (c.relocate g.workspace e.1, c.relocateSet g.workspace e.2)) edges.sorted es := by
    refine (Results.mapM_eq_ok.mp h).imp fun e e' he => ?_
    obtain ⟨targets, htargets, he⟩ := Results.bind_eq_ok.mp he
    obtain ⟨key, hkey, he⟩ := Results.bind_eq_ok.mp he
    cases he
    refine Prod.ext (hmoved hkey) (IdSet.ext fun id => ?_)
    rw [Context.relocateSet, IdSet.mem_ofList, IdSet.mem_ofList, List.mem_map, List.mem_map]
    constructor
    · rintro ⟨rel, hrel, rfl⟩
      obtain ⟨id, hid, hrel'⟩ := Results.exists_of_mem_mapM htargets (List.mem_mergeSort.mp hrel)
      exact ⟨id, hid, (hmoved hrel').symm⟩
    · rintro ⟨id, hid, rfl⟩
      obtain ⟨rel, hrel, hrel'⟩ := Results.exists_mem_of_mapM htargets hid
      exact ⟨rel, List.mem_mergeSort.mpr hrel, hmoved hrel'⟩
  rw [← Results.map_eq_map hedges, Table.ofList, List.foldl_map]
  rfl

/-- Edges whose identifiers are found again from their relative forms can be restored. -/
theorem same_absoluteEdges {c : Context} {g : CodeGraph} {edges : Table IdSet} {es : EdgeList}
    (h : c.relativeEdges edges = .ok es)
    (hids : ∀ k s, edges.find? k = some s → ∀ id, id = k ∨ id ∈ s →
      ∀ rel, c.relativeId id = .ok rel → g.absolute rel = id) : (g.absoluteEdges es).Same edges := by
  have hkept : ∀ k s, edges.find? k = some s → ∀ id, id = k ∨ id ∈ s →
      c.relocate g.workspace id = id := by
    intro k s hk id hid
    unfold Context.relocate
    split
    · rename_i rel hrel
      exact hids k s hk id hid rel hrel
    · rfl
  have hmap : (edges.sorted.map fun e => (c.relocate g.workspace e.1, c.relocateSet g.workspace e.2)) =
      edges.sorted := by
    refine (List.map_congr_left fun e he => ?_).trans (List.map_id _)
    have hfind : edges.find? e.1 = some e.2 :=
      Table.find?_eq_some_iff.mpr ((List.mergeSort_perm _ _).mem_iff.mp he)
    refine Prod.ext (hkept e.1 e.2 hfind e.1 (.inl rfl)) (IdSet.ext fun id => ?_)
    rw [Context.relocateSet, List.map_congr_left fun x hx => hkept e.1 e.2 hfind x (.inr hx), List.map_id',
      IdSet.mem_ofList]
    rfl
  intro k
  rw [absoluteEdges_eq h, hmap, Table.find?_ofList_sorted]

end Index

namespace Context

/-- An identifier is found again from its relative form. -/
def FindsAgain (c : Context) (id : String) : Prop :=
  ∃ rel, c.relativeId id = .ok rel ∧ NodeId.absolute c.base rel = id

/-- Every identifier of some edges is found again. -/
def Recovers (c : Context) (edges : Table IdSet) : Prop :=
  ∀ k s, edges.find? k = some s → ∀ id, id = k ∨ id ∈ s → c.FindsAgain id

namespace Recovers

variable {c : Context} {t : Table IdSet}

theorem exists_relativeEdges (h : c.Recovers t) : ∃ es, c.relativeEdges t = .ok es := by
  refine Results.exists_mapM_eq_ok fun e he => ?_
  have hfind : t.find? e.1 = some e.2 := Table.find?_eq_some_iff.mpr (List.mem_mergeSort.mp he)
  have htargets : ∀ x ∈ e.2.toList, ∃ rel, c.relativeId x = .ok rel := fun x hx =>
    (h e.1 e.2 hfind x (.inr hx)).imp fun _ hrel => hrel.1
  obtain ⟨targets, htargets⟩ := Results.exists_mapM_eq_ok htargets
  obtain ⟨key, hkey, -⟩ := h e.1 e.2 hfind e.1 (.inl rfl)
  rw [htargets, hkey]
  exact ⟨_, rfl⟩

theorem absoluteEdges_same (h : c.Recovers t) {es : EdgeList} (hes : c.relativeEdges t = .ok es) :
    ((CodeGraph.empty c.base).absoluteEdges es).Same t := by
  refine Index.same_absoluteEdges hes fun k s hs id hid rel hrel => ?_
  obtain ⟨rel', hrel', hback⟩ := h k s hs id hid
  cases hrel'.symm.trans hrel
  exact hback

end Recovers

end Context

namespace Pass

/-- The index that a pass would leave if it ended here. -/
def index (p : Pass) : Index := ⟨p.graph, p.store, p.filter, false⟩

/-- The work on a document removes its file: the table of files has it, and it is gone. -/
def Removes (c : Context) (p : Pass) (uri : String) : Prop :=
  uri ∉ p.visited ∧ ∃ path, Uri.toPath uri = .ok path ∧ c.present path = .ok false ∧
    (p.graph.entry? (c.relative path)).isSome

theorem Updates.not_removes {c : Context} {p : Pass} {uri : String} (h : Updates c p uri) :
    ¬Removes c p uri := by
  obtain ⟨-, d, path, m, hreads, -⟩ := h
  rintro ⟨-, path', hpath, habsent, -⟩
  cases hreads.path.symm.trans hpath
  cases (Context.present_of_reads hreads).symm.trans habsent

/-- The item of a document that is entered ends with a save. -/
theorem Updates.saved {c : Context} {full : Bool} {p p' : Pass} {q : Path} (hq : q.Resolved)
    (h : Updates c p (Uri.ofResolved q)) (hitem : item c full p (Uri.ofResolved q) = (p', .ok ())) :
    p'.index.Saved c := by
  obtain ⟨hnew, d, path, m, hreads, hstale, hmap, hnodes⟩ := h
  obtain ⟨ids, p₁, done, -, -, hgathered, hne, hfinish⟩ :=
    entered_item_of_stale hq hreads hstale hmap hnodes hnew hitem
  obtain ⟨docs, imports, exports, hfinished⟩ := finish_eq_ok hgathered.collected hne hfinish
  obtain ⟨new, -, -, hfile⟩ := Store.save_eq_ok hfinished.saved
  obtain ⟨reports, hpass⟩ := hfinished.pass_eq
  have hgraph : p'.index.graph = p₁.graph := by
    rw [hpass]
    rfl
  refine ⟨imports, exports, ?_, ?_, ?_⟩
  · rw [hgraph]
    exact hfinished.imports_eq
  · rw [hgraph]
    exact hfinished.exports_eq
  · rw [hgraph]
    exact hfile

/-- An item that enters nothing leaves the snapshot alone, and the graph unless it removes a file. -/
theorem unsaved_item {c : Context} {full : Bool} {p p' : Pass} {uri : String}
    (hidle : ¬Updates c p uri) (hitem : item c full p uri = (p', .ok ())) :
    p'.store.graphFile = p.store.graphFile ∧
      (¬Removes c p uri ∧ p'.graph = p.graph ∨
        Removes c p uri ∧ ∃ k, (p.graph.entry? k).isSome ∧ p'.graph = p.graph.remove k) := by
  cases worked_of_item hitem with
  | seen hseen => exact ⟨rfl, .inl ⟨fun h => h.1 hseen, rfl⟩⟩
  | @gone path _ _ hpath habsent hdrop hnew =>
    obtain ⟨hgraph, hstore⟩ := drop_eq_ok hdrop
    refine ⟨by rw [hstore]; rfl, ?_⟩
    cases hentry : p.graph.entry? (c.relative path) with
    | none =>
      refine .inl ⟨?_, ?_⟩
      · rintro ⟨-, path', hpath', -, hsome⟩
        cases hpath.symm.trans hpath'
        rw [hentry] at hsome
        cases hsome
      · rw [hgraph, CodeGraph.remove, hentry]
    | some e =>
      have hsome : (p.graph.entry? (c.relative path)).isSome := by
        rw [hentry]
        rfl
      exact .inr ⟨⟨hnew, path, hpath, habsent, hsome⟩, _, hsome, hgraph⟩
  | blank walks _ hpresent =>
    obtain ⟨hgraph, hstore, -⟩ := idle_walk hidle walks
    refine ⟨by rw [hstore], .inl ⟨?_, hgraph⟩⟩
    rintro ⟨-, path, hpath, habsent, -⟩
    cases (hpresent path hpath).symm.trans habsent
  | finished walks nodes => exact absurd (idle_walk hidle walks).2.2 nodes

/-- Some item of a batch enters its document. -/
def Updated (c : Context) (full : Bool) : Pass → List String → Prop
  | _, [] => False
  | p, uri :: rest => Updates c p uri ∨ Updated c full (item c full p uri).1 rest

/-- Some item of a batch removes a file, and no later one enters its document. -/
def Dangling (c : Context) (full : Bool) : Pass → List String → Prop
  | _, [] => False
  | p, uri :: rest =>
    (Removes c p uri ∧ ¬Updated c full (item c full p uri).1 rest) ∨
      Dangling c full (item c full p uri).1 rest

/-- A batch in which nothing is entered leaves the snapshot alone; files only go, and they do if a
removal is left dangling. -/
structure Trails (c : Context) (full : Bool) (p : Pass) (uris : List String) (p' : Pass) : Prop where
  workspace : p'.graph.workspace = p.graph.workspace
  file : p'.store.graphFile = p.store.graphFile
  absent : ∀ k, p.graph.entry? k = none → p'.graph.entry? k = none
  kept : ¬Dangling c full p uris → p'.graph = p.graph
  lost : Dangling c full p uris → ∃ k, (p.graph.entry? k).isSome ∧ p'.graph.entry? k = none

theorem Trails.of_item {c : Context} {full : Bool} {p p₁ p' : Pass} {uri : String} {rest : List String}
    (hidle : ¬Updates c p uri) (hitem : item c full p uri = (p₁, .ok ()))
    (hrest : ¬Updated c full p₁ rest) (h : Trails c full p₁ rest p') :
    Trails c full p (uri :: rest) p' := by
  obtain ⟨hfile, hgraph⟩ := unsaved_item hidle hitem
  have hdangling : Dangling c full p (uri :: rest) ↔ Removes c p uri ∨ Dangling c full p₁ rest := by
    rw [Dangling, hitem, and_iff_left hrest]
  rcases hgraph with ⟨hremoves, hgraph⟩ | ⟨hremoves, k, hk, hgraph⟩
  · rw [or_iff_right hremoves] at hdangling
    refine ⟨?_, h.file.trans hfile, ?_, fun hnot => ?_, fun hd => ?_⟩
    · rw [h.workspace, hgraph]
    · rw [← hgraph]
      exact h.absent
    · rw [h.kept fun hd => hnot (hdangling.mpr hd), hgraph]
    · rw [← hgraph]
      exact h.lost (hdangling.mp hd)
  · have hentry : ∀ k', p₁.graph.entry? k' = if k' = k then none else p.graph.entry? k' := by
      intro k'
      rw [hgraph]
      exact CodeGraph.find?_files_remove _ _ _
    refine ⟨?_, h.file.trans hfile, fun k' hnone => h.absent k' ?_, fun hnot => ?_, fun _ => ?_⟩
    · rw [h.workspace, hgraph, CodeGraph.workspace_remove]
    · rw [hentry, hnone, ite_self]
    · exact absurd (hdangling.mpr (.inl hremoves)) hnot
    · exact ⟨k, hk, h.absent k (by rw [hentry, if_pos rfl])⟩

theorem items_cons {c : Context} {full : Bool} {p p' : Pass} {uri : String} {rest : List String}
    (h : attempt c full p uri = (p', .ok ())) :
    items c full p (uri :: rest) = items c full p' rest := by
  rw [items, h]
  rfl

theorem trails_items {c : Context} {full : Bool} {p : Pass} {uris : List String}
    (hclean : Clean c full p uris) (h : ¬Updated c full p uris) :
    Trails c full p uris (items c full p uris).1 := by
  induction uris generalizing p with
  | nil => exact ⟨rfl, rfl, fun _ h => h, fun _ => rfl, False.elim⟩
  | cons uri rest ih =>
    obtain ⟨p', hitem, hattempt, hclean⟩ := hclean.head
    rw [Updated, hitem, not_or] at h
    rw [items_cons hattempt]
    exact (ih hclean h.2).of_item h.1 hitem h.2

/-- After such a batch the snapshot is in step exactly if it was and no removal is left dangling. -/
theorem Trails.inStep_iff {c : Context} {full : Bool} {p p' : Pass} {uris : List String}
    (h : Trails c full p uris p') (hfiles : p.index.reopen.1.graph.files.Same p.graph.files) :
    p'.index.InStep ↔ ¬Dangling c full p uris ∧ p.index.InStep := by
  have hkept : ¬Dangling c full p uris → (p'.index.InStep ↔ p.index.InStep) :=
    fun hnot => Index.inStep_congr (h.kept hnot) h.file
  by_cases hdangling : Dangling c full p uris
  · refine iff_of_false ?_ fun hin => hin.1 hdangling
    rintro ⟨-, hsame, -⟩
    obtain ⟨k, hk, hnone⟩ := h.lost hdangling
    have hreopen : p'.index.reopen.1.graph = p.index.reopen.1.graph :=
      (Index.reopen_congr h.workspace h.file).1
    rw [hreopen] at hsame
    have hfind : p.graph.entry? k = none := (hfiles k).symm.trans ((hsame k).trans hnone)
    rw [hfind] at hk
    cases hk
  · rw [hkept hdangling, and_iff_right hdangling]

/-- A batch in which something is entered. What came before its last save does not matter. -/
theorem inStep_items_of_updated {c : Context} {full : Bool} {p : Pass} {uris : List String}
    (hbatch : ∀ u ∈ uris, ∃ q : Path, q.Resolved ∧ u = Uri.ofResolved q)
    (hclean : Clean c full p uris) (h : Updated c full p uris) :
    (items c full p uris).1.index.InStep ↔
      ¬Dangling c full p uris ∧ Index.Restorable c (items c full p uris).1.graph := by
  induction uris generalizing p with
  | nil => exact h.elim
  | cons uri rest ih =>
    obtain ⟨p', hitem, hattempt, htail⟩ := hclean.head
    rw [Updated, hitem] at h
    rw [Dangling, hitem, items_cons hattempt]
    by_cases hrest : Updated c full p' rest
    · rw [ih (fun u hu => hbatch u (List.mem_cons_of_mem _ hu)) htail hrest]
      simp [hrest]
    · have hupdates := h.resolve_right hrest
      obtain ⟨q, hq, rfl⟩ := hbatch uri (by simp)
      have hsaved := hupdates.saved hq hitem
      have htrails := trails_items htail hrest
      rw [htrails.inStep_iff hsaved.files_same, hsaved.inStep_iff]
      simp only [hupdates.not_removes, false_and, false_or]
      refine and_congr_right fun hnot => ?_
      rw [htrails.kept hnot]
      rfl

end Pass

namespace Index

theorem inStep_process_iff {c : Context} {i : Index} {uris : List String} {full : Bool} :
    (i.process c uris full).1.InStep ↔ (Pass.items c full (.start i) uris).1.index.InStep := by
  obtain ⟨hgraph, hstore⟩ := process_eq c i uris full
  exact inStep_congr hgraph (congrArg Store.graphFile hstore)

theorem saved_deleteFile {c : Context} {i : Index} {path : String}
    (h : (i.deleteFile c path).2.result = .ok ()) : (i.deleteFile c path).1.Saved c := by
  obtain ⟨hgraph, imports, exports, himports, hexports, hsave⟩ := deleteFile_eq_ok h
  obtain ⟨new, -, -, hfile⟩ := Store.save_eq_ok hsave
  unfold Saved
  rw [hgraph]
  exact ⟨imports, exports, himports, hexports, hfile⟩

/-- Where the snapshot is in step, a batch without failures keeps it so exactly if no removal of a
file is left without a later save and the edges that are saved can be restored. The removal of a file
on its own saves. -/
theorem inStep_after_call {c : Context} {i : Index} (h : i.InStep) :
    (∀ uris full, (∀ u ∈ uris, ∃ file, Uri.ofPath c.workspace.cwd file = .ok u) →
      Pass.Clean c full (.start i) uris →
      ((i.process c uris full).1.InStep ↔ ¬Pass.Dangling c full (.start i) uris ∧
        (Pass.Updated c full (.start i) uris → Restorable c (i.process c uris full).1.graph))) ∧
    ∀ path, (i.deleteFile c path).2.result = .ok () →
      ((i.deleteFile c path).1.InStep ↔ Restorable c (i.graph.remove path)) := by
  constructor
  · intro uris full huris hclean
    rw [inStep_process_iff, (process_eq c i uris full).1]
    by_cases hupdated : Pass.Updated c full (.start i) uris
    · have hbatch : ∀ u ∈ uris, ∃ q : Path, q.Resolved ∧ u = Uri.ofResolved q := by
        intro u hu
        obtain ⟨file, hfile⟩ := huris u hu
        exact ⟨_, Path.resolved_resolve _ _, Uri.eq_of_ofPath hfile⟩
      rw [Pass.inStep_items_of_updated hbatch hclean hupdated, forall_prop_of_true hupdated]
    · have hstart : (Pass.start i).index.InStep := by
        have hsame : (Pass.start i).index.InStep ↔ i.InStep := inStep_congr rfl rfl
        exact hsame.mpr h
      rw [(Pass.trails_items hclean hupdated).inStep_iff hstart.2.1]
      simp [hupdated, hstart]
  · intro path hdone
    rw [(saved_deleteFile hdone).inStep_iff, (deleteFile_eq_ok hdone).1]

/-- `a.py` is indexed with the module that it imports. -/
theorem inStep_after_call_import :
    let c := sampleContext [("a.py", "import b\n"), ("b.py", "y\n")] ""
    let i := make c.base (.empty "graph.json" 4) "b.py" []
    (i.process c ["file:///tmp/w/ws/a.py"] false).1.InStep := by
  intro c i
  have huris : ∀ u ∈ ["file:///tmp/w/ws/a.py"], ∃ file, Uri.ofPath c.workspace.cwd file = .ok u := by
    intro u hu
    rw [List.mem_singleton.mp hu]
    exact ⟨⟨.root, ["tmp", "w", "ws", "a.py"]⟩, by decide +kernel⟩
  have hclean : Pass.Clean c false (.start i) ["file:///tmp/w/ws/a.py"] := by decide +kernel
  refine ((inStep_after_call (by decide +kernel)).1 _ _ huris hclean).mpr ⟨?_, fun _ => ?_⟩
  · rintro (⟨⟨-, path, -, -, hentry⟩, -⟩ | hnone)
    · cases hentry
    · exact hnone
  have hrel : c.relativeId "file:///tmp/w/ws/a.py" = .ok "a.py" ∧
      c.relativeId "file:///tmp/w/ws/b.py" = .ok "b.py" := by decide +kernel
  have hgraph : (i.process c ["file:///tmp/w/ws/a.py"] false).1.graph.workspace =
        ⟨.root, ["tmp", "w", "ws"]⟩ ∧
      (i.process c ["file:///tmp/w/ws/a.py"] false).1.graph.imports =
        Table.empty.put "file:///tmp/w/ws/a.py" (.ofList ["file:///tmp/w/ws/b.py"]) ∧
      (i.process c ["file:///tmp/w/ws/a.py"] false).1.graph.exports =
        Table.empty.put "file:///tmp/w/ws/b.py" (.ofList ["file:///tmp/w/ws/a.py"]) := by decide +kernel
  generalize (i.process c ["file:///tmp/w/ws/a.py"] false).1.graph = g at hgraph ⊢
  obtain ⟨hworkspace, himports, hexports⟩ := hgraph
  have hback : ∀ id, id = "file:///tmp/w/ws/a.py" ∨ id = "file:///tmp/w/ws/b.py" →
      ∀ rel, c.relativeId id = .ok rel → g.absolute rel = id := by
    intro id hid rel h
    rw [CodeGraph.absolute, hworkspace]
    rcases hid with rfl | rfl
    · cases hrel.1.symm.trans h
      decide +kernel
    · cases hrel.2.symm.trans h
      decide +kernel
  refine ⟨fun es hes => same_absoluteEdges hes fun k s hk id hid => hback id ?_,
    fun es hes => same_absoluteEdges hes fun k s hk id hid => hback id ?_⟩
  · simp only [himports, Table.find?_put, Table.find?_empty, Option.ite_none_right_eq_some,
      Option.some.injEq] at hk
    obtain ⟨rfl, rfl⟩ := hk
    simpa using hid
  · simp only [hexports, Table.find?_put, Table.find?_empty, Option.ite_none_right_eq_some,
      Option.some.injEq] at hk
    obtain ⟨rfl, rfl⟩ := hk
    simpa [or_comm] using hid

/-- `a.py` is indexed and then gone. A pass takes it out of the graph, but not out of the snapshot. -/
theorem not_inStep_after_removal :
    let uri := "file:///tmp/w/ws/a.py"
    let before := sampleContext [("a.py", "x = 1\n")] ""
    let after := sampleContext [] ""
    let i := ((make before.base (.empty "graph.json" 4) "a.py" []).process before [uri] false).1
    i.InStep ∧ Pass.Clean after false (.start i) [uri] ∧ ¬(i.process after [uri] false).1.InStep := by
  decide +kernel

end Index

end OutlineIndex
