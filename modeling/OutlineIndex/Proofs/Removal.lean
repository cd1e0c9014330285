import OutlineIndex.Proofs.Reachable
import OutlineIndex.Proofs.Registry

namespace OutlineIndex

namespace CodeGraph

/-- An identifier is the absolute form of one that an entry lists. -/
def Lists (g : CodeGraph) (e : FileEntry) (x : String) : Prop := ∃ id ∈ e.nodeIds, g.absolute id = x

/-- A table of edges without some identifiers. A key without targets is left out, also one that had none
before. -/
structure Cleared (gone : String → Prop) (t t' : Table IdSet) : Prop where
  key : ∀ k, gone k → t'.find? k = none
  target : ∀ k s, t'.find? k = some s → ∀ x ∈ s, ¬gone x
  left : ∀ k s, t'.find? k = some s → ∀ x, x ∈ s ↔ x ∈ (t.find? k).getD .empty ∧ ¬gone x
  absent : ∀ k, ¬gone k → (t'.find? k = none ↔ ∀ x ∈ (t.find? k).getD .empty, gone x)

/-- A graph without the file at `path`, which had the entry `e`. -/
structure Forgets (g : CodeGraph) (path : String) (e : FileEntry) (g' : CodeGraph) : Prop where
  imports : Cleared (g.Lists e) g.imports g'.imports
  exports : Cleared (g.Lists e) g.exports g'.exports
  entry : g'.entry? path = none
  entries : ∀ k, k ≠ path → g'.entry? k = g.entry? k
  nodes : ∀ k, g.Lists e k → g'.node? k = none
  others : ∀ k, ¬g.Lists e k → g'.node? k = g.node? k
  again : g'.remove path = g'

theorem find?_cleared (t : Table IdSet) (ids : IdSet) (k : String) :
    (withoutTargets (t.filter fun k _ => !ids.contains k) ids).find? k =
      if k ∈ ids then none else ((t.find? k).map (·.sdiff ids)).filter fun s => !s.isEmpty := by
  rw [find?_withoutTargets, find?_filter_contains]
  split <;> rfl

theorem cleared_withoutTargets (t : Table IdSet) (ids : IdSet) :
    Cleared (· ∈ ids) t (withoutTargets (t.filter fun k _ => !ids.contains k) ids) := by
  have hleft : ∀ k s, (withoutTargets (t.filter fun k _ => !ids.contains k) ids).find? k = some s →
      ∀ x, x ∈ s ↔ x ∈ (t.find? k).getD .empty ∧ x ∉ ids := by
    intro k s hs x
    rw [find?_cleared] at hs
    split at hs
    · cases hs
    · obtain ⟨hs, -⟩ := Option.filter_eq_some_iff.mp hs
      obtain ⟨old, hold, rfl⟩ := Option.map_eq_some_iff.mp hs
      rw [hold]
      exact IdSet.mem_sdiff
  refine ⟨fun k hk => ?_, fun k s hs x hx => ((hleft k s hs x).mp hx).2, hleft, fun k hk => ?_⟩
  · rw [find?_cleared, if_pos hk]
  · rw [find?_cleared, if_neg hk]
    cases t.find? k with
    | none => simp
    | some old =>
      have hempty : (old.sdiff ids).isEmpty = true ↔ ∀ x ∈ old, x ∈ ids := by
        rw [IdSet.isEmpty_iff]
        simp only [IdSet.mem_sdiff, not_and, not_not]
      simp [Option.filter, hempty]

/-- A removal leaves the graph without the file. -/
theorem forgets_remove {g : CodeGraph} {path : String} {e : FileEntry} (he : g.entry? path = some e) :
    g.Forgets path e (g.remove path) := by
  have hlists : (· ∈ g.listed path) = g.Lists e := by
    funext x
    rw [mem_listed, he]
    simp [Lists]
  have hnode := node?_apply_remove g path
  have hentry : entry? (g.remove path) path = none :=
    (find?_files_remove g path path).trans (if_pos rfl)
  refine ⟨?_, ?_, hentry, fun k hk => ?_, fun k hk => ?_, fun k hk => ?_, ?_⟩
  · rw [imports_remove, he, ← hlists]
    exact cleared_withoutTargets g.imports (g.listed path)
  · rw [exports_remove, he, ← hlists]
    exact cleared_withoutTargets g.exports (g.listed path)
  · exact (find?_files_remove g path k).trans (if_neg hk)
  · rw [← hlists] at hk
    exact (hnode k).trans (if_pos hk)
  · rw [← hlists] at hk
    exact (hnode k).trans (if_neg hk)
  · rw [remove.eq_def (g.remove path), hentry]

end CodeGraph

/-- The URI of a path of the workspace where nothing is. -/
def Context.Lacks (c : Context) (uri path : String) : Prop :=
  ∃ file, Uri.toPath uri = .ok file ∧ c.present file = .ok false ∧ c.relative file = path

namespace Store

/-- The rows that are left when those of a file are deleted by their identifiers. -/
structure Without (path : String) (rows rows' : List Row) : Prop where
  gone : ∀ r ∈ rows', r.filePath ≠ path
  left : rows' = rows.filter fun r => decide (∀ r' ∈ rows, r'.filePath = path → r'.id ≠ r.id)
  untouched : rows' = rows.filter (fun r => decide (r.filePath ≠ path)) ↔
    ∀ r ∈ rows, ∀ r' ∈ rows, r'.filePath = path → r'.id = r.id → r.filePath = path

/-- The rows of other files are untouched exactly if none shares its identifier with a row of the
file. -/
theorem without_deleteDocuments (s : Store) (path : String) :
    Without path s.rows (s.deleteDocuments ((s.findByPath [path]).map (·.id))).rows := by
  have hrows : (s.deleteDocuments ((s.findByPath [path]).map (·.id))).rows =
      s.rows.filter fun r => decide (∀ r' ∈ s.rows, r'.filePath = path → r'.id ≠ r.id) := by
    rw [rows_deleteDocuments]
    refine List.filter_congr fun r _ => ?_
    rw [Bool.eq_iff_iff, Bool.not_eq_true', ← Bool.not_eq_true, List.contains_iff_mem,
      mem_ids_findByPath, decide_eq_true_iff]
    simp only [not_exists, not_and, ne_eq]
  refine ⟨fun r hr hpath => ?_, hrows, ?_⟩
  · rw [hrows, List.mem_filter, decide_eq_true_iff] at hr
    exact hr.2 r hr.1 hpath rfl
  · rw [hrows]
    constructor
    · intro heq r hr r' hr' hpath hid
      by_contra hother
      have hkept : r ∈ s.rows.filter (fun r => decide (r.filePath ≠ path)) :=
        List.mem_filter.mpr ⟨hr, decide_eq_true hother⟩
      rw [← heq, List.mem_filter, decide_eq_true_iff] at hkept
      exact hkept.2 r' hr' hpath hid
    · intro hshared
      refine List.filter_congr fun r hr => ?_
      rw [decide_eq_decide]
      constructor
      · intro hnone hpath
        exact hnone r hr hpath rfl
      · intro hother r' hr' hpath hid
        exact hother (hshared r hr r' hr' hpath hid)

theorem rows_congr {s s' : Store} (h : s.table = s'.table) : s.rows = s'.rows := by
  rw [rows, rows, h]

theorem table_save_nil (s : Store) (imports exports : EdgeList) (files : Table FileEntry) :
    (s.save [] imports exports files true).1.table = s.table := by
  change (s.writeGraph _).1.table = s.table
  unfold writeGraph
  split <;> rfl

/-- Each row has the file path that its identifier stands for. -/
def Named (cwd base : Path) (s : Store) : Prop :=
  ∀ r ∈ s.rows, NodeId.filePath cwd base r.id = .ok r.filePath

theorem Named.mono {cwd base : Path} {s s' : Store} (h : s.Named cwd base)
    (hrows : ∀ r ∈ s'.rows, r ∈ s.rows) : s'.Named cwd base := fun r hr => h r (hrows r hr)

theorem Named.deleteDocuments {cwd base : Path} {s : Store} (h : s.Named cwd base) (ids : List String) :
    (s.deleteDocuments ids).Named cwd base :=
  h.mono fun _ hr => (mem_rows_deleteDocuments.mp hr).1

/-- With the file paths of their identifiers, rows of one identifier are rows of one file. -/
theorem Without.eq_filter {cwd base : Path} {path : String} {s : Store} {rows' : List Row}
    (h : Without path s.rows rows') (hnamed : s.Named cwd base) :
    rows' = s.rows.filter fun r => decide (r.filePath ≠ path) := by
  refine h.untouched.mpr fun r hr r' hr' hpath hid => ?_
  have hfile := hnamed r hr
  rw [← hid, hnamed r' hr', hpath] at hfile
  exact (Except.ok.inj hfile).symm

end Store

namespace Pass

/-- A pass that comes to a missing file drops it, and the failure of a listener does not end the
pass. -/
theorem attempt_missing {c : Context} (full : Bool) {p : Pass} {uri : String} {file : Path}
    (hnew : uri ∉ p.visited) (huri : Uri.toPath uri = .ok file) (habsent : c.present file = .ok false) :
    (attempt c full p uri).2 = .ok () ∧ ∃ p' reports, Dropped c p file p' ∧
      (attempt c full p uri).1 = p'.report reports := by
  have hitem : item c full p uri = drop c p file := by
    unfold item
    rw [if_neg (by simpa using hnew), huri]
    dsimp only [Except.mapError]
    rw [habsent]
  cases hdrop : drop c p file with
  | mk p' r =>
    have hdropped : Dropped c p file p' := dropped_of_drop hdrop
    rw [attempt, hitem, hdrop]
    cases r with
    | ok _ => exact ⟨rfl, p', [], hdropped, by simp [report]⟩
    | error e =>
      obtain rfl : e = .listener := by
        unfold drop notifyRemoved at hdrop
        dsimp only at hdrop
        split at hdrop <;> cases hdrop
        rfl
      exact ⟨rfl, p', _, hdropped, rfl⟩

/-- The rows that an item saves have the file paths of their identifiers. -/
theorem invariant_named (c : Context) (full : Bool) : Invariant c full (fun _ => True) (fun _ => True)
    fun p => p.store.Named c.workspace.cwd c.base where
  batch _ _ _ := trivial
  found _ _ _ _ _ := trivial
  visit p uri p' _ _ _ hvisit h := by
    have hquiet : ∀ {p'}, Quiet c (p.mark uri) p' → p'.store.Named c.workspace.cwd c.base := by
      intro p' quiet
      rw [quiet.store]
      exact h
    cases outcome_of_visit hvisit with
    | idle quiet => exact hquiet quiet
    | blank quiet => exact hquiet quiet
    | failed quiet => exact hquiet quiet
    | entered quiet => exact (hquiet quiet).deleteDocuments _
  finish p nodes p' _ hnodes hfinish h row hrow := by
    rcases mem_rows_finish (readable_of_reads hnodes) hfinish hrow with hold | ⟨n, -, hid, hpath⟩
    · exact h row hold
    · rw [hid]
      exact Results.mapError_eq_ok.mp hpath
  drop p _ _ p' _ _ _ _ hdrop h := by
    have hdropped := dropped_of_drop hdrop
    rw [hdropped.store]
    exact h.deleteDocuments _
  report _ _ h := h

end Pass

namespace Index

/-- An index without the file at a path, as it comes from another one. -/
structure WithoutFile (i : Index) (path : String) (i' : Index) : Prop where
  graph : i'.graph = i.graph.remove path
  rows : Store.Without path i.store.rows i'.store.rows

/-- Whether or not the graph can be saved afterwards, the file is gone. -/
theorem deleteFile_eq (c : Context) (i : Index) (path : String) :
    (i.deleteFile c path).1.graph = i.graph.remove path ∧ (i.deleteFile c path).1.store.table =
      (i.store.deleteDocuments ((i.store.findByPath [path]).map (·.id))).table := by
  unfold deleteFile Pass.commit
  dsimp only
  split
  · exact ⟨rfl, rfl⟩
  · exact ⟨rfl, rfl⟩
  · exact ⟨rfl, Store.table_save_nil _ _ _ _⟩

theorem process_missing {c : Context} {uri path : String} (h : c.Lacks uri path) (i : Index)
    (full : Bool) : (i.process c [uri] full).2.result = .ok () ∧
      (i.process c [uri] full).1.graph = i.graph.remove path ∧ (i.process c [uri] full).1.store =
        i.store.deleteDocuments ((i.store.findByPath [path]).map (·.id)) := by
  obtain ⟨file, huri, habsent, rfl⟩ := h
  obtain ⟨hok, p, reports, hdropped, hp⟩ :=
    Pass.attempt_missing full (p := .start i) List.not_mem_nil huri habsent
  obtain ⟨hgraph, hstore⟩ := process_eq c i [uri] full
  rw [hgraph, hstore, Pass.items_singleton, hp]
  refine ⟨?_, hdropped.graph, hdropped.store⟩
  rw [process, Pass.items_singleton]
  exact hok

theorem Reachable.named {cwd root : Path} {b : Backend} {U : String → Prop}
    {W : Context → FileFilter → Prop} {i : Index} (h : Reachable cwd root b U W i) :
    i.store.Named cwd (Path.resolve cwd root) := by
  have hprocess : ∀ (i : Index) (c : Context) uris full, c.workspace.cwd = cwd →
      c.workspace.root = root → i.store.Named cwd (Path.resolve cwd root) →
      (i.process c uris full).1.store.Named cwd (Path.resolve cwd root) := by
    rintro i c uris full rfl rfl hi
    rw [(process_eq c i uris full).2]
    exact (Pass.invariant_named c full).items (fun _ _ => trivial) hi
  induction h with
  | start => rintro _ ⟨⟩
  | process _ hcwd hroot _ _ _ ih => exact hprocess _ _ _ _ hcwd hroot ih
  | @build i c _ hcwd hroot _ _ ih =>
    unfold Index.build
    dsimp only
    split
    · exact ih
    · exact hprocess _ _ _ _ hcwd hroot ih
  | @deleteFile i c path _ _ ih =>
    refine (ih.deleteDocuments ((i.store.findByPath [path]).map (·.id))).mono fun r hr => ?_
    rw [Store.rows_congr (deleteFile_eq c i path).2] at hr
    exact hr
  | @load i _ ih =>
    have hstore : i.load.1.store = i.store := by
      unfold Index.load
      dsimp only
      repeat' split
      all_goals rfl
    rw [hstore]
    exact ih
  | store _ _ _ ih => exact ih
  | filter _ _ ih => exact ih

/-- A removal takes from the graph what is of the file and nothing else. A call for it and a pass over
the URI of the missing file leave the same graph and the same rows, and none of the file. The rows of
other files are all left, unless one has the identifier of a row of the file; no index that can be
reached has such a row. -/
theorem removal_exact (i : Index) (path : String) :
    (∀ e, i.graph.entry? path = some e → i.graph.Forgets path e (i.graph.remove path)) ∧
      (∀ c, i.WithoutFile path (i.deleteFile c path).1) ∧
      (∀ c c' uri full, c.Lacks uri path → (i.process c [uri] full).2.result = .ok () ∧
        i.WithoutFile path (i.process c [uri] full).1 ∧
        (i.process c [uri] full).1.graph = (i.deleteFile c' path).1.graph ∧
        (i.process c [uri] full).1.store.table = (i.deleteFile c' path).1.store.table) ∧
      ∀ cwd root b U W, Reachable cwd root b U W i → ∀ i', i.WithoutFile path i' →
        i'.store.rows = i.store.rows.filter fun r => decide (r.filePath ≠ path) := by
  have hdeleted := fun c => deleteFile_eq c i path
  refine ⟨fun e he => CodeGraph.forgets_remove he, fun c => ⟨(hdeleted c).1, ?_⟩,
    fun c c' uri full hlacks => ?_, fun cwd root b U W hreachable i' hwithout => ?_⟩
  · rw [Store.rows_congr (hdeleted c).2]
    exact i.store.without_deleteDocuments path
  · obtain ⟨hok, hgraph, hstore⟩ := process_missing hlacks i full
    refine ⟨hok, ⟨hgraph, ?_⟩, hgraph.trans (hdeleted c').1.symm, ?_⟩
    · rw [hstore]
      exact i.store.without_deleteDocuments path
    · rw [hstore, (hdeleted c').2]
  · exact hwithout.rows.eq_filter hreachable.named

/-- `a.py` imports `b.py`, which is then gone. -/
theorem removal_exact_imported :
    let a := "file:///tmp/w/ws/a.py"
    let b := "file:///tmp/w/ws/b.py"
    let cwd : Path := ⟨.root, ["tmp", "w"]⟩
    let root : Path := ⟨.root, ["tmp", "w", "ws"]⟩
    let before := sampleContext [("a.py", "import b\n"), ("b.py", "x\n")] ""
    let after := sampleContext [("a.py", "import b\n")] ""
    let i := ((make (Path.resolve cwd root) (.empty "graph.json" 4) "b.py" []).process before [a] false).1
    (∃ e, i.graph.entry? "b.py" = some e ∧ i.graph.Lists e b ∧
      i.graph.Forgets "b.py" e (i.graph.remove "b.py")) ∧ i.graph.Imports a b ∧ after.Lacks b "b.py" ∧
      i.store.rows.map (·.filePath) = ["a.py", "b.py"] ∧ i.WithoutFile "b.py" (i.process after [b] false).1 ∧
      (i.process after [b] false).1.store.table = (i.deleteFile after "b.py").1.store.table ∧
      (i.process after [b] false).1.store.rows =
        i.store.rows.filter fun r => decide (r.filePath ≠ "b.py") := by
  intro a b cwd root before after i
  have hreachable : Reachable cwd root .tolerant (· = a) (fun _ _ => True) i :=
    .process (.start _ _ _ _) rfl rfl rfl trivial fun _ hu => List.mem_singleton.mp hu
  have hindexed : (∃ e ∈ i.graph.entry? "b.py", ∃ id ∈ e.nodeIds.toList, i.graph.absolute id = b) ∧
      i.graph.Imports a b ∧ i.store.rows.map (·.filePath) = ["a.py", "b.py"] := by decide +kernel
  have hlacks : after.Lacks b "b.py" :=
    ⟨⟨.root, ["tmp", "w", "ws", "b.py"]⟩, by decide +kernel, by decide +kernel, by decide +kernel⟩
  clear_value i
  obtain ⟨⟨e, he, hid⟩, hedge, hrows⟩ := hindexed
  obtain ⟨hforgets, -, hprocess, hexact⟩ := removal_exact i "b.py"
  obtain ⟨-, hwithout, -, htable⟩ := hprocess after after b false hlacks
  exact ⟨⟨e, he, hid, hforgets e he⟩, hedge, hlacks, hrows, hwithout, htable,
    hexact _ _ _ _ _ hreachable _ hwithout⟩

end Index

end OutlineIndex
