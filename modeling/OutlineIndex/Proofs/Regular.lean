import OutlineIndex.Proofs.Order

namespace OutlineIndex

/-- A path that is found again by its URI, and that its relative form stands for. -/
structure Path.Ordinary (cwd base q : Path) : Prop where
  canonical : Path.Canonical cwd q
  hash_not_mem : '#' ∉ (Uri.relativePath cwd base q).toList

/-- The URI of an ordinary path. -/
def Uri.IsOrdinary (cwd base : Path) (u : String) : Prop :=
  ∃ q, Path.Ordinary cwd base q ∧ u = Uri.ofResolved q

/-- A context over a workspace, all of whose files have ordinary names. -/
structure Context.OverOrdinary (cwd root : Path) (c : Context) (f : FileFilter) : Prop where
  cwd_eq : c.workspace.cwd = cwd
  root_eq : c.workspace.root = root
  ordinary : ∀ q, c.Indexable f q → Path.Ordinary cwd (Path.resolve cwd root) q

section Identifiers

variable {cwd base q q' : Path} {f f' : String}

theorem Path.Canonical.eq_of_ofResolved_eq (h : Path.Canonical cwd q) (h' : Path.Canonical cwd q')
    (heq : Uri.ofResolved q = Uri.ofResolved q') : q = q' := by
  have hpath := h.toPath
  rw [heq, h'.toPath] at hpath
  exact (Except.ok.inj hpath).symm

theorem Path.Canonical.eq_of_relativePath_eq (hbase : base.Resolved) (h : Path.Canonical cwd q)
    (h' : Path.Canonical cwd q') (heq : Uri.relativePath cwd base q = Uri.relativePath cwd base q') :
    q = q' := by
  have hplace := Uri.resolve_eq_of_relativePath_eq hbase (h.plain_resolve cwd) (h'.plain_resolve cwd) heq
  rwa [h.resolve_eq, h'.resolve_eq] at hplace

/-- An identifier belongs to one file. -/
theorem NodeId.ofResolved_eq_of_withFragment_eq (hf : NodeId.IsFragment f) (hf' : NodeId.IsFragment f')
    (heq : NodeId.withFragment (Uri.ofResolved q) f = NodeId.withFragment (Uri.ofResolved q') f') :
    Uri.ofResolved q = Uri.ofResolved q' := by
  have hsplit := NodeId.split_ofResolved q hf.hash_not_mem
  rw [heq, NodeId.split_ofResolved q' hf'.hash_not_mem] at hsplit
  exact (Prod.mk.inj hsplit).1.symm

theorem Node.OwnedBy.uri_unique {n n' : Node} (h : n.OwnedBy (Uri.ofResolved q))
    (h' : n'.OwnedBy (Uri.ofResolved q')) (hid : n.id = n'.id) : Uri.ofResolved q = Uri.ofResolved q' := by
  obtain ⟨f, hf, hn⟩ := h.exists_fragment
  obtain ⟨f', hf', hn'⟩ := h'.exists_fragment
  exact NodeId.ofResolved_eq_of_withFragment_eq hf hf' (hn.symm.trans (hid.trans hn'))

/-- The identifiers of an ordinary path are found again from their relative forms. -/
theorem Path.Ordinary.absolute_eq (hbase : base.Resolved) (h : Path.Ordinary cwd base q)
    (hf : NodeId.IsFragment f) :
    NodeId.absolute base (NodeId.withFragment (Uri.relativePath cwd base q) f) =
      NodeId.withFragment (Uri.ofResolved q) f := by
  have hplain := h.canonical.plain_resolve cwd
  have hsplit := NodeId.split_withFragment h.hash_not_mem (NodeId.relativePath_ne_empty hplain)
    hf.hash_not_mem
  rw [NodeId.absolute_relativePath hbase hplain hsplit, h.canonical.resolve_eq]

theorem Path.Ordinary.absolute_relativePath (hbase : base.Resolved) (h : Path.Ordinary cwd base q) :
    NodeId.absolute base (Uri.relativePath cwd base q) = Uri.ofResolved q := by
  have hmodule := h.absolute_eq hbase (f := "") (.inl rfl)
  rwa [NodeId.withFragment, NodeId.withFragment, if_pos rfl, if_pos rfl] at hmodule

end Identifiers

/-- An entry lists identifiers of the file at a path, the module among them. -/
structure FileEntry.IsOf (cwd base q : Path) (e : FileEntry) : Prop where
  ordinary : Path.Ordinary cwd base q
  module : Uri.relativePath cwd base q ∈ e.nodeIds
  nodes : ∀ rel ∈ e.nodeIds, ∃ f, NodeId.IsFragment f ∧
    rel = NodeId.withFragment (Uri.relativePath cwd base q) f

theorem Context.isOf_of_parsed {c : Context} {q : Path} {d : Document} {m : CodeMap} {ids : List String}
    {sha : String} (hq : Path.Ordinary c.workspace.cwd c.base q) (hreads : c.Reads (Uri.ofResolved q) d q)
    (hm : CodeMap.ofDocument c.backend c.workspace d = .ok m) (hnodes : m.nodes.entries ≠ [])
    (hids : ((Pass.ownNodes (Uri.ofResolved q) m).mapM fun n => c.relativeId n.id) = .ok ids) :
    FileEntry.IsOf c.workspace.cwd c.base q ⟨.ofList ids, sha⟩ := by
  refine ⟨hq, ?_, fun rel hrel => ?_⟩
  · obtain ⟨n, hn, hid⟩ := Pass.exists_module hreads hm hnodes
    obtain ⟨rel, hrel, hn'⟩ := Results.exists_mem_of_mapM hids hn
    rw [hid, Context.relativeId_uri hq.canonical] at hn'
    obtain rfl := Except.ok.inj hn'
    exact IdSet.mem_ofList.mpr hrel
  · obtain ⟨n, hn, hrel'⟩ := Results.exists_of_mem_mapM hids (IdSet.mem_ofList.mp hrel)
    obtain ⟨f, hf, hid⟩ := ((Pass.mem_ownNodes hreads hm).mp hn).2.exists_fragment
    rw [Context.relativeId, hid, NodeId.toRelative_ofResolved hq.canonical.toPath hf.hash_not_mem] at hrel'
    exact ⟨f, hf, (Except.ok.inj hrel').symm⟩

namespace CodeGraph

/-- Edges between modules of ordinary paths. -/
structure Modular (cwd base : Path) (t : Table IdSet) : Prop where
  key : ∀ k, HasKey t k → Uri.IsOrdinary cwd base k
  target : ∀ k x, HasEdge t k x → Uri.IsOrdinary cwd base x

namespace Modular

variable {cwd base : Path} {t t' : Table IdSet}

theorem congr (h : Modular cwd base t) (hsame : t'.Same t) : Modular cwd base t' := by
  refine ⟨fun k hk => h.key k ?_, fun k x hx => h.target k x ?_⟩
  · rw [HasKey, ← hsame k]
    exact hk
  · rw [HasEdge, ← hsame k]
    exact hx

/-- All identifiers are found again from their relative forms. -/
theorem recovers {c : Context} (h : Modular c.workspace.cwd c.base t) : c.Recovers t := by
  intro k s hs id hid
  have hordinary : Uri.IsOrdinary c.workspace.cwd c.base id := by
    rcases hid with rfl | hid
    · exact h.key id (by rw [HasKey, hs]; simp)
    · exact h.target k id ⟨s, hs, hid⟩
  obtain ⟨q, hq, rfl⟩ := hordinary
  exact ⟨_, Context.relativeId_uri hq.canonical, hq.absolute_relativePath c.resolved_base⟩

end Modular

/-- All that the graph has is under identifiers of ordinary paths, and only files in the table import
anything. -/
structure Regular (cwd base : Path) (g : CodeGraph) : Prop where
  workspace : g.workspace = base
  entries : ∀ path e, g.entry? path = some e →
    ∃ q, path = Uri.relativePath cwd base q ∧ e.IsOf cwd base q
  imports : Modular cwd base g.imports
  exports : Modular cwd base g.exports
  indexed : ∀ q, Path.Ordinary cwd base q → HasKey g.imports (Uri.ofResolved q) →
    g.entry? (Uri.relativePath cwd base q) ≠ none

theorem regular_empty (cwd base : Path) : (CodeGraph.empty base).Regular cwd base where
  workspace := rfl
  entries _ _ h := by cases h
  imports := ⟨fun _ h => absurd rfl h, fun _ _ ⟨_, h, _⟩ => by cases h⟩
  exports := ⟨fun _ h => absurd rfl h, fun _ _ ⟨_, h, _⟩ => by cases h⟩
  indexed _ _ h := absurd rfl h

namespace Regular

variable {cwd base : Path} {g g' : CodeGraph} {q q' : Path}

theorem congr (h : g.Regular cwd base) (hworkspace : g'.workspace = base) (hsame : g'.Matches g) :
    g'.Regular cwd base := by
  obtain ⟨hfiles, himports, hexports⟩ := hsame
  refine ⟨hworkspace, fun path e he => ?_, h.imports.congr himports, h.exports.congr hexports,
    fun q hq hkey => ?_⟩
  · exact h.entries path e ((hfiles path).symm.trans he)
  · rw [HasKey, himports] at hkey
    rw [CodeGraph.entry?, hfiles]
    exact h.indexed q hq hkey

/-- What is listed for a file are identifiers of the file. -/
theorem of_mem_listed (h : g.Regular cwd base) (hbase : base.Resolved) (hq : Path.Canonical cwd q)
    {x : String} (hx : x ∈ g.listed (Uri.relativePath cwd base q)) :
    ∃ f, NodeId.IsFragment f ∧ x = NodeId.withFragment (Uri.ofResolved q) f := by
  obtain ⟨e, he, id, hid, rfl⟩ := mem_listed.mp hx
  obtain ⟨q', heq, hof⟩ := h.entries _ e he
  obtain rfl := hq.eq_of_relativePath_eq hbase hof.ordinary.canonical heq
  obtain ⟨f, hf, rfl⟩ := hof.nodes id hid
  rw [absolute, h.workspace]
  exact ⟨f, hf, hof.ordinary.absolute_eq hbase hf⟩

/-- No file lists an identifier of another. -/
theorem not_mem_listed (h : g.Regular cwd base) (hbase : base.Resolved) (hq : Path.Canonical cwd q)
    (hq' : Path.Canonical cwd q') (hne : q ≠ q') {f : String} (hf : NodeId.IsFragment f) :
    NodeId.withFragment (Uri.ofResolved q) f ∉ g.listed (Uri.relativePath cwd base q') := by
  intro hmem
  obtain ⟨f', hf', heq⟩ := h.of_mem_listed hbase hq' hmem
  exact hne (hq.eq_of_ofResolved_eq hq' (NodeId.ofResolved_eq_of_withFragment_eq hf hf' heq))

/-- A file in the table lists its module. -/
theorem uri_mem_listed (h : g.Regular cwd base) (hbase : base.Resolved) (hq : Path.Ordinary cwd base q)
    (hentry : g.entry? (Uri.relativePath cwd base q) ≠ none) :
    Uri.ofResolved q ∈ g.listed (Uri.relativePath cwd base q) := by
  obtain ⟨e, he⟩ := Option.ne_none_iff_exists'.mp hentry
  obtain ⟨q', heq, hof⟩ := h.entries _ e he
  rw [mem_listed]
  refine ⟨e, he, Uri.relativePath cwd base q, ?_, ?_⟩
  · rw [heq]
    exact hof.module
  · rw [absolute, h.workspace]
    exact hq.absolute_relativePath hbase

/-- A document with an ordinary name is entered that refers to others of the kind. -/
theorem enter (h : g.Regular cwd base) {e : FileEntry} {m : CodeMap} (he : e.IsOf cwd base q)
    (hm : Proper base (Uri.ofResolved q) (Uri.relativePath cwd base q) e m)
    (htargets : ∀ x ∈ CodeMap.foreignSet (Uri.ofResolved q) m, Uri.IsOrdinary cwd base x) :
    (g.apply (.enter (Uri.ofResolved q) (Uri.relativePath cwd base q) e m)).Regular cwd base := by
  have hself : Uri.IsOrdinary cwd base (Uri.ofResolved q) := ⟨q, he.ordinary, rfl⟩
  have hkey : ∀ k, HasKey m.imports k → k = Uri.ofResolved q := by
    intro k hk
    obtain ⟨x, hx⟩ := hm.exists_edge hk
    exact (hm.hasEdge_imports.mp hx).1
  have hexported : ∀ k, HasKey m.exports k → k ∈ CodeMap.foreignSet (Uri.ofResolved q) m := by
    intro k hk
    rw [HasKey, hm.exports] at hk
    by_contra hout
    exact hk (if_neg hout)
  refine ⟨(workspace_apply g _).trans h.workspace, fun path e' he' => ?_, ⟨fun k hk => ?_, fun k x hx => ?_⟩,
    ⟨fun k hk => ?_, fun k x hx => ?_⟩, fun q' hq' hk => ?_⟩
  · rw [entry?_apply_enter] at he'
    split at he'
    · rename_i hpath
      cases he'
      exact ⟨q, hpath, he⟩
    · exact h.entries path e' he'
  · rcases (hasKey_enter g _ _ e m k).mp hk with hnew | ⟨hold, -⟩
    · rw [hkey k hnew]
      exact hself
    · exact h.imports.key k hold
  · rcases (hasEdge_enter g _ _ e m k x).mp hx with hnew | ⟨hold, -⟩
    · exact htargets x (hm.hasEdge_imports.mp hnew).2
    · exact h.imports.target k x hold
  · rcases hasKey_replaced.mp hk with hnew | ⟨hold, -⟩
    · exact htargets k (hexported k hnew)
    · exact h.exports.key k hold
  · rcases hasEdge_replaced.mp hx with hnew | ⟨hold, -⟩
    · rw [(hm.hasEdge_exports.mp hnew).1]
      exact hself
    · exact h.exports.target k x hold
  · rw [entry?_apply_enter]
    split
    · simp
    · rename_i hne
      rcases (hasKey_enter g _ _ e m _).mp hk with hnew | ⟨hold, -⟩
      · have hsame := hq'.canonical.eq_of_ofResolved_eq he.ordinary.canonical (hkey _ hnew)
        exact absurd (congrArg _ hsame) hne
      · exact h.indexed q' hq' hold

theorem hasKey_of_withoutTargets {t : Table IdSet} {ids : IdSet} {k : String}
    (h : HasKey (withoutTargets (t.filter fun k _ => !ids.contains k) ids) k) : HasKey t k ∧ k ∉ ids := by
  rw [HasKey, find?_withoutTargets, find?_filter_contains] at h
  by_cases hk : k ∈ ids
  · simp [hk] at h
  · refine ⟨fun hnone => ?_, hk⟩
    simp [hk, hnone] at h

/-- A file is removed with all edges from and to it. -/
theorem remove (h : g.Regular cwd base) (hbase : base.Resolved) (path : String) :
    (g.remove path).Regular cwd base := by
  by_cases hnone : g.entry? path = none
  · rw [remove_of_none hnone]
    exact h
  have hsome : (g.entry? path).isSome = true := Option.isSome_iff_ne_none.mpr hnone
  have himports := imports_remove g path
  have hexports := exports_remove g path
  rw [if_pos hsome] at himports hexports
  have hentry : ∀ k, CodeGraph.entry? (g.remove path) k = if k = path then none else g.entry? k :=
    find?_files_remove g path
  refine ⟨(workspace_remove g path).trans h.workspace, fun k e he => ?_, ⟨fun k hk => ?_, fun k x hx => ?_⟩,
    ⟨fun k hk => ?_, fun k x hx => ?_⟩, fun q hq hk => ?_⟩
  · rw [hentry] at he
    split at he
    · cases he
    · exact h.entries k e he
  · rw [himports] at hk
    exact h.imports.key k (hasKey_of_withoutTargets hk).1
  · rw [himports] at hx
    exact h.imports.target k x (hasEdge_remove.mp hx).1
  · rw [hexports] at hk
    exact h.exports.key k (hasKey_of_withoutTargets hk).1
  · rw [hexports] at hx
    exact h.exports.target k x (hasEdge_remove.mp hx).1
  · rw [himports] at hk
    obtain ⟨hold, hout⟩ := hasKey_of_withoutTargets hk
    have hindexed := h.indexed q hq hold
    rw [hentry]
    split
    · rename_i hpath
      rw [← hpath] at hout
      exact absurd (h.uri_mem_listed hbase hq hindexed) hout
    · exact hindexed

end Regular

end CodeGraph

/-- The files that documents can refer to have ordinary names. -/
def Context.OrdinaryTargets (c : Context) : Prop :=
  ∀ q, CodeMap.IsTarget c.workspace q → Path.Ordinary c.workspace.cwd c.base q

/-- A document that is entered over ordinary files leaves a regular graph regular. -/
theorem Context.regular_enter {c : Context} (hfiles : c.OrdinaryTargets) {g : CodeGraph}
    (hg : g.Regular c.workspace.cwd c.base) {q : Path} (hq : Path.Ordinary c.workspace.cwd c.base q)
    {d : Document} {m : CodeMap} {ids : List String} (hreads : c.Reads (Uri.ofResolved q) d q)
    (hm : CodeMap.ofDocument c.backend c.workspace d = .ok m) (hnodes : m.nodes.entries ≠ [])
    (hids : ((Pass.ownNodes (Uri.ofResolved q) m).mapM fun n => c.relativeId n.id) = .ok ids) :
    (g.apply (.enter (Uri.ofResolved q) (c.relative q) ⟨.ofList ids, Digest.ofText d.text⟩ m)).Regular
      c.workspace.cwd c.base := by
  refine hg.enter (isOf_of_parsed hq hreads hm hnodes hids) ?_ fun x hx => ?_
  · exact isProper_of_entering ⟨q, hq.canonical, rfl⟩ ⟨d, q, m, ids, hreads, hm, hnodes, hids, rfl⟩
  · obtain ⟨q', hq', rfl⟩ := Pass.isTarget_of_mem_foreignUris hreads hm (IdSet.mem_def.mp hx)
    exact ⟨q', hfiles q' hq', rfl⟩

namespace Index

/-- Over files with ordinary names every reachable index has a regular graph. -/
theorem lasting_regular (cwd root : Path) (b : Backend) :
    Lasting cwd root b (Uri.IsOrdinary cwd (Path.resolve cwd root)) (Context.OverOrdinary cwd root)
      (CodeGraph.Regular cwd (Path.resolve cwd root)) where
  empty := CodeGraph.regular_empty _ _
  enter := by
    intro c f g uri d path m ids _ _ _ ⟨hcwd, hroot, hordinary⟩ huri hreads hm hnodes hids hg
    subst hcwd hroot
    obtain ⟨q, hq, rfl⟩ : Uri.IsOrdinary c.workspace.cwd c.base uri := by
      rcases huri with hin | ⟨q, hq, rfl⟩
      · exact hin
      · exact ⟨q, hordinary q hq, rfl⟩
    obtain rfl : path = q := Except.ok.inj (hreads.path.symm.trans hq.canonical.toPath)
    exact Context.regular_enter (fun q' hq' => hordinary q' (.inl hq')) hg hq hreads hm hnodes hids
  remove path hg := hg.remove (Path.resolved_resolve _ _) path
  restore := by
    intro c f g imports exports ⟨hcwd, hroot, _⟩ hg himports hexports
    subst hcwd hroot
    exact hg.congr rfl ⟨Table.find?_ofList_sorted _,
      hg.imports.recovers.absoluteEdges_same himports,
      hg.exports.recovers.absoluteEdges_same hexports⟩

end Index

end OutlineIndex
