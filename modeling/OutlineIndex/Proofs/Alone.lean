import OutlineIndex.Proofs.Composition
import OutlineIndex.Proofs.Regular

namespace OutlineIndex

/-- A document can be read and parses to nodes. -/
def Context.Parses (c : Context) (u : String) (m : CodeMap) : Prop := ∃ d path,
  c.Reads u d path ∧ CodeMap.ofDocument c.backend c.workspace d = .ok m ∧ m.nodes.entries ≠ []

theorem Context.Parses.unique {c : Context} {u : String} {m m' : CodeMap} (h : c.Parses u m)
    (h' : c.Parses u m') : m = m' := by
  obtain ⟨d, path, hreads, hm, -⟩ := h
  obtain ⟨d', path', hreads', hm', -⟩ := h'
  obtain ⟨rfl, rfl⟩ := hreads.unique hreads'
  exact Except.ok.inj (hm.symm.trans hm')

theorem Context.Parses.contribution {c : Context} {u : String} {m : CodeMap} (h : c.Parses u m) :
    CodeMap.Contribution c.workspace u m := by
  obtain ⟨d, path, hreads, hm, -⟩ := h
  rw [← hreads.uri_eq]
  exact CodeMap.contribution_ofDocument hm

theorem Context.Parses.nonempty {c : Context} {u : String} {m : CodeMap} (h : c.Parses u m) :
    m.nodes.entries ≠ [] := by
  obtain ⟨_, _, _, _, hnodes⟩ := h
  exact hnodes

/-- A module is the same node wherever it comes up. -/
theorem Context.Parses.eq_moduleNode {c : Context} (hfiles : c.OrdinaryTargets) {u : String} {m : CodeMap}
    (h : c.Parses u m) {q : Path} (hq : Path.Canonical c.workspace.cwd q) {n : Node}
    (hn : m.nodes.find? (Uri.ofResolved q) = some n) :
    ∃ d, c.Reads (Uri.ofResolved q) d q ∧ n = CodeMap.moduleNode d q := by
  obtain ⟨d, path, hreads, hm, -⟩ := h
  rcases CodeMap.ofDocument_cases hm with rfl | ⟨path', o, foreign, hpath', -, ho, hlinked, rfl⟩
  · cases hn
  rcases CodeMap.find?_nodes_foldl_link hn with hown | ⟨hmem, hid, -⟩
  · obtain ⟨hid, howned⟩ := CodeMap.find?_ownNodes (CodeMap.laidAll_outline ho) hown
    cases howned with
    | module _ huri =>
      have hsame : Uri.ofResolved q = d.uri := hid.symm.trans huri
      rw [hsame, CodeMap.find?_ownNodes_uri] at hown
      have hreads' := hreads
      rw [← hreads.uri_eq, ← hsame] at hreads'
      obtain rfl := hreads'.path_eq hq
      cases hreads.path.symm.trans (hreads.uri_eq ▸ hpath')
      exact ⟨d, hreads', (Option.some.inj hown).symm⟩
    | definition _ hmake =>
      have hhash := NodeId.hash_not_mem_ofResolved q
      rw [← hid, hmake, NodeId.make_eq, NodeId.withFragment, if_neg (NodeId.fragment_ne_empty _)] at hhash
      simp at hhash
  · obtain ⟨ref, -, ps, p, htargets, hp, hnode⟩ := hlinked.mem_iff.mp hmem
    have hordinary := hfiles p (CodeMap.isTarget_of_mem_targets htargets hp)
    obtain ⟨hid', -, d', hread⟩ := CodeMap.foreignNode?_eq_some hnode
    obtain rfl := hordinary.canonical.eq_of_ofResolved_eq hq (hid'.symm.trans hid)
    obtain ⟨path'', hreads''⟩ := Context.exists_reads hread
    obtain rfl := hreads''.path_eq hq
    rw [CodeMap.foreignNode?_of_read hread] at hnode
    refine ⟨d', hreads'', ?_⟩
    rw [CodeMap.moduleNode, hreads''.uri_eq]
    exact (Option.some.inj (Except.ok.inj hnode)).symm

/-- All failures of a save are reported as one. -/
theorem Store.eq_persistence_of_save {s s' : Store} {docs : List IndexDocument} {imports exports : EdgeList}
    {files : Table FileEntry} {incremental : Bool} {e : Failure}
    (h : s.save docs imports exports files incremental = (s', .error e)) :
    e = .persistence docs.length := by
  have hresult : (s.saveSteps docs ⟨files, Snapshot.ofEdges imports, Snapshot.ofEdges exports⟩
      incremental).2.mapError (fun _ => Failure.persistence docs.length) = .error e := congrArg Prod.snd h
  cases hsteps : (s.saveSteps docs ⟨files, Snapshot.ofEdges imports, Snapshot.ofEdges exports⟩
      incremental).2 with
  | ok =>
    rw [hsteps] at hresult
    cases hresult
  | error =>
    rw [hsteps] at hresult
    exact (Except.error.inj hresult).symm

theorem Context.filePath_uri {c : Context} {q : Path} (hq : Path.Canonical c.workspace.cwd q) :
    c.filePath (Uri.ofResolved q) = .ok (c.relative q) := by
  have hpath : NodeId.filePath c.workspace.cwd c.base (NodeId.withFragment (Uri.ofResolved q) "") = _ :=
    NodeId.filePath_ofResolved hq.toPath (by simp)
  rw [NodeId.withFragment, if_pos rfl] at hpath
  rw [Context.filePath, hpath]
  rfl

theorem Context.OrdinaryTargets.canonicalImports {c : Context} (h : c.OrdinaryTargets) :
    c.CanonicalImports := by
  intro u v _ ⟨d, path, q, _, ⟨_, _, ref, ps, _, _, _, hps, hq⟩, hv⟩ _
  exact ⟨q, (h q (CodeMap.isTarget_of_mem_targets hps hq)).canonical, hv⟩

namespace CodeGraph

/-- The graph has what a document contributes: the imports of its nodes, and the modules imported. -/
structure Reflects (g : CodeGraph) (u : String) (m : CodeMap) : Prop where
  imports : ∀ n ∈ Pass.ownNodes u m, g.importsOf? n.id = m.imports.find? n.id
  nodes : ∀ x ∈ CodeMap.foreignSet u m, g.node? x = m.nodes.find? x

/-- What a node is related to can then be told from the contribution. -/
theorem Reflects.related_eq {g : CodeGraph} {u : String} {m : CodeMap} (h : g.Reflects u m) {w : Workspace}
    (hm : CodeMap.Contribution w u m) {n : Node} (hn : n ∈ Pass.ownNodes u m) :
    Skeleton.related g n = (((m.imports.find? n.id).getD .empty).toList).filterMap m.nodes.find? := by
  rw [Skeleton.related, h.imports n hn]
  refine List.filterMap_congr fun x hx => h.nodes x ?_
  rw [hm.imports] at hx
  split at hx
  · exact hx
  · cases hx

/-- The nodes after a document is entered: those it contributes, and the others that its file had not
listed. -/
theorem node?_apply_enter (g : CodeGraph) {w : Workspace} {u path : String} {e : FileEntry} {m : CodeMap}
    (hm : CodeMap.Contribution w u m) (k : String) : (g.apply (.enter u path e m)).node? k =
      (m.nodes.find? k).or (if k ∈ g.listed path then none else g.node? k) := by
  have hold : (g.drop (g.listed path)).nodes.find? k = if k ∈ g.listed path then none else g.node? k := by
    rw [drop, Table.find?_filter, node?]
    by_cases hk : k ∈ g.listed path <;> cases g.nodes.find? k <;> simp [hk, Option.filter]
  have hlast : (m.nodes.values.reverse.find? (·.id == k)) = m.nodes.find? k := by
    cases hfind : m.nodes.find? k with
    | none =>
      refine List.find?_eq_none.mpr fun n hn hid => ?_
      obtain ⟨k', hk'⟩ := Table.mem_values_iff.mp (List.mem_reverse.mp hn)
      have hkey : k' = k := (hm.keyed k' n hk').symm.trans (eq_of_beq hid)
      rw [hkey, hfind] at hk'
      cases hk'
    | some n =>
      have hmem : n ∈ m.nodes.values.reverse :=
        List.mem_reverse.mpr (Table.mem_values_iff.mpr ⟨k, hfind⟩)
      have hsome : (m.nodes.values.reverse.find? (·.id == k)).isSome := by
        rw [List.find?_isSome]
        exact ⟨n, hmem, by simpa using hm.keyed k n hfind⟩
      obtain ⟨n', hn'⟩ := Option.isSome_iff_exists.mp hsome
      obtain ⟨k', hk'⟩ := Table.mem_values_iff.mp (List.mem_reverse.mp (List.mem_of_find?_eq_some hn'))
      have hid : n'.id = k := by simpa using List.find?_some hn'
      rw [(hm.keyed k' n' hk').symm, hid, hfind] at hk'
      rw [hn', hk']
  have hfold := Table.find?_foldl_put Node.id id m.nodes.values (g.drop (g.listed path)).nodes k
  rw [hlast, hold, Option.map_id] at hfold
  exact hfold

section Enter

variable {c : Context} {g : CodeGraph} {q q' : Path} {e : FileEntry} {m m' : CodeMap}

/-- A document that is entered into a regular graph is reflected by it. -/
theorem Regular.reflects_enter (hg : g.Regular c.workspace.cwd c.base)
    (he : e.IsOf c.workspace.cwd c.base q)
    (hproper : Proper c.base (Uri.ofResolved q) (c.relative q) e m)
    (hm : CodeMap.Contribution c.workspace (Uri.ofResolved q) m) :
    (g.apply (.enter (Uri.ofResolved q) (c.relative q) e m)).Reflects (Uri.ofResolved q) m := by
  refine ⟨fun n hn => ?_, fun x hx => ?_⟩
  · have hfind := find?_imports_enter g (Uri.ofResolved q) (c.relative q) e m n.id
    cases himports : m.imports.find? n.id with
    | some targets =>
      rw [himports] at hfind
      obtain ⟨x, hx⟩ := hproper.exists_edge (k := n.id) (by rw [himports]; simp)
      have hown : n.id ∈ g.absoluteSet e.nodeIds := by
        rw [(hproper.hasEdge_imports.mp hx).1, absoluteSet, IdSet.mem_ofList, List.mem_map]
        refine ⟨c.relative q, IdSet.mem_def.mp he.module, ?_⟩
        rw [absolute, hg.workspace]
        exact he.ordinary.absolute_relativePath c.resolved_base
      dsimp only at hfind
      rw [if_pos hown] at hfind
      exact hfind
    | none =>
      rw [himports] at hfind
      refine hfind.trans ?_
      dsimp only
      split
      · rfl
      · rename_i hout
        by_contra hkey
        -- only modules of files in the table import anything, and those are listed
        obtain ⟨q', hq', hid⟩ := hg.imports.key n.id hkey
        obtain ⟨f, hf, hid'⟩ := (hm.mem_ownNodes.mp hn).2.exists_fragment
        have huri : Uri.ofResolved q' = Uri.ofResolved q :=
          NodeId.ofResolved_eq_of_withFragment_eq (f := "") (.inl rfl) hf (hid.symm.trans hid')
        obtain rfl := hq'.canonical.eq_of_ofResolved_eq he.ordinary.canonical huri
        rw [hid] at hkey hout
        exact hout (hg.uri_mem_listed c.resolved_base hq' (hg.indexed q' hq' hkey))
  · obtain ⟨n, hn⟩ := hm.find?_of_mem_foreignSet hx
    rw [node?_apply_enter g hm, hn]
    rfl

/-- It stays so when another document is entered. -/
theorem Reflects.enter (h : g.Reflects (Uri.ofResolved q) m) (hfiles : c.OrdinaryTargets)
    (hg : g.Regular c.workspace.cwd c.base) (hq : Path.Canonical c.workspace.cwd q)
    (hq' : Path.Canonical c.workspace.cwd q') (hne : q ≠ q')
    (hproper : Proper c.base (Uri.ofResolved q') (c.relative q') e m')
    (hm : c.Parses (Uri.ofResolved q) m) (hm' : c.Parses (Uri.ofResolved q') m') :
    (g.apply (.enter (Uri.ofResolved q') (c.relative q') e m')).Reflects (Uri.ofResolved q) m := by
  refine ⟨fun n hn => ?_, fun x hx => ?_⟩
  · obtain ⟨f, hf, hid⟩ := (hm.contribution.mem_ownNodes.mp hn).2.exists_fragment
    have hother : n.id ≠ Uri.ofResolved q' := by
      intro heq
      have huri := NodeId.ofResolved_eq_of_withFragment_eq (f := "") (.inl rfl) hf (heq.symm.trans hid)
      exact hne (hq.eq_of_ofResolved_eq hq' huri.symm)
    have hout : n.id ∉ g.listed (c.relative q') := by
      rw [hid]
      exact hg.not_mem_listed c.resolved_base hq hq' hne hf
    have hfind := find?_imports_enter_of_ne (g := g) hproper hother
    rw [if_neg hout] at hfind
    exact hfind.trans (h.imports n hn)
  · rw [node?_apply_enter g hm'.contribution]
    obtain ⟨n, hn⟩ := hm.contribution.find?_of_mem_foreignSet hx
    obtain ⟨d, path, hreads, hdocument, hnodes⟩ := hm
    obtain ⟨p, hp, rfl⟩ := Pass.isTarget_of_mem_foreignUris hreads hdocument (IdSet.mem_def.mp hx)
    have hcanonical := (hfiles p hp).canonical
    cases hnew : m'.nodes.find? (Uri.ofResolved p) with
    | some n' =>
      obtain ⟨d₁, hreads₁, hn₁⟩ := Context.Parses.eq_moduleNode hfiles ⟨d, path, hreads, hdocument, hnodes⟩
        hcanonical hn
      obtain ⟨d₂, hreads₂, hn₂⟩ := hm'.eq_moduleNode hfiles hcanonical hnew
      obtain ⟨rfl, -⟩ := hreads₁.unique hreads₂
      rw [hn, hn₁, hn₂]
      rfl
    | none =>
      have hout : Uri.ofResolved p ∉ g.listed (c.relative q') := by
        intro hmem
        obtain ⟨f, hf, heq⟩ := hg.of_mem_listed c.resolved_base hq' hmem
        have huri := NodeId.ofResolved_eq_of_withFragment_eq (f := "") (.inl rfl) hf heq
        obtain ⟨n', hn', -⟩ := hm'.contribution.module hm'.nonempty
        rw [← huri, hnew] at hn'
        cases hn'
      rw [if_neg hout]
      exact h.nodes _ hx

end Enter

end CodeGraph

namespace Pass

/-- At every point of a pass over ordinary files the graph is regular, and a file that can be read and
has not been visited is known as it was before. -/
structure Sound (c : Context) (i : Index) (p : Pass) : Prop where
  regular : p.graph.Regular c.workspace.cwd c.base
  filter : ∀ rel, c.verdict p.filter rel = c.verdict i.filter rel
  unchanged : ∀ q d, Path.Canonical c.workspace.cwd q → c.Reads (Uri.ofResolved q) d q →
    Uri.ofResolved q ∉ p.visited → p.graph.entry? (c.relative q) = i.graph.entry? (c.relative q) ∧
      p.digests.find? (c.relative q) = none

namespace Sound

variable {c : Context} {i : Index} {p p' : Pass} {q : Path} {d : Document}

theorem start (h : i.graph.Regular c.workspace.cwd c.base) : Sound c i (.start i) :=
  ⟨h, fun _ => rfl, fun _ _ _ _ _ => ⟨rfl, rfl⟩⟩

theorem stale_iff (h : Sound c i p) (hq : Path.Canonical c.workspace.cwd q)
    (hreads : c.Reads (Uri.ofResolved q) d q) (hnew : Uri.ofResolved q ∉ p.visited) :
    c.Stale i.graph (Uri.ofResolved q) ↔ ¬p.Known (c.relative q) (Digest.ofText d.text) := by
  obtain ⟨hentry, hdigest⟩ := h.unchanged q d hq hreads hnew
  rw [known_iff_of_unchanged hentry hdigest]
  exact Context.stale_iff_of_reads hreads

theorem congr (h : Sound c i p) (ha : Alike p p') : Sound c i p' := by
  refine ⟨?_, ?_, ?_⟩
  · rw [ha.graph]; exact h.regular
  · rw [ha.filter]; exact h.filter
  · rw [ha.graph, ha.visited, ha.digests]; exact h.unchanged

/-- A visit that does not enter its document. -/
theorem quiet {uri : String} (h : Sound c i p) (hquiet : Quiet c (p.mark uri) p') : Sound c i p' := by
  have hgraph : p'.graph = p.graph := hquiet.graph
  have hdigests : p'.digests = p.digests := hquiet.digests
  refine ⟨?_, fun rel => (hquiet.filter rel).trans (h.filter rel), fun q d hq hreads hnew => ?_⟩
  · rw [hgraph]
    exact h.regular
  · rw [hgraph, hdigests]
    rw [hquiet.visited] at hnew
    exact h.unchanged q d hq hreads fun hmem => hnew (List.mem_append_left _ hmem)

/-- A visit, whatever it comes to. -/
theorem visit (hfiles : c.OrdinaryTargets) {uri : String}
    (huri : Uri.IsOrdinary c.workspace.cwd c.base uri) {r : Except Failure Visit} (h : Sound c i p)
    (hvisit : Pass.visit c (p.mark uri) uri = (p', r)) : Sound c i p' := by
  cases outcome_of_visit hvisit with
  | idle quiet => exact h.quiet quiet
  | blank quiet => exact h.quiet quiet
  | failed quiet => exact h.quiet quiet
  | @entered p₁ d path m found ids quiet parsed reads stale map nodes _ _ ids_eq =>
    obtain ⟨q, hq, rfl⟩ := huri
    obtain rfl := reads.path_eq hq.canonical
    have hbefore := h.quiet quiet
    refine ⟨Context.regular_enter hfiles hbefore.regular hq reads map nodes ids_eq, hbefore.filter,
      fun q' d' hq' hreads' hnew => ?_⟩
    have hnew' : Uri.ofResolved q' ∉ p₁.visited := hnew
    have hne : c.relative q' ≠ c.relative path := by
      intro heq
      obtain rfl := Context.eq_of_relative_eq hq' hq.canonical heq
      rw [quiet.visited] at hnew'
      exact hnew' (List.mem_append_right _ (List.mem_singleton.mpr rfl))
    obtain ⟨hentry, hdigest⟩ := hbefore.unchanged q' d' hq' hreads' hnew'
    refine ⟨?_, ?_⟩
    · exact (CodeGraph.entry?_update p₁.graph _ _ m.imports m.exports m.nodes.values _).trans
        ((if_neg hne).trans hentry)
    · change (p₁.digests.put _ _).find? _ = _
      rw [Table.find?_put, if_neg hne]
      exact hdigest

/-- A file that is gone is none of those that can be read. -/
theorem drop {r : Except Failure Unit} (h : Sound c i p) (hq : Path.Canonical c.workspace.cwd q)
    (habsent : c.present q = .ok false) (hdrop : Pass.drop c p q = (p', r)) : Sound c i p' := by
  have hdropped := dropped_of_drop hdrop
  refine ⟨?_, ?_, fun q' d' hq' hreads' hnew => ?_⟩
  · rw [hdropped.graph]
    exact h.regular.remove c.resolved_base _
  · rw [hdropped.filter]
    exact h.filter
  · rw [hdropped.visited] at hnew
    have hne : c.relative q' ≠ c.relative q := by
      intro heq
      obtain rfl := Context.eq_of_relative_eq hq' hq heq
      cases (Context.present_of_reads hreads').symm.trans habsent
    obtain ⟨hentry, hdigest⟩ := h.unchanged q' d' hq' hreads' hnew
    rw [hdropped.digests, hdropped.graph, ← hentry]
    exact ⟨(CodeGraph.find?_files_remove p.graph _ _).trans (if_neg hne), hdigest⟩

end Sound

theorem invariant_sound {c : Context} (hfiles : c.OrdinaryTargets) (i : Index) (full : Bool) :
    Invariant c full (Uri.IsOrdinary c.workspace.cwd c.base) (Uri.IsOrdinary c.workspace.cwd c.base)
      (Sound c i) where
  batch _ hu _ := hu
  found q _ _ hq _ := ⟨q, hfiles q hq, rfl⟩
  visit _ _ _ _ huri _ hvisit h := h.visit hfiles huri hvisit
  finish _ _ _ _ _ hfinish h := h.congr (alike_finish hfinish)
  drop _ _ _ _ _ huri hpath habsent hdrop h := by
    obtain ⟨q, hq, rfl⟩ := huri
    cases hpath.symm.trans hq.canonical.toPath
    exact h.drop hq.canonical habsent hdrop
  report _ _ h := h.congr ⟨rfl, rfl, rfl, rfl, rfl⟩

theorem nodup_ownNodes {w : Workspace} {u : String} {m : CodeMap} (h : CodeMap.Contribution w u m) :
    ((ownNodes u m).map (·.id)).Nodup := by
  have hids : m.nodes.values.map (·.id) = m.nodes.keys := by
    rw [Table.values, Table.keys, List.map_map]
    refine List.map_congr_left fun e he => ?_
    exact h.keyed e.1 e.2 (Table.find?_eq_some_iff.mpr he)
  refine List.Nodup.sublist (List.filter_sublist.map _) ?_
  rw [hids]
  exact m.nodes.distinct

/-- New nodes come after those that an item has. -/
theorem Item.values_extend {item : Item} {v : Visit} (hnodup : (v.nodes.map (·.id)).Nodup)
    (hnew : ∀ n ∈ v.nodes, item.nodes.find? n.id = none) :
    (item.extend v).nodes.values = item.nodes.values ++ v.nodes := by
  have hentries := Table.entries_foldl_put (v.nodes.map fun n => (n.id, n)) item.nodes
    (by simpa [Function.comp_def] using hnodup) fun e he => by
      obtain ⟨n, hn, rfl⟩ := List.mem_map.mp he
      exact Table.find?_eq_none_iff.mp (hnew n hn)
  rw [List.foldl_map] at hentries
  rw [Table.values, Item.extend, hentries, List.map_append, List.map_map, Table.values]
  simp [Function.comp_def]

/-- The nodes that an item has of a document are all that the document has, and the graph reflects it. -/
structure Collects (c : Context) (p : Pass) (item : Item) (u : String) : Prop where
  visited : u ∈ p.visited
  parts : ∃ m, c.Parses u m ∧ p.graph.Reflects u m ∧ item.nodes.values.filter (·.uri == u) = ownNodes u m

/-- The walk of an item. The stale documents that it visits are in `P`, and it has all nodes of those
that it parses in addition to the `old` ones. -/
structure Roams (c : Context) (i : Index) (P : Set String) (old : List String) (p : Pass) (item : Item)
    (queue : List String) : Prop where
  sound : Sound c i p
  gathered : Gathered c (Path.Canonical c.workspace.cwd) item.nodes
  collects : ∀ n ∈ item.nodes.values, n.uri ∈ P ∧ Collects c p item n.uri
  complete : ∀ u ∈ p.parsed, u ∉ old → ∀ m, c.Parses u m → ∃ n ∈ item.nodes.values, n.uri = u
  queued : ∀ v ∈ queue, Uri.IsOrdinary c.workspace.cwd c.base v ∧ (c.Stale i.graph v → v ∈ P)

namespace Roams

variable {c : Context} {i : Index} {P : Set String} {old : List String} {p p' : Pass} {item : Item}
  {queue : List String} {uri : String}

theorem start (h : Sound c i p) (huri : Uri.IsOrdinary c.workspace.cwd c.base uri)
    (hP : c.Stale i.graph uri → uri ∈ P) : Roams c i P p.parsed p (.start uri) [uri] where
  sound := h
  gathered := gathered_empty _ _
  collects n hn := by cases hn
  complete u hu hnew := absurd hu hnew
  queued v hv := by
    obtain rfl := List.mem_singleton.mp hv
    exact ⟨huri, hP⟩

theorem skip (h : Roams c i P old p item (uri :: queue)) : Roams c i P old p item queue :=
  { h with queued := fun v hv => h.queued v (List.mem_cons_of_mem _ hv) }

/-- A document is passed over. -/
theorem passOver (h : Roams c i P old p item (uri :: queue)) (hquiet : Quiet c (p.mark uri) p')
    (hparsed : ∀ u ∈ p'.parsed, u ∈ p.parsed ∨ ∀ m, ¬c.Parses u m) :
    Roams c i P old p' (item.extend ⟨[], []⟩) (queue ++ item.fresh ⟨[], []⟩) := by
  have hfresh : queue ++ item.fresh ⟨[], []⟩ = queue := List.append_nil queue
  have hgraph : p'.graph = p.graph := hquiet.graph
  rw [hfresh]
  refine ⟨h.sound.quiet hquiet, h.gathered, fun n hn => ?_, fun u hu hnew m hm => ?_, h.skip.queued⟩
  · obtain ⟨hin, hvisited, m, hm, hreflects, hparts⟩ := h.collects n hn
    refine ⟨hin, ?_, m, hm, hgraph ▸ hreflects, hparts⟩
    rw [hquiet.visited]
    exact List.mem_append_left _ hvisited
  · rcases hparsed u hu with hbefore | hblank
    · exact h.complete u hbefore hnew m hm
    · exact absurd hm (hblank m)

/-- A document that has not been visited has no nodes in the item. -/
theorem filter_eq_nil (h : Roams c i P old p item queue) (hnew : uri ∉ p.visited) :
    item.nodes.values.filter (·.uri == uri) = [] := by
  refine List.filter_eq_nil_iff.mpr fun n hn huri => hnew ?_
  have heq : n.uri = uri := by simpa using huri
  exact heq ▸ (h.collects n hn).2.visited

/-- Identifiers of a document that has not been visited are new to the item. -/
theorem find?_eq_none (h : Roams c i P old p item queue) {q : Path} (hnew : Uri.ofResolved q ∉ p.visited)
    {n : Node} (hn : n.OwnedBy (Uri.ofResolved q)) : item.nodes.find? n.id = none := by
  cases hfind : item.nodes.find? n.id with
  | none => rfl
  | some n' =>
    obtain ⟨q', -, hown⟩ := h.gathered.owned _ n' hfind
    have huri := hn.uri_unique hown (h.gathered.keyed _ n' hfind).symm
    have hvisited := (h.collects n' (Table.mem_values_iff.mpr ⟨_, hfind⟩)).2.visited
    rw [hown.uri_eq, ← huri] at hvisited
    exact absurd hvisited hnew

/-- The nodes of a document that has not been visited join those of the item. -/
theorem values_extend (h : Roams c i P old p item queue) {q : Path} {m : CodeMap} (found : List String)
    (hnew : Uri.ofResolved q ∉ p.visited) (hm : c.Parses (Uri.ofResolved q) m) :
    (item.extend ⟨found, ownNodes (Uri.ofResolved q) m⟩).nodes.values =
      item.nodes.values ++ ownNodes (Uri.ofResolved q) m :=
  Item.values_extend (nodup_ownNodes hm.contribution) fun _ hn =>
    h.find?_eq_none hnew (hm.contribution.mem_ownNodes.mp hn).2

/-- A document of `P` is entered. -/
theorem collects_enter (hfiles : c.OrdinaryTargets) {q : Path} {d : Document} {m : CodeMap} {ids : List String}
    (found : List String) (h : Roams c i P old p item (Uri.ofResolved q :: queue))
    (hnew : Uri.ofResolved q ∉ p.visited)
    (hq : Path.Ordinary c.workspace.cwd c.base q) (hreads : c.Reads (Uri.ofResolved q) d q)
    (hm : CodeMap.ofDocument c.backend c.workspace d = .ok m) (hnodes : m.nodes.entries ≠ [])
    (hids : ((ownNodes (Uri.ofResolved q) m).mapM fun n => c.relativeId n.id) = .ok ids)
    (hgraph : p'.graph =
      p.graph.apply (.enter (Uri.ofResolved q) (c.relative q) ⟨.ofList ids, Digest.ofText d.text⟩ m))
    (hvisited : p'.visited = p.visited ++ [Uri.ofResolved q]) (hin : Uri.ofResolved q ∈ P) :
    ∀ n ∈ (item.extend ⟨found, ownNodes (Uri.ofResolved q) m⟩).nodes.values,
      n.uri ∈ P ∧ Collects c p' (item.extend ⟨found, ownNodes (Uri.ofResolved q) m⟩) n.uri := by
  have hparses : c.Parses (Uri.ofResolved q) m := ⟨d, q, hreads, hm, hnodes⟩
  have hown : ∀ n ∈ ownNodes (Uri.ofResolved q) m, n.OwnedBy (Uri.ofResolved q) :=
    fun n hn => (hparses.contribution.mem_ownNodes.mp hn).2
  have hvalues := h.values_extend found hnew hparses
  have hproper : CodeGraph.Proper c.base (Uri.ofResolved q) (c.relative q)
      ⟨.ofList ids, Digest.ofText d.text⟩ m :=
    Context.isProper_of_entering ⟨q, hq.canonical, rfl⟩ ⟨d, q, m, ids, hreads, hm, hnodes, hids, rfl⟩
  intro n hn
  rw [hvalues, List.mem_append] at hn
  rcases hn with hn | hn
  · obtain ⟨hin', hseen, m', hm', hreflects, hparts⟩ := h.collects n hn
    obtain ⟨k, hk⟩ := Table.mem_values_iff.mp hn
    obtain ⟨q', hq', hown'⟩ := h.gathered.owned k n hk
    have hne : n.uri ≠ Uri.ofResolved q := fun heq => hnew (heq ▸ hseen)
    have hnone : (ownNodes (Uri.ofResolved q) m).filter (·.uri == n.uri) = [] := by
      refine List.filter_eq_nil_iff.mpr fun n' hn' heq => hne ?_
      rw [← (hown n' hn').uri_eq]
      exact (eq_of_beq heq).symm
    refine ⟨hin', ?_, m', hm', ?_, ?_⟩
    · rw [hvisited]
      exact List.mem_append_left _ hseen
    · rw [hown'.uri_eq] at hreflects hm' hne ⊢
      rw [hgraph]
      exact hreflects.enter hfiles h.sound.regular hq' hq.canonical (fun heq => hne (congrArg _ heq))
        hproper hm' hparses
    · rw [hvalues, List.filter_append, hnone, List.append_nil]
      exact hparts
  · rw [(hown n hn).uri_eq]
    have hall : (ownNodes (Uri.ofResolved q) m).filter (·.uri == Uri.ofResolved q) =
        ownNodes (Uri.ofResolved q) m :=
      List.filter_eq_self.mpr fun n' hn' => by simp [(hown n' hn').uri_eq]
    refine ⟨hin, ?_, m, hparses, ?_, ?_⟩
    · rw [hvisited]
      exact List.mem_append_right _ (List.mem_singleton.mpr rfl)
    · rw [hgraph]
      exact h.sound.regular.reflects_enter (Context.isOf_of_parsed hq hreads hm hnodes hids) hproper
        hparses.contribution
    · rw [hvalues, List.filter_append, h.filter_eq_nil hnew, hall, List.nil_append]

theorem step (hfiles : c.OrdinaryTargets) (hP : ∀ u ∈ P, ∀ v, c.LeadsTo i u v → v ∈ P) {v : Visit}
    (h : Roams c i P old p item (uri :: queue)) (hnew : uri ∉ p.visited)
    (hvisit : visit c (p.mark uri) uri = (p', .ok v)) :
    Roams c i P old p' (item.extend v) (queue ++ item.fresh v) := by
  obtain ⟨⟨q, hq, rfl⟩, hstaleP⟩ := h.queued uri List.mem_cons_self
  have hgathered := h.gathered.extend hq.canonical hvisit
  have hsound := h.sound.visit hfiles ⟨q, hq, rfl⟩ hvisit
  have hvisited : p'.visited = p.visited ++ [Uri.ofResolved q] := visited_of_visit hvisit
  cases outcome_of_visit hvisit with
  | idle quiet parsed =>
    have hsame : p'.parsed = p.parsed := parsed
    exact h.passOver quiet fun u hu => .inl (hsame ▸ hu)
  | blank quiet parsed reads _ empty =>
    have hmore : p'.parsed = p.parsed ++ [Uri.ofResolved q] := parsed
    refine h.passOver quiet fun u hu => ?_
    rw [hmore, List.mem_append, List.mem_singleton] at hu
    refine hu.imp_right fun heq m hm => ?_
    rw [heq] at hm
    obtain ⟨d', path', hreads', hm', hnodes'⟩ := hm
    obtain ⟨rfl, rfl⟩ := reads.unique hreads'
    exact hnodes' (empty m hm')
  | @entered p₁ d path m found ids quiet parsed reads stale map nodes _ mem_found ids_eq =>
    obtain rfl := reads.path_eq hq.canonical
    have hstale : c.Stale i.graph (Uri.ofResolved path) :=
      (h.sound.stale_iff hq.canonical reads hnew).mpr stale
    have hgraph : p₁.graph = p.graph := quiet.graph
    have hparses : c.Parses (Uri.ofResolved path) m := ⟨d, path, reads, map, nodes⟩
    have hcollects := h.collects_enter hfiles found hnew hq reads map nodes ids_eq
      (by rw [← hgraph]; rfl) hvisited (hstaleP hstale)
    refine ⟨hsound, hgathered, hcollects, fun u hu hold m' hm' => ?_, fun v hv => ?_⟩
    · have hmore : u ∈ p.parsed ++ [Uri.ofResolved path] := parsed ▸ hu
      rw [h.values_extend found hnew hparses]
      rcases List.mem_append.mp hmore with hu | hu
      · obtain ⟨n, hn, huri⟩ := h.complete u hu hold m' hm'
        exact ⟨n, List.mem_append_left _ hn, huri⟩
      · obtain rfl := List.mem_singleton.mp hu
        obtain ⟨n, hn, -⟩ := hparses.contribution.exists_module nodes
        exact ⟨n, List.mem_append_right _ hn, (hparses.contribution.mem_ownNodes.mp hn).2.uri_eq⟩
    · rcases List.mem_append.mp hv with hv | hv
      · exact h.queued v (List.mem_cons_of_mem _ hv)
      · obtain ⟨hforeign, d', path', hreads', haccepts, -⟩ := (mem_found v).mp (List.mem_filter.mp hv).1
        obtain ⟨-, -, hrefers⟩ := (Context.mem_foreignUris reads map nodes).mp hforeign
        obtain ⟨q', hq', rfl⟩ := isTarget_of_mem_foreignUris reads map hforeign
        refine ⟨⟨q', hfiles q' hq', rfl⟩, fun hs => ?_⟩
        refine hP _ (hstaleP hstale) _ ⟨⟨d, path, m, reads, map, nodes⟩, hrefers, ?_, hs⟩
        exact ⟨path', hreads'.path, (h.sound.filter _).symm.trans haccepts⟩

/-- The walk to its end. -/
theorem walks (hfiles : c.OrdinaryTargets) (hP : ∀ u ∈ P, ∀ v, c.LeadsTo i u v → v ∈ P) {done : Item}
    (h : Roams c i P old p item queue) (hwalks : Walks c p item queue (p', .ok done)) :
    Roams c i P old p' done [] :=
  hwalks.invariant (fun _ _ _ _ _ h => h.skip)
    (fun _ _ _ _ _ _ hnew hvisit h => h.step hfiles hP hnew hvisit) h

/-- Where all of `P` is passable, the walk does not fail. -/
theorem walk_isOk (hfiles : c.OrdinaryTargets) (hP : ∀ u ∈ P, ∀ v, c.LeadsTo i u v → v ∈ P)
    (hpassable : ∀ u ∈ P, Passable c i.filter u) {r : Pass × Except Failure Item}
    (h : Roams c i P old p item queue) (hwalks : Walks c p item queue r) : r.2.isOk = true := by
  refine hwalks.isOk (I := Roams c i P old) (fun _ _ _ _ _ h => h.skip)
    (fun _ _ _ _ _ _ hnew hvisit h => h.step hfiles hP hnew hvisit) ?_ h
  intro p item uri queue hnew h
  obtain ⟨⟨q, hq, rfl⟩, hstale⟩ := h.queued uri List.mem_cons_self
  refine visit_isOk_of_passable hq.canonical fun d hreads hunknown => ?_
  have hin := hstale ((h.sound.stale_iff hq.canonical hreads hnew).mpr hunknown)
  exact (hpassable _ hin).congr h.sound.filter

end Roams

/-- With a regular graph, documents can be made of all skeletons. -/
theorem exists_indexDocument {c : Context} {g : CodeGraph} (hg : g.Regular c.workspace.cwd c.base)
    {s : Skeleton.Completed} {q : Path} (hq : Path.Canonical c.workspace.cwd q)
    (hs : s.node.OwnedBy (Uri.ofResolved q)) : ∃ d, indexDocument c g s = .ok d := by
  have himport : ∀ x ∈ ((g.importsOf? s.node.id).getD .empty).toList, ∃ rel, c.filePath x = .ok rel := by
    intro x hx
    cases htargets : g.importsOf? s.node.id with
    | none =>
      rw [htargets] at hx
      cases hx
    | some targets =>
      rw [htargets] at hx
      obtain ⟨q', hq', rfl⟩ := hg.imports.target s.node.id x ⟨targets, htargets, hx⟩
      exact ⟨_, Context.filePath_uri hq'.canonical⟩
  obtain ⟨related, hrelated⟩ := Results.exists_mapM_eq_ok himport
  have hpath := Context.filePath_of_ownedBy (c := c) hs hq.toPath
  exact ⟨_, Results.bind_eq_ok.mpr ⟨related, hrelated, Results.bind_eq_ok.mpr ⟨_, hpath, rfl⟩⟩⟩

/-- With a regular graph, a commit fails only if the save does. -/
theorem settled_of_commit {c : Context} {p p' : Pass} {docs : List IndexDocument} {incremental : Bool}
    {r : Except Failure Unit} (hg : p.graph.Regular c.workspace.cwd c.base)
    (h : commit c p docs incremental = (p', r)) : r = .ok () ∨ ∃ k, r = .error (.persistence k) := by
  obtain ⟨imports, himports⟩ := hg.imports.recovers.exists_relativeEdges
  obtain ⟨exports, hexports⟩ := hg.exports.recovers.exists_relativeEdges
  unfold commit at h
  rw [himports, hexports] at h
  dsimp only at h
  cases hsave : p.store.save docs imports exports p.graph.files incremental with
  | mk s' saved =>
    rw [hsave] at h
    cases h
    cases saved with
    | ok => exact .inl rfl
    | error e => exact .inr ⟨_, congrArg Except.error (Store.eq_persistence_of_save hsave)⟩

/-- So does the end of an item whose skeletons can be made. -/
theorem settled_of_finish {c : Context} {full : Bool} {p p' : Pass} {nodes : List Node}
    {r : Except Failure Unit} (hg : p.graph.Regular c.workspace.cwd c.base)
    (hnodes : Skeleton.Collected c.workspace nodes)
    (howned : ∀ n ∈ nodes, ∃ q, Path.Canonical c.workspace.cwd q ∧ n.OwnedBy (Uri.ofResolved q))
    {done : List Skeleton.Completed}
    (hmade : (Skeleton.ofNodes ⟨c.workspace, p.graph, c.generate⟩ nodes).result = .ok done)
    (h : finish c p nodes full = (p', r)) : r = .ok () ∨ ∃ k, r = .error (.persistence k) := by
  have hdocument : ∀ s ∈ done, ∃ d, indexDocument c p.graph s = .ok d := by
    intro s hs
    have hmem := Skeleton.mem_of_mem_ofNodes (s := ⟨c.workspace, p.graph, c.generate⟩) hnodes.readable
      hmade hs
    obtain ⟨q, hq, hown⟩ := howned _ hmem
    exact exists_indexDocument hg hq hown
  obtain ⟨docs, hdocs⟩ := Results.exists_mapM_eq_ok hdocument
  unfold finish at h
  dsimp only at h
  generalize Skeleton.ofNodes ⟨c.workspace, p.graph, c.generate⟩ nodes = made at h hmade
  rw [hmade] at h
  dsimp only at h
  split at h
  · cases h
    exact .inl rfl
  · have hdocs' : done.mapM (indexDocument c (p.report made.reports).graph) = .ok docs := hdocs
    rw [hdocs'] at h
    exact settled_of_commit (p := p.report made.reports) hg h

theorem made_of_finish {c : Context} {full : Bool} {p p' : Pass} {nodes : List Node}
    (h : finish c p nodes full = (p', .ok ())) :
    ∃ made, (Skeleton.ofNodes ⟨c.workspace, p.graph, c.generate⟩ nodes).result = .ok made := by
  unfold finish at h
  dsimp only at h
  split at h
  · cases h
  · exact ⟨_, ‹_›⟩

/-- What the work on a document alone comes to where it succeeds: the documents `P` that it goes through
can all be visited, and skeletons can be made for all their `nodes`. -/
structure Standalone (c : Context) (i : Index) (uri : String) (P : Set String) (g : CodeGraph)
    (nodes : List Node) : Prop where
  first : c.Stale i.graph uri → uri ∈ P
  leads : ∀ u ∈ P, ∀ v, c.LeadsTo i u v → v ∈ P
  passable : ∀ u ∈ P, Passable c i.filter u
  collected : Skeleton.Collected c.workspace nodes
  parts : ∀ u ∈ P, ∀ m, c.Parses u m →
    g.Reflects u m ∧ nodes.filter (·.uri == u) = ownNodes u m
  made : ∃ done, (Skeleton.ofNodes ⟨c.workspace, g, c.generate⟩ nodes).result = .ok done

theorem standalone_of_clean {c : Context} {i : Index} {full : Bool} {uri : String}
    (hfiles : c.OrdinaryTargets) (hregular : i.graph.Regular c.workspace.cwd c.base)
    (huri : Uri.IsOrdinary c.workspace.cwd c.base uri) (hpresent : c.IsPresent uri)
    (hclean : Clean c full (.start i) [uri]) : ∃ P g nodes, Standalone c i uri P g nodes := by
  have himports := hfiles.canonicalImports
  have hcanonical : ∀ u ∈ [uri], c.IsCanonical u := by
    intro u hu
    obtain ⟨q, hq, rfl⟩ := huri
    exact ⟨q, hq.canonical, List.mem_singleton.mp hu⟩
  obtain ⟨p', hitem, hattempt, -⟩ := hclean.head
  have hitems : items c full (.start i) [uri] = (p', .ok ()) := by
    rw [items_singleton, hattempt]
  -- the walk, and what the item makes of its nodes
  obtain ⟨p₁, done, hwalks, hparsed, hmade⟩ : ∃ p₁ done,
      Walks c (.start i) (.start uri) [uri] (p₁, .ok done) ∧ p'.parsed = p₁.parsed ∧
      ∃ made, (Skeleton.ofNodes ⟨c.workspace, p₁.graph, c.generate⟩ done.nodes.values).result = .ok made := by
    obtain ⟨path, hpath, hthere⟩ := hpresent
    cases worked_of_item hitem with
    | seen hseen => cases hseen
    | gone toPath absent =>
      cases hpath.symm.trans toPath
      cases hthere.symm.trans absent
    | @blank _ done walks nodes =>
      refine ⟨_, done, walks, rfl, [], ?_⟩
      rw [Table.values, nodes]
      rfl
    | finished walks _ finish =>
      exact ⟨_, _, walks, (alike_finish finish).parsed, made_of_finish finish⟩
  have hsteady : Steady c full (.start i) [uri] := by
    refine ⟨?_, trivial⟩
    rw [(walks_walk c (.start i) uri).unique hwalks]
    rfl
  have hsaved : (items c full (.start i) [uri]).2 = .ok () := by rw [hitems]
  have hroams := (Roams.start (P := Set.univ) (.start hregular) huri fun _ => trivial).walks hfiles
    (fun _ _ _ _ => trivial) hwalks
  obtain ⟨⟨hclosed, -⟩, -⟩ := isLeast_parsed himports hcanonical hsteady hsaved
  have hpassable := Frontier.passable_items hclosed.leads himports
    (fun u hu => ⟨hcanonical u hu, hclosed.batch u hu⟩) hsteady hsaved
  rw [hitems] at hclosed hpassable
  refine ⟨_, p₁.graph, done.nodes.values, hclosed.batch uri (by simp), hclosed.leads, hpassable,
    hroams.gathered.collected, fun u hu m hm => ?_, hmade⟩
  have hin : u ∈ p₁.parsed := hparsed ▸ hu
  obtain ⟨n, hn, rfl⟩ := hroams.complete u hin List.not_mem_nil m hm
  obtain ⟨-, -, m', hm', hreflects, hown⟩ := hroams.collects n hn
  obtain rfl := hm.unique hm'
  exact ⟨hreflects, hown⟩

/-- A document that can be worked on alone can be worked on in a batch, if no item before has visited
it: only the save can fail. -/
theorem Standalone.settled {c : Context} {i : Index} {full : Bool} {uri : String} {P : Set String}
    {g : CodeGraph} {nodes : List Node} (h : Standalone c i uri P g nodes) (hfiles : c.OrdinaryTargets)
    (huri : Uri.IsOrdinary c.workspace.cwd c.base uri) {p p' : Pass} {r : Except Failure Unit}
    (hpresent : c.IsPresent uri) (hp : Sound c i p) (hitem : item c full p uri = (p', r)) :
    r = .ok () ∨ ∃ k, r = .error (.persistence k) := by
  obtain ⟨path, hpath, hthere⟩ := hpresent
  have hroams : Roams c i P p.parsed p (.start uri) [uri] := .start hp huri h.first
  cases worked_of_item hitem with
  | seen => exact .inl rfl
  | nowhere _ faulty =>
    obtain ⟨e', he'⟩ := faulty path hpath
    cases hthere.symm.trans he'
  | gone toPath absent =>
    cases hpath.symm.trans toPath
    cases hthere.symm.trans absent
  | broken walks => cases hroams.walk_isOk hfiles h.leads h.passable walks
  | blank => exact .inl rfl
  | @finished p₁ _ done _ walks _ finish =>
    have hend := hroams.walks hfiles h.leads walks
    have hparts : ∀ n ∈ done.nodes.values, ∃ m, c.Parses n.uri m ∧ n ∈ ownNodes n.uri m ∧
        p₁.graph.Reflects n.uri m ∧ g.Reflects n.uri m ∧
        done.nodes.values.filter (·.uri == n.uri) = nodes.filter (·.uri == n.uri) := by
      intro n hn
      obtain ⟨hin, -, m, hm, hreflects, hown⟩ := hend.collects n hn
      obtain ⟨hreflects', hown'⟩ := h.parts _ hin m hm
      have hmem : n ∈ done.nodes.values.filter (·.uri == n.uri) := List.mem_filter.mpr ⟨hn, by simp⟩
      exact ⟨m, hm, hown ▸ hmem, hreflects, hreflects', hown.trans hown'.symm⟩
    obtain ⟨made, hmade⟩ := h.made
    obtain ⟨made', hmade'⟩ := Skeleton.exists_ofNodes_of_parts h.collected hend.gathered.collected
      (fun n hn => by
        obtain ⟨m, -, -, -, -, hsame⟩ := hparts n hn
        exact hsame)
      (fun n hn => by
        obtain ⟨m, hm, hmem, hreflects, hreflects', -⟩ := hparts n hn
        rw [hreflects.related_eq hm.contribution hmem, hreflects'.related_eq hm.contribution hmem])
      hmade
    refine settled_of_finish hend.sound.regular hend.gathered.collected (fun n hn => ?_) hmade' finish
    obtain ⟨k, hk⟩ := Table.mem_values_iff.mp hn
    exact hend.gathered.owned k n hk

end Pass

end OutlineIndex
