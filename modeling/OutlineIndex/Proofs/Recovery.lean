import OutlineIndex.Index
import OutlineIndex.Proofs.Item
import OutlineIndex.Source.Lexical

namespace OutlineIndex

/-- The store has a document for a node. -/
def Store.HasNode (s : Store) (id : String) : Prop := ∃ r ∈ s.rows, r.id = id

instance (s : Store) (id : String) : Decidable (s.HasNode id) :=
  inferInstanceAs (Decidable (∃ r ∈ s.rows, r.id = id))

/-- Some rows have one for a node, and only at a path. -/
def Store.HoldsAt (rows : List Row) (id path : String) : Prop :=
  (∃ r ∈ rows, r.id = id) ∧ ∀ r ∈ rows, r.id = id → r.filePath = path

/-- Rows that take the place of those with some identifiers. -/
theorem Store.holdsAt_replace {rows new : List Row} {ids : List String} {id path : String}
    (hids : ∀ x, x ∈ ids ↔ ∃ r ∈ new, r.id = x) (hnew : ∀ r ∈ new, r.id = id → r.filePath = path)
    (h : id ∈ ids ∨ HoldsAt rows id path) :
    HoldsAt (rows.filter (fun r => !ids.contains r.id) ++ new) id path := by
  have hold : ∀ r, r ∈ rows.filter (fun r => !ids.contains r.id) ↔ r ∈ rows ∧ r.id ∉ ids := by
    intro r
    rw [List.mem_filter, Bool.not_eq_true', ← Bool.not_eq_true, List.contains_iff_mem]
  by_cases hin : id ∈ ids
  · obtain ⟨r, hr, hid⟩ := (hids id).mp hin
    refine ⟨⟨r, List.mem_append_right _ hr, hid⟩, fun r hr hid => ?_⟩
    rcases List.mem_append.mp hr with hr | hr
    · exact absurd (hid ▸ hin) ((hold r).mp hr).2
    · exact hnew r hr hid
  · obtain ⟨⟨r, hr, hid⟩, hplaces⟩ := h.resolve_left hin
    refine ⟨⟨r, List.mem_append_left _ ((hold r).mpr ⟨hr, hid ▸ hin⟩), hid⟩, fun r hr hid => ?_⟩
    rcases List.mem_append.mp hr with hr | hr
    · exact hplaces r ((hold r).mp hr).1 hid
    · exact hnew r hr hid

/-- The table of files has an entry with a digest for a path. -/
def CodeGraph.Carries (g : CodeGraph) (rel sha : String) : Prop :=
  (g.entry? rel).map FileEntry.sha = some sha

instance (g : CodeGraph) (rel sha : String) : Decidable (g.Carries rel sha) :=
  inferInstanceAs (Decidable ((g.entry? rel).map FileEntry.sha = some sha))

theorem CodeGraph.entry?_update (g : CodeGraph) (path : String) (entry : FileEntry)
    (imports exports : Table IdSet) (nodes : List Node) (k : String) :
    CodeGraph.entry? (g.update path entry imports exports nodes) k =
      if k = path then some entry else g.entry? k :=
  Table.find?_put _ _ _ _

namespace Pass

theorem known_start {i : Index} {rel sha : String} :
    (start i).Known rel sha ↔ i.graph.Carries rel sha := by
  rw [CodeGraph.Carries, Option.map_eq_some_iff]
  refine exists_congr fun e => and_congr_right fun _ => ?_
  simp [start]

/-- A document has been entered, and its nodes are among those of the item. -/
structure Entered (rel sha : String) (ids : List String) (own : List Node) (p : Pass) (item : Item) :
    Prop where
  entry : p.graph.entry? rel = some ⟨.ofList ids, sha⟩
  nodes : ∀ n ∈ own, (item.nodes.find? n.id).isSome

/-- Visits of other documents leave an entered document as it is: one at the same place would have
the same text, and so be current. -/
theorem Entered.visit {c : Context} {q q' : Path} (hq : q.Resolved) (hq' : q'.Resolved) {d : Document}
    {path : Path} (hreads : c.Reads (Uri.ofResolved q) d path) {ids : List String} {own : List Node}
    {p p' : Pass} {item : Item} {v : Visit}
    (hvisit : visit c (p.mark (Uri.ofResolved q')) (Uri.ofResolved q') = (p', .ok v))
    (h : Entered (c.relative path) (Digest.ofText d.text) ids own p item) :
    Entered (c.relative path) (Digest.ofText d.text) ids own p' (item.extend v) := by
  refine ⟨?_, fun n hn => isSome_find?_extend_iff.mpr (.inr (h.nodes n hn))⟩
  cases outcome_of_visit hvisit with
  | idle quiet => rw [quiet.graph]; exact h.entry
  | blank quiet => rw [quiet.graph]; exact h.entry
  | @entered p₁ d' path' m found ids' quiet parsed reads stale =>
    change CodeGraph.entry? (p₁.graph.update _ _ _ _ _) _ = _
    rw [CodeGraph.entry?_update, quiet.graph]
    split
    · rename_i heq
      refine absurd ⟨_, heq ▸ h.entry, .inl ?_⟩ stale
      rw [hreads.text_eq_of_relative hq hq' reads heq]
    · exact h.entry

theorem Walks.first {c : Context} {p p' : Pass} {uri : String} {done : Item} (hnew : uri ∉ p.visited)
    (h : Walks c p (.start uri) [uri] (p', .ok done)) : ∃ p₁ v, visit c (p.mark uri) uri = (p₁, .ok v) ∧
      Walks c p₁ ((Item.start uri).extend v) ((Item.start uri).fresh v) (p', .ok done) := by
  cases h with
  | skip seen => exact absurd seen hnew
  | step _ hvisit rest => exact ⟨_, _, hvisit, rest⟩

/-- The work on a document enters it: it can be read, its text is new, and it has nodes. -/
def Updates (c : Context) (p : Pass) (uri : String) : Prop :=
  uri ∉ p.visited ∧ ∃ d path m, c.Reads uri d path ∧
    ¬p.Known (c.relative path) (Digest.ofText d.text) ∧
    CodeMap.ofDocument c.backend c.workspace d = .ok m ∧ m.nodes.entries ≠ []

/-- A walk from a document that is not entered ends with it. -/
theorem idle_walk {c : Context} {p p' : Pass} {uri : String} {done : Item} (hidle : ¬Updates c p uri)
    (h : Walks c p (.start uri) [uri] (p', .ok done)) :
    p'.graph = p.graph ∧ p'.store = p.store ∧ done.nodes.entries = [] := by
  cases h with
  | skip _ hrest =>
    cases hrest
    exact ⟨rfl, rfl, rfl⟩
  | step hnew hvisit hrest =>
    cases outcome_of_visit hvisit with
    | idle quiet =>
      cases hrest
      exact ⟨quiet.graph, quiet.store, rfl⟩
    | blank quiet =>
      cases hrest
      exact ⟨quiet.graph, quiet.store, rfl⟩
    | entered _ _ reads stale map nodes => exact absurd ⟨hnew, _, _, _, reads, stale, map, nodes⟩ hidle

/-- A document that is current is passed over. -/
theorem idle_item_of_known {c : Context} {full : Bool} {p p' : Pass} {uri : String} {d : Document}
    {path : Path} (hreads : c.Reads uri d path)
    (hknown : p.Known (c.relative path) (Digest.ofText d.text))
    (h : item c full p uri = (p', .ok ())) : p'.graph = p.graph ∧ p'.store = p.store := by
  have hidle : ¬Updates c p uri := by
    rintro ⟨-, d', path', m, reads, stale, -⟩
    obtain ⟨rfl, rfl⟩ := hreads.unique reads
    exact stale hknown
  cases worked_of_item h with
  | seen => exact ⟨rfl, rfl⟩
  | gone toPath absent =>
    cases hreads.path.symm.trans toPath
    cases (Context.present_of_reads hreads).symm.trans absent
  | blank walks =>
    obtain ⟨hgraph, hstore, -⟩ := idle_walk hidle walks
    exact ⟨hgraph, hstore⟩
  | finished walks nodes => exact absurd (idle_walk hidle walks).2.2 nodes

/-- A document that is not current is entered, and the item ends with a save of its nodes. -/
theorem entered_item_of_stale {c : Context} {full : Bool} {p p' : Pass} {q : Path} (hq : q.Resolved)
    {d : Document} {path : Path} {m : CodeMap} (hreads : c.Reads (Uri.ofResolved q) d path)
    (hstale : ¬p.Known (c.relative path) (Digest.ofText d.text))
    (hmap : CodeMap.ofDocument c.backend c.workspace d = .ok m) (hnodes : m.nodes.entries ≠ [])
    (hnew : Uri.ofResolved q ∉ p.visited) (h : item c full p (Uri.ofResolved q) = (p', .ok ())) :
    ∃ ids p₁ done, ((ownNodes (Uri.ofResolved q) m).mapM fun n => c.relativeId n.id) = .ok ids ∧
      Entered (c.relative path) (Digest.ofText d.text) ids (ownNodes (Uri.ofResolved q) m) p₁ done ∧
      Gathered c Path.Resolved done.nodes ∧ done.nodes.values ≠ [] ∧
      finish c p₁ done.nodes.values full = (p', .ok ()) := by
  have hwalked : ∀ {p' done}, Walks c p (.start (Uri.ofResolved q)) [Uri.ofResolved q] (p', .ok done) →
      ∃ ids, ((ownNodes (Uri.ofResolved q) m).mapM fun n => c.relativeId n.id) = .ok ids ∧
        Entered (c.relative path) (Digest.ofText d.text) ids (ownNodes (Uri.ofResolved q) m) p' done ∧
        Gathered c Path.Resolved done.nodes := by
    intro p' done hwalks
    obtain ⟨p₁, v, hvisit, hrest⟩ := hwalks.first hnew
    have hstart : Gathered c Path.Resolved (Item.start (Uri.ofResolved q)).nodes := gathered_empty _ _
    have hgathered := hstart.extend hq hvisit
    cases outcome_of_visit hvisit with
    | idle _ _ known => exact absurd (known _ _ hreads) hstale
    | blank _ _ reads _ empty =>
      obtain ⟨rfl, rfl⟩ := hreads.unique reads
      exact absurd (empty m hmap) hnodes
    | @entered p₂ d' path' m' found ids quiet parsed reads _ map _ _ _ ids_eq =>
      obtain ⟨rfl, rfl⟩ := hreads.unique reads
      cases hmap.symm.trans map
      refine ⟨ids, ids_eq, ?_⟩
      refine hrest.keeps (U := fun u => ∃ q' : Path, q'.Resolved ∧ u = Uri.ofResolved q')
        (I := fun p item => Entered (c.relative path) (Digest.ofText d.text) ids
          (ownNodes (Uri.ofResolved q) m) p item ∧ Gathered c Path.Resolved item.nodes)
        (fun q' hq' => ⟨q', hq'.resolved, rfl⟩) ?_ ?_ ⟨⟨?_, ?_⟩, hgathered⟩
      · rintro p item _ p' v ⟨q', hq', rfl⟩ - hvisit' ⟨hi, hg⟩
        exact ⟨hi.visit hq hq' hreads hvisit', hg.extend hq' hvisit'⟩
      · intro u hu
        obtain ⟨q', hq', rfl⟩ := (found_of_visit hvisit).2 u (List.mem_filter.mp hu).1
        exact ⟨q', hq'.resolved, rfl⟩
      · exact (CodeGraph.entry?_update p₂.graph _ _ m.imports m.exports m.nodes.values _).trans (if_pos rfl)
      · exact fun n hn => isSome_find?_extend_iff.mpr (.inl ⟨n, hn, rfl⟩)
  cases worked_of_item h with
  | seen hseen => exact absurd hseen hnew
  | gone toPath absent =>
    cases hreads.path.symm.trans toPath
    cases (Context.present_of_reads hreads).symm.trans absent
  | blank walks hempty =>
    obtain ⟨n, hn, -⟩ := exists_module hreads hmap hnodes
    obtain ⟨ids, -, hentered, -⟩ := hwalked walks
    have hsome := hentered.nodes n hn
    rw [Table.find?, hempty] at hsome
    cases hsome
  | finished walks hne hfinish =>
    obtain ⟨ids, hids, hentered, hgathered⟩ := hwalked walks
    exact ⟨ids, _, _, hids, hentered, hgathered, fun h => hne (List.map_eq_nil_iff.mp h), hfinish⟩

/-- A node is stored at the path of its file after the save if it is one of the item, or was stored so
before: a full save keeps the rows of a node that the table of files has. -/
theorem holdsAt_of_finish {c : Context} {full : Bool} {p p' : Pass} {nodes : List Node}
    (hnodes : Skeleton.Collected c.workspace nodes) (hne : nodes ≠ [])
    (hfinish : finish c p nodes full = (p', .ok ())) {q path : Path} {n : Node}
    (hown : n.OwnedBy (Uri.ofResolved q)) (hpath : Uri.toPath (Uri.ofResolved q) = .ok path)
    {e : FileEntry} (hentry : p.graph.entry? (c.relative path) = some e) {rel : String}
    (hrel : c.relativeId n.id = .ok rel) (hmem : rel ∈ e.nodeIds)
    (hn : n.id ∈ nodes.map (·.id) ∨ Store.HoldsAt p.store.rows n.id (c.relative path)) :
    Store.HoldsAt p'.store.rows n.id (c.relative path) := by
  obtain ⟨docs, imports, exports, hfinished⟩ := finish_eq_ok hnodes hne hfinish
  obtain ⟨new, hnew, hpaths, hrows⟩ := hfinished.rows
  have hfile := Context.filePath_of_ownedBy (c := c) hown hpath
  have hadded : ∀ r ∈ new, r.id = n.id → r.filePath = c.relative path := by
    intro r hr hid
    have hplace := hpaths r hr
    rw [hid, hfile] at hplace
    exact (Except.ok.inj hplace).symm
  have hids : ∀ x, x ∈ nodes.map (·.id) ↔ ∃ r ∈ new, r.id = x :=
    fun x => (hnew.mem_iff (a := x)).symm.trans List.mem_map
  rw [hrows]
  obtain ⟨⟨r, hr, hid⟩, hplaces⟩ := Store.holdsAt_replace hids hadded hn
  cases full with
  | false => exact ⟨⟨r, hr, hid⟩, hplaces⟩
  | true =>
    refine ⟨⟨r, Store.mem_currentRows_of_current hr fun r' hr' hsame => ?_, hid⟩,
      fun r' hr' => hplaces r' (List.mem_filter.mp hr').1⟩
    have hid' : r'.id = n.id := hsame.trans hid
    have hplace := hplaces r' hr' hid'
    rw [Context.relativeId_of_ownedBy hown hpath hid' (by rw [hid', hplace]; exact hfile)] at hrel
    rw [Store.Row.isCurrent_iff, hplace]
    exact ⟨e, hentry, Except.ok.inj hrel ▸ hmem⟩

/-- The nodes of an entered document are stored by the save of its item. -/
theorem Entered.holdsAt {c : Context} {full : Bool} {p p' : Pass} {q : Path} {d : Document}
    {path : Path} {m : CodeMap} (hreads : c.Reads (Uri.ofResolved q) d path)
    (hmap : CodeMap.ofDocument c.backend c.workspace d = .ok m) {done : Item} {ids : List String}
    (hids : ((ownNodes (Uri.ofResolved q) m).mapM fun n => c.relativeId n.id) = .ok ids)
    (hentered : Entered (c.relative path) (Digest.ofText d.text) ids (ownNodes (Uri.ofResolved q) m) p done)
    {Q : Path → Prop} (hgathered : Gathered c Q done.nodes) (hne : done.nodes.values ≠ [])
    (hfinish : finish c p done.nodes.values full = (p', .ok ())) {n : Node}
    (hn : n ∈ ownNodes (Uri.ofResolved q) m) : Store.HoldsAt p'.store.rows n.id (c.relative path) := by
  have hown := ((mem_ownNodes hreads hmap).mp hn).2
  obtain ⟨rel, hmem, hrel⟩ := Results.exists_mem_of_mapM hids hn
  refine holdsAt_of_finish hgathered.collected hne hfinish hown hreads.path hentered.entry hrel
    (IdSet.mem_ofList.mpr hmem) (.inl ?_)
  obtain ⟨n', hn'⟩ := Option.isSome_iff_exists.mp (hentered.nodes n hn)
  exact List.mem_map.mpr ⟨n', Table.mem_values_iff.mpr ⟨_, hn'⟩, hgathered.keyed _ _ hn'⟩

/-- The rows of the nodes of an entered document are there after the save. -/
theorem hasNode_of_finish {c : Context} {full : Bool} {p p' : Pass} {q : Path} {d : Document}
    {path : Path} {m : CodeMap} (hreads : c.Reads (Uri.ofResolved q) d path)
    (hmap : CodeMap.ofDocument c.backend c.workspace d = .ok m) {done : Item} {ids : List String}
    (hids : ((ownNodes (Uri.ofResolved q) m).mapM fun n => c.relativeId n.id) = .ok ids)
    (hentered : Entered (c.relative path) (Digest.ofText d.text) ids (ownNodes (Uri.ofResolved q) m) p done)
    (hgathered : Gathered c Path.Resolved done.nodes) (hne : done.nodes.values ≠ [])
    (hfinish : finish c p done.nodes.values full = (p', .ok ())) {n : Node}
    (hn : n ∈ ownNodes (Uri.ofResolved q) m) : p'.store.HasNode n.id :=
  (hentered.holdsAt hreads hmap hids hgathered hne hfinish hn).1

end Pass

namespace Index

theorem process_singleton {c : Context} {i : Index} {uri : String} {full : Bool}
    (h : Pass.Clean c full (.start i) [uri]) : ∃ p, Pass.item c full (.start i) uri = (p, .ok ()) ∧
      (i.process c [uri] full).1.graph = p.graph ∧ (i.process c [uri] full).1.store = p.store := by
  obtain ⟨p, hitem, hattempt, -⟩ := h.head
  rw [process, Pass.items_singleton, hattempt]
  exact ⟨p, hitem, rfl, rfl⟩

/-- After a pass over one document without failure, the table of files carries the digest of its
text. The store has all its nodes exactly if the digest is new, or the store had them before. -/
theorem hasNode_process_iff {c : Context} {i : Index} {full : Bool} {file path : Path} {uri : String}
    {d : Document} {m : CodeMap} (huri : Uri.ofPath c.workspace.cwd file = .ok uri)
    (hreads : c.Reads uri d path) (hmap : CodeMap.ofDocument c.backend c.workspace d = .ok m)
    (hnodes : m.nodes.entries ≠ []) (hclean : Pass.Clean c full (.start i) [uri]) :
    (i.process c [uri] full).1.graph.Carries (c.relative path) (Digest.ofText d.text) ∧
      ((∀ n ∈ Pass.ownNodes uri m, (i.process c [uri] full).1.store.HasNode n.id) ↔
        ¬i.graph.Carries (c.relative path) (Digest.ofText d.text) ∨
          ∀ n ∈ Pass.ownNodes uri m, i.store.HasNode n.id) := by
  obtain ⟨q, hq, rfl⟩ : ∃ q : Path, q.Resolved ∧ uri = Uri.ofResolved q :=
    ⟨_, Path.resolved_resolve _ _, Uri.eq_of_ofPath huri⟩
  obtain ⟨p', hitem, hgraph, hstore⟩ := process_singleton hclean
  rw [hgraph, hstore]
  by_cases hcarries : i.graph.Carries (c.relative path) (Digest.ofText d.text)
  · obtain ⟨hsame, hkept⟩ := Pass.idle_item_of_known hreads (Pass.known_start.mpr hcarries) hitem
    rw [hsame, hkept]
    exact ⟨hcarries, fun h => .inr h, fun h => h.resolve_left (not_not_intro hcarries)⟩
  · obtain ⟨ids, p₁, done, hids, hentered, hgathered, hne, hfinish⟩ := Pass.entered_item_of_stale hq
      hreads (fun h => hcarries (Pass.known_start.mp h)) hmap hnodes List.not_mem_nil hitem
    obtain ⟨_, _, _, hfinished⟩ := Pass.finish_eq_ok hgathered.collected hne hfinish
    obtain ⟨_, hpass⟩ := hfinished.pass_eq
    have hentry : p'.graph.entry? (c.relative path) = some ⟨.ofList ids, Digest.ofText d.text⟩ := by
      rw [hpass]
      exact hentered.entry
    refine ⟨by rw [CodeGraph.Carries, hentry]; rfl, fun _ => .inl hcarries, fun _ n hn => ?_⟩
    exact Pass.hasNode_of_finish hreads hmap hids hentered hgathered hne hfinish hn

/-- A workspace with some files in it, seen from the directory above. -/
def sampleWorkspace (files : List (String × String)) : Workspace :=
  ⟨⟨(["tmp"], .directory) :: (["tmp", "w"], .directory) :: (["tmp", "w", "ws"], .directory) ::
      files.map fun f => (["tmp", "w", "ws", f.1], .file (Utf8.encode f.2.toList))⟩,
    ⟨.root, ["tmp", "w"]⟩, ⟨.root, ["tmp", "w", "ws"]⟩⟩

theorem mem_sampleFiles {files : List (String × String)} {p : List String} {bytes : List UInt8}
    (h : (p, .file bytes) ∈ (sampleWorkspace files).files.entries) :
    ∃ f ∈ files, p = ["tmp", "w", "ws", f.1] ∧ bytes = Utf8.encode f.2.toList := by
  have hfile : (p, FileTree.Entry.file bytes) ∈
      files.map fun f => (["tmp", "w", "ws", f.1], .file (Utf8.encode f.2.toList)) := by
    simpa [sampleWorkspace] using h
  obtain ⟨f, hf, e⟩ := List.mem_map.mp hfile
  cases e
  exact ⟨f, hf, rfl, rfl⟩

/-- Names every symbol but one, for which it fails. -/
def sampleContext (files : List (String × String)) (failing : String) : Context :=
  ⟨sampleWorkspace files, .tolerant, fun _ n _ _ =>
    if n.name = failing then Traced.fail (.generation n.id "ollama") else return "<" ++ n.name ++ ">",
    .nobody⟩

/-- Skeletons for `a.py` cannot be made. After an edit they can, and a pass brings the file in. -/
theorem hasNode_process_after_edit :
    let uri := "file:///tmp/w/ws/a.py"
    let before := sampleContext [("a.py", "x\n")] "a"
    let after := sampleContext [("a.py", "y\n")] "b"
    let i := ((make before.base (.empty "graph.json" 4) "b.py" []).process before [uri] false).1
    ¬i.store.HasNode uri ∧ (i.process after [uri] false).1.store.HasNode uri := by
  intro uri before after i
  refine ⟨by decide +kernel, ?_⟩
  have huri : Uri.ofPath after.workspace.cwd ⟨.root, ["tmp", "w", "ws", "a.py"]⟩ = .ok uri := by
    decide +kernel
  have hreads : after.Reads uri ⟨uri, "y\n"⟩ ⟨.root, ["tmp", "w", "ws", "a.py"]⟩ :=
    ⟨by decide +kernel, by decide +kernel⟩
  let n : Node := ⟨uri, uri, ⟨⟨0, 0⟩, ⟨1, 0⟩⟩, none, .module, "a"⟩
  have hmap : CodeMap.ofDocument after.backend after.workspace ⟨uri, "y\n"⟩ =
      .ok ⟨Table.empty.put uri n, .empty, .empty⟩ := by decide +kernel
  have hclean : Pass.Clean after false (.start i) [uri] := by decide +kernel
  have hstale : ¬i.graph.Carries (after.relative ⟨.root, ["tmp", "w", "ws", "a.py"]⟩)
      (Digest.ofText "y\n") := by decide +kernel
  exact (hasNode_process_iff huri hreads hmap (by decide) hclean).2.mpr (.inl hstale) n (by decide)

/-- A pass over `a.py` fails at a function of the module that it imports. The import is then mended,
and another pass runs without failure; but `a.py` counts as current, and is not in the store. -/
theorem not_hasNode_after_failure :
    let uri := "file:///tmp/w/ws/a.py"
    let before := sampleContext [("a.py", "import b\n"), ("b.py", "def g():0\n")] "g"
    let after := sampleContext [("a.py", "import b\n"), ("b.py", "def h():0\n")] "g"
    let i := ((make before.base (.empty "graph.json" 256) "b.py" []).process before [uri] false).1
    ((CodeMap.ofDocument after.backend after.workspace ⟨uri, "import b\n"⟩).toOption.map
        fun m => (Pass.ownNodes uri m).map (·.id)) = some [uri] ∧
      Pass.Clean after false (.start i) [uri] ∧
      ¬(i.process after [uri] false).1.store.HasNode uri := by
  decide +kernel

end Index

end OutlineIndex
