import OutlineIndex.Proofs.Recovery

namespace OutlineIndex

namespace Path.Canonical

variable {cwd q : Path}

theorem toPath (h : Canonical cwd q) : Uri.toPath (Uri.ofResolved q) = .ok q := by
  obtain ⟨hr, hplain, hnul, hdecode⟩ := h.parts
  exact (canonical_of_parts hr hplain hnul hdecode cwd).2

theorem resolved (h : Canonical cwd q) : q.Resolved := h.parts.1

theorem resolve_eq (h : Canonical cwd q) (cwd' : Path) : resolve cwd' q = q :=
  resolve_of_resolved h.resolved cwd'

theorem plain_resolve (h : Canonical cwd q) (cwd' : Path) : Plain (resolve cwd' q).parts := by
  rw [h.resolve_eq]
  exact h.parts.2.1

end Path.Canonical

/-- The relative path determines the file. -/
theorem Context.eq_of_relative_eq {c : Context} {q q' : Path} (hq : Path.Canonical c.workspace.cwd q)
    (hq' : Path.Canonical c.workspace.cwd q') (h : c.relative q = c.relative q') : q = q' := by
  have heq := Uri.resolve_eq_of_relativePath_eq c.resolved_base (hq.plain_resolve _)
    (hq'.plain_resolve c.workspace.cwd) h
  rwa [hq.resolve_eq, hq'.resolve_eq] at heq

/-- What an identifier has after its `#`: nothing for a module, a position for a definition. -/
def NodeId.IsFragment (f : String) : Prop := f = "" ∨ ∃ r : Span, f = NodeId.fragment r

theorem NodeId.IsFragment.hash_not_mem {f : String} (h : IsFragment f) : '#' ∉ f.toList := by
  rcases h with rfl | ⟨r, rfl⟩
  · simp
  · exact not_mem_fragment r

theorem Node.OwnedBy.exists_fragment {uri : String} {n : Node} (h : n.OwnedBy uri) :
    ∃ f, NodeId.IsFragment f ∧ n.id = NodeId.withFragment uri f := by
  cases h with
  | module _ hid => exact ⟨"", .inl rfl, by rw [hid]; rfl⟩
  | definition _ hid => exact ⟨_, .inr ⟨_, rfl⟩, by rw [hid, NodeId.make_eq]⟩

theorem NodeId.withFragment_inj {base f f' : String} (h : withFragment base f = withFragment base f') :
    f = f' := by
  have hlength : ∀ {f : String}, f ≠ "" → base ≠ withFragment base f := by
    intro f hf e
    have hlen := congrArg (fun s => s.toList.length) e
    rw [withFragment, if_neg hf] at hlen
    simp at hlen
  by_cases hf : f = "" <;> by_cases hf' : f' = ""
  · rw [hf, hf']
  · rw [hf, withFragment, if_pos rfl] at h
    exact absurd h (hlength hf')
  · rw [hf', withFragment.eq_def base "", if_pos rfl] at h
    exact absurd h.symm (hlength hf)
  · rw [withFragment, withFragment, if_neg hf, if_neg hf'] at h
    exact String.append_right_inj _ |>.mp h

/-- The identifier of a node of a file, the path of the file and the identifier relative to the
workspace. -/
def Placed (cwd base : Path) (id path rel : String) : Prop :=
  ∃ q f, Path.Canonical cwd q ∧ NodeId.IsFragment f ∧ id = NodeId.withFragment (Uri.ofResolved q) f ∧
    path = Uri.relativePath cwd base q ∧ rel = NodeId.withFragment path f

namespace Placed

variable {cwd base : Path} {id id' path path' rel rel' : String}

/-- The identifier determines the rest. -/
theorem unique (h : Placed cwd base id path rel) (h' : Placed cwd base id path' rel') :
    path = path' ∧ rel = rel' := by
  obtain ⟨q, f, hq, hf, hid, rfl, rfl⟩ := h
  obtain ⟨q', f', hq', hf', hid', rfl, rfl⟩ := h'
  have hsplit := NodeId.split_ofResolved q hf.hash_not_mem
  rw [← hid, hid', NodeId.split_ofResolved q' hf'.hash_not_mem] at hsplit
  obtain ⟨huri, rfl⟩ := Prod.mk.inj hsplit
  have hpath := hq'.toPath
  rw [huri, hq.toPath] at hpath
  obtain rfl := Except.ok.inj hpath
  exact ⟨rfl, rfl⟩

/-- The relative identifier of a definition leads back to the identifier. -/
theorem absolute_eq (hb : base.Resolved) (h : Placed cwd base id path rel) (hne : rel ≠ path) :
    NodeId.absolute base rel = id := by
  obtain ⟨q, f, hq, hf, rfl, rfl, rfl⟩ := h
  have hfne : f ≠ "" := by
    rintro rfl
    exact hne rfl
  rw [NodeId.absolute_relativePath hb (hq.plain_resolve cwd)
    (NodeId.split_relativePath (hq.plain_resolve cwd) hfne hf.hash_not_mem), hq.resolve_eq]

end Placed

section Nodes

variable {c : Context} {q : Path} {n : Node}

theorem Context.placed_of_ownedBy (hq : Path.Canonical c.workspace.cwd q)
    (hn : n.OwnedBy (Uri.ofResolved q)) {rel : String} (hrel : c.relativeId n.id = .ok rel) :
    Placed c.workspace.cwd c.base n.id (c.relative q) rel := by
  obtain ⟨f, hf, hid⟩ := hn.exists_fragment
  rw [Context.relativeId, hid, NodeId.toRelative_ofResolved hq.toPath hf.hash_not_mem] at hrel
  exact ⟨q, f, hq, hf, hid, rfl, (Except.ok.inj hrel).symm⟩

theorem Context.relativeId_uri (hq : Path.Canonical c.workspace.cwd q) :
    c.relativeId (Uri.ofResolved q) = .ok (c.relative q) := by
  have hrel : NodeId.toRelative c.workspace.cwd c.base (NodeId.withFragment (Uri.ofResolved q) "") = _ :=
    NodeId.toRelative_ofResolved hq.toPath (by simp)
  rw [NodeId.withFragment, NodeId.withFragment, if_pos rfl, if_pos rfl] at hrel
  rw [Context.relativeId, hrel]
  rfl

theorem Context.placed_of_row (hq : Path.Canonical c.workspace.cwd q)
    (hn : n.OwnedBy (Uri.ofResolved q)) {r : Store.Row} (hid : r.id = n.id)
    (hr : c.filePath r.id = .ok r.filePath) :
    Placed c.workspace.cwd c.base r.id r.filePath r.relativeId := by
  have hplaced := placed_of_ownedBy hq hn (relativeId_of_ownedBy hn hq.toPath hid hr)
  rw [hid, filePath_of_ownedBy hn hq.toPath] at hr
  rw [hid, ← Except.ok.inj hr]
  exact hplaced

end Nodes

/-- The table of files and some rows agree, up to the nodes that wait to be saved. -/
structure Agreement (cwd base : Path) (files : Table FileEntry) (rows : List Store.Row)
    (waiting : String → Prop) : Prop where
  distinct : (rows.map (·.id)).Nodup
  placed : ∀ r ∈ rows, Placed cwd base r.id r.filePath r.relativeId
  current : ∀ r ∈ rows, r.isCurrent files = true
  held : ∀ path e, files.find? path = some e → ∀ rel ∈ e.nodeIds,
    (∃ r ∈ rows, r.filePath = path ∧ r.relativeId = rel) ∨
      ∃ id, waiting id ∧ Placed cwd base id path rel
  waits : ∀ id, waiting id → ∃ path rel e,
    Placed cwd base id path rel ∧ files.find? path = some e ∧ rel ∈ e.nodeIds

namespace Agreement

variable {cwd base : Path} {files : Table FileEntry} {rows : List Store.Row} {waiting : String → Prop}

theorem nothing (cwd base : Path) : Agreement cwd base .empty [] fun _ => False :=
  ⟨.nil, by simp, by simp, by simp, by simp⟩

/-- The identifiers that are dropped when a file is entered anew are those of its rows whose nodes
are gone. The module is never gone, and definitions can be told from their relative identifiers. -/
theorem mem_stale_iff (hb : base.Resolved) (h : Agreement cwd base files rows waiting) {path : String}
    {ids : IdSet} (hmodule : path ∈ ids) (hnew : ∀ id rel, waiting id → ¬Placed cwd base id path rel)
    {r : Store.Row} (hr : r ∈ rows) :
    (∃ e, files.find? path = some e ∧ ∃ rel ∈ e.nodeIds, rel ∉ ids ∧ NodeId.absolute base rel = r.id) ↔
      r.filePath = path ∧ r.relativeId ∉ ids := by
  constructor
  · rintro ⟨e, he, rel, hrel, hout, habs⟩
    rcases h.held path e he rel hrel with ⟨r', hr', rfl, rfl⟩ | ⟨id, hwait, hplaced⟩
    · have hne : r'.relativeId ≠ r'.filePath := by
        intro heq
        rw [heq] at hout
        exact hout hmodule
      have hid := (h.placed r' hr').absolute_eq hb hne
      rw [habs] at hid
      have hplaced := h.placed r hr
      rw [hid] at hplaced
      obtain ⟨hpath, hrel⟩ := hplaced.unique (h.placed r' hr')
      rw [hrel]
      exact ⟨hpath, hout⟩
    · exact absurd hplaced (hnew id rel hwait)
  · rintro ⟨rfl, hout⟩
    obtain ⟨e, he, hrel⟩ := Store.Row.isCurrent_iff.mp (h.current r hr)
    have hne : r.relativeId ≠ r.filePath := by
      intro heq
      rw [heq] at hout
      exact hout hmodule
    exact ⟨e, he, r.relativeId, hrel, hout, (h.placed r hr).absolute_eq hb hne⟩

/-- A file is entered with new nodes, which wait to be saved. -/
theorem enter (hb : base.Resolved) (h : Agreement cwd base files rows waiting) {path sha : String}
    {ids : IdSet} {own : String → Prop} (hown : ∀ id, own id → ∃ rel ∈ ids, Placed cwd base id path rel)
    (hids : ∀ rel ∈ ids, ∃ id, own id ∧ Placed cwd base id path rel) (hmodule : path ∈ ids)
    (hnew : ∀ id rel, waiting id → ¬Placed cwd base id path rel) {stale : List String}
    (hstale : ∀ id, id ∈ stale ↔ ∃ e, files.find? path = some e ∧
      ∃ rel ∈ e.nodeIds, rel ∉ ids ∧ NodeId.absolute base rel = id) :
    Agreement cwd base (files.put path ⟨ids, sha⟩) (rows.filter fun r => !stale.contains r.id)
      fun id => own id ∨ waiting id := by
  have hkept : ∀ r, r ∈ rows.filter (fun r => !stale.contains r.id) ↔
      r ∈ rows ∧ (r.filePath = path → r.relativeId ∈ ids) := by
    intro r
    rw [List.mem_filter, Bool.not_eq_true', ← Bool.not_eq_true, List.contains_iff_mem]
    refine and_congr_right fun hr => ?_
    rw [hstale, h.mem_stale_iff hb hmodule hnew hr, not_and, Classical.not_not]
  refine ⟨?_, ?_, ?_, ?_, ?_⟩
  · exact h.distinct.sublist (List.filter_sublist.map _)
  · intro r hr
    exact h.placed r ((hkept r).mp hr).1
  · intro r hr
    obtain ⟨hmem, hin⟩ := (hkept r).mp hr
    rw [Store.Row.isCurrent_iff, Table.find?_put]
    split
    · rename_i hpath
      exact ⟨_, rfl, hin hpath⟩
    · exact Store.Row.isCurrent_iff.mp (h.current r hmem)
  · intro path' e he rel hrel
    rw [Table.find?_put] at he
    split at he
    · rename_i hpath
      obtain rfl := Option.some.inj he
      obtain ⟨id, hid, hplaced⟩ := hids rel hrel
      exact .inr ⟨id, .inl hid, hpath ▸ hplaced⟩
    · rename_i hpath
      rcases h.held path' e he rel hrel with ⟨r, hr, rfl, hrel⟩ | ⟨id, hwait, hplaced⟩
      · exact .inl ⟨r, (hkept r).mpr ⟨hr, fun heq => absurd heq hpath⟩, rfl, hrel⟩
      · exact .inr ⟨id, .inr hwait, hplaced⟩
  · rintro id (hid | hwait)
    · obtain ⟨rel, hrel, hplaced⟩ := hown id hid
      exact ⟨path, rel, ⟨ids, sha⟩, hplaced, by simp, hrel⟩
    · obtain ⟨path', rel, e, hplaced, he, hrel⟩ := h.waits id hwait
      have hpath : path' ≠ path := by
        rintro rfl
        exact hnew id rel hwait hplaced
      exact ⟨path', rel, e, hplaced, by rw [Table.find?_put, if_neg hpath]; exact he, hrel⟩

/-- The nodes that wait are saved, each in place of the row it had. -/
theorem save (h : Agreement cwd base files rows waiting) {ids : List String}
    (hids : ∀ id, id ∈ ids ↔ waiting id) {new : List Store.Row}
    (hperm : (new.map (·.id)).Perm ids) (hdistinct : ids.Nodup)
    (hplaced : ∀ r ∈ new, Placed cwd base r.id r.filePath r.relativeId) :
    Agreement cwd base files (rows.filter (fun r => !ids.contains r.id) ++ new) fun _ => False := by
  have hkept : ∀ r, r ∈ rows.filter (fun r => !ids.contains r.id) ↔ r ∈ rows ∧ r.id ∉ ids := by
    intro r
    rw [List.mem_filter, Bool.not_eq_true', ← Bool.not_eq_true, List.contains_iff_mem]
  have hnew : ∀ id ∈ ids, ∃ r ∈ new, r.id = id := by
    intro id hid
    exact List.mem_map.mp (hperm.mem_iff.mpr hid)
  have hsaved : ∀ id path rel, id ∈ ids → Placed cwd base id path rel →
      ∃ r ∈ new, r.filePath = path ∧ r.relativeId = rel := by
    intro id path rel hid hplace
    obtain ⟨r, hr, rfl⟩ := hnew id hid
    obtain ⟨hpath, hrel⟩ := (hplaced r hr).unique hplace
    exact ⟨r, hr, hpath, hrel⟩
  refine ⟨?_, ?_, ?_, ?_, by simp⟩
  · rw [List.map_append, List.nodup_append]
    refine ⟨h.distinct.sublist (List.filter_sublist.map _), hperm.nodup_iff.mpr hdistinct, ?_⟩
    rintro id hold _ hmem rfl
    obtain ⟨r, hr, rfl⟩ := List.mem_map.mp hold
    exact ((hkept r).mp hr).2 (hperm.mem_iff.mp hmem)
  · intro r hr
    rcases List.mem_append.mp hr with hr | hr
    · exact h.placed r ((hkept r).mp hr).1
    · exact hplaced r hr
  · intro r hr
    rcases List.mem_append.mp hr with hr | hr
    · exact h.current r ((hkept r).mp hr).1
    · have hid := hperm.mem_iff.mp (List.mem_map_of_mem hr)
      obtain ⟨path, rel, e, hplace, he, hrel⟩ := h.waits r.id ((hids r.id).mp hid)
      obtain ⟨rfl, rfl⟩ := (hplaced r hr).unique hplace
      exact Store.Row.isCurrent_iff.mpr ⟨e, he, hrel⟩
  · intro path e he rel hrel
    refine .inl ?_
    rcases h.held path e he rel hrel with ⟨r, hr, rfl, rfl⟩ | ⟨id, hwait, hplace⟩
    · by_cases hid : r.id ∈ ids
      · obtain ⟨r', hr', hpath, hrel⟩ := hsaved r.id _ _ hid (h.placed r hr)
        exact ⟨r', List.mem_append_right _ hr', hpath, hrel⟩
      · exact ⟨r, List.mem_append_left _ ((hkept r).mpr ⟨hr, hid⟩), rfl, rfl⟩
    · obtain ⟨r, hr, hpath, hrel⟩ := hsaved id path rel ((hids id).mpr hwait) hplace
      exact ⟨r, List.mem_append_right _ hr, hpath, hrel⟩

/-- A file goes with its rows. -/
theorem remove (h : Agreement cwd base files rows fun _ => False) {path : String} {ids : List String}
    (hids : ∀ id, id ∈ ids ↔ ∃ r ∈ rows, r.filePath = path ∧ r.id = id) {files' : Table FileEntry}
    (hfiles : ∀ k, files'.find? k = if k = path then none else files.find? k) :
    Agreement cwd base files' (rows.filter fun r => !ids.contains r.id) fun _ => False := by
  have hkept : ∀ r, r ∈ rows.filter (fun r => !ids.contains r.id) ↔ r ∈ rows ∧ r.filePath ≠ path := by
    intro r
    rw [List.mem_filter, Bool.not_eq_true', ← Bool.not_eq_true, List.contains_iff_mem]
    refine and_congr_right fun hr => not_congr ?_
    rw [hids]
    constructor
    · rintro ⟨r', hr', hpath, hid⟩
      rw [← hpath]
      exact ((hid ▸ h.placed r hr).unique (h.placed r' hr')).1
    · intro hpath
      exact ⟨r, hr, hpath, rfl⟩
  refine ⟨h.distinct.sublist (List.filter_sublist.map _), ?_, ?_, ?_, by simp⟩
  · intro r hr
    exact h.placed r ((hkept r).mp hr).1
  · intro r hr
    obtain ⟨hmem, hpath⟩ := (hkept r).mp hr
    rw [Store.Row.isCurrent_iff, hfiles, if_neg hpath]
    exact Store.Row.isCurrent_iff.mp (h.current r hmem)
  · intro path' e he rel hrel
    rw [hfiles] at he
    split at he
    · cases he
    · rename_i hpath
      rcases h.held path' e he rel hrel with ⟨r, hr, rfl, hrel⟩ | ⟨id, hwait, -⟩
      · exact .inl ⟨r, (hkept r).mpr ⟨hr, hpath⟩, rfl, hrel⟩
      · exact hwait.elim

end Agreement

theorem CodeGraph.find?_files_remove (g : CodeGraph) (path k : String) :
    (g.remove path).files.find? k = if k = path then none else g.files.find? k := by
  unfold remove
  split
  · rename_i hnone
    split
    · rename_i hk
      rw [hk]
      exact hnone
    · rfl
  · exact Table.find?_erase _ _ _

theorem CodeGraph.workspace_remove (g : CodeGraph) (path : String) :
    (g.remove path).workspace = g.workspace := by
  unfold remove
  split <;> rfl

namespace Pass

theorem mem_staleIds {c : Context} {s : FileState} {ids : IdSet} {id : String} :
    id ∈ staleIds c s ids ↔ ∃ e, s.entry = some e ∧
      ∃ rel ∈ e.nodeIds, rel ∉ ids ∧ NodeId.absolute c.base rel = id := by
  unfold staleIds
  cases s.entry with
  | none => simp
  | some e =>
    simp only [List.mem_map, ← IdSet.mem_def, IdSet.mem_sdiff, Option.some.injEq, exists_eq_left', and_assoc]

/-- Inside an item the table and the rows agree up to the nodes collected so far, which belong to
documents that have been visited. -/
structure Agrees (c : Context) (p : Pass) (item : Item) : Prop where
  agreement : Agreement c.workspace.cwd c.base p.graph.files p.store.rows
    fun id => (item.nodes.find? id).isSome
  gathered : Gathered c (Path.Canonical c.workspace.cwd) item.nodes
  visited : ∀ k n, item.nodes.find? k = some n → n.uri ∈ p.visited

/-- A document that has not been visited has no node that waits. -/
theorem Agrees.not_placed {c : Context} {p : Pass} {item : Item} (h : Agrees c p item) {q : Path}
    (hq : Path.Canonical c.workspace.cwd q) (hnew : Uri.ofResolved q ∉ p.visited) (id rel : String)
    (hwait : (item.nodes.find? id).isSome) :
    ¬Placed c.workspace.cwd c.base id (c.relative q) rel := by
  rintro ⟨q₁, f, hq₁, hf, hid, hpath, -⟩
  have heq := Context.eq_of_relative_eq hq hq₁ hpath
  obtain ⟨n, hn⟩ := Option.isSome_iff_exists.mp hwait
  obtain ⟨q₂, -, hown⟩ := h.gathered.owned id n hn
  obtain ⟨f₂, hf₂, hid₂⟩ := hown.exists_fragment
  rw [h.gathered.keyed id n hn, hid] at hid₂
  have hsplit := NodeId.split_ofResolved q₁ hf.hash_not_mem
  rw [hid₂, NodeId.split_ofResolved q₂ hf₂.hash_not_mem] at hsplit
  have huri := (Prod.mk.inj hsplit).1
  rw [← hown.uri_eq, ← heq] at huri
  exact hnew (huri ▸ h.visited id n hn)

theorem Agrees.visit {c : Context} {p p' : Pass} {item : Item} {q : Path} {v : Visit}
    (hq : Path.Canonical c.workspace.cwd q) (hnew : Uri.ofResolved q ∉ p.visited)
    (hvisit : visit c (p.mark (Uri.ofResolved q)) (Uri.ofResolved q) = (p', .ok v))
    (h : Agrees c p item) : Agrees c p' (item.extend v) := by
  have hgathered := h.gathered.extend hq hvisit
  have hvisited : p'.visited = p.visited ++ [Uri.ofResolved q] := visited_of_visit hvisit
  refine ⟨?_, hgathered, ?_⟩
  · cases outcome_of_visit hvisit with
    | idle quiet => rw [quiet.graph, quiet.store]; exact h.agreement
    | blank quiet => rw [quiet.graph, quiet.store]; exact h.agreement
    | @entered p₁ d path m found ids quiet parsed reads stale map nodes hsub hmem ids_eq =>
      obtain rfl : path = q := Except.ok.inj (reads.path.symm.trans hq.toPath)
      have hwaiting : (fun id => ((item.extend ⟨found, ownNodes (Uri.ofResolved path) m⟩).nodes.find?
          id).isSome = true) = fun id => (∃ n ∈ ownNodes (Uri.ofResolved path) m, n.id = id) ∨
            (item.nodes.find? id).isSome = true := funext fun id => propext isSome_find?_extend_iff
      have hplaced : ∀ n ∈ ownNodes (Uri.ofResolved path) m, ∀ rel, c.relativeId n.id = .ok rel →
          Placed c.workspace.cwd c.base n.id (c.relative path) rel :=
        fun n hn rel hrel => Context.placed_of_ownedBy hq ((mem_ownNodes reads map).mp hn).2 hrel
      rw [hwaiting]
      change Agreement _ _ (p₁.graph.files.put (c.relative path) ⟨.ofList ids, Digest.ofText d.text⟩)
        (p₁.store.deleteDocuments _).rows _
      rw [Store.rows_deleteDocuments, quiet.graph, quiet.store]
      refine h.agreement.enter c.resolved_base ?_ ?_ ?_ (h.not_placed hq hnew) fun id => mem_staleIds
      · rintro _ ⟨n, hn, rfl⟩
        obtain ⟨rel, hrel, hn'⟩ := Results.exists_mem_of_mapM ids_eq hn
        exact ⟨rel, IdSet.mem_ofList.mpr hrel, hplaced n hn rel hn'⟩
      · intro rel hrel
        obtain ⟨n, hn, hn'⟩ := Results.exists_of_mem_mapM ids_eq (IdSet.mem_ofList.mp hrel)
        exact ⟨n.id, ⟨n, hn, rfl⟩, hplaced n hn rel hn'⟩
      · obtain ⟨n, hn, hid⟩ := exists_module reads map nodes
        obtain ⟨rel, hrel, hn'⟩ := Results.exists_mem_of_mapM ids_eq hn
        rw [hid, Context.relativeId_uri hq] at hn'
        exact IdSet.mem_ofList.mpr (Except.ok.inj hn' ▸ hrel)
  · intro k n hk
    rw [hvisited, List.mem_append, List.mem_singleton]
    rcases Table.find?_foldl_put_cases hk with ⟨x, hx, hkey, rfl⟩ | ⟨hold, -⟩
    · exact .inr (nodes_of_visit hvisit hx).1.uri_eq
    · exact .inl (h.visited k n hold)

/-- Between items nothing waits. -/
def Settled (c : Context) (p : Pass) : Prop :=
  Agreement c.workspace.cwd c.base p.graph.files p.store.rows fun _ => False

theorem Settled.start {c : Context} {p : Pass} (h : Settled c p) (uri : String) : Agrees c p (.start uri) := by
  refine ⟨?_, gathered_empty _ _, by rintro _ _ ⟨⟩⟩
  have hnone : (fun id => ((Item.start uri).nodes.find? id).isSome = true) = fun _ => False :=
    funext fun id => eq_false (by simp [Item.start])
  rw [hnone]
  exact h

theorem Agrees.settled {c : Context} {p : Pass} {item : Item} (h : Agrees c p item)
    (hitem : item.nodes.entries = []) : Settled c p := by
  have hnone : (fun id => (item.nodes.find? id).isSome = true) = fun _ => False :=
    funext fun id => eq_false (by simp [Table.find?, hitem])
  have hagreement := h.agreement
  rw [hnone] at hagreement
  exact hagreement

/-- The save at the end of an item settles it. A full save has nothing to prune. -/
theorem Agrees.finish {c : Context} {p p' : Pass} {item : Item} {full : Bool} (h : Agrees c p item)
    (hne : item.nodes.entries ≠ []) (hfinish : finish c p item.nodes.values full = (p', .ok ())) :
    Settled c p' := by
  obtain ⟨docs, imports, exports, hfinished⟩ := finish_eq_ok h.gathered.collected
    (fun hnil => hne (List.map_eq_nil_iff.mp hnil)) hfinish
  obtain ⟨new, hnew, hpaths, hrows⟩ := hfinished.rows
  obtain ⟨reports, hpass⟩ := hfinished.pass_eq
  have hids : ∀ id, id ∈ item.nodes.values.map (·.id) ↔ (item.nodes.find? id).isSome = true := by
    intro id
    rw [List.mem_map, Option.isSome_iff_exists]
    constructor
    · rintro ⟨n, hn, rfl⟩
      obtain ⟨k, hk⟩ := Table.mem_values_iff.mp hn
      exact ⟨n, (h.gathered.keyed k n hk).symm ▸ hk⟩
    · rintro ⟨n, hn⟩
      exact ⟨n, Table.mem_values_iff.mpr ⟨id, hn⟩, h.gathered.keyed id n hn⟩
  have hplaced : ∀ r ∈ new, Placed c.workspace.cwd c.base r.id r.filePath r.relativeId := by
    intro r hr
    obtain ⟨n, hn⟩ := Option.isSome_iff_exists.mp ((hids r.id).mp (hnew.mem_iff.mp (List.mem_map_of_mem hr)))
    obtain ⟨q, hq, hown⟩ := h.gathered.owned _ n hn
    exact Context.placed_of_row hq hown (h.gathered.keyed _ n hn).symm (hpaths r hr)
  have hsaved := h.agreement.save hids hnew h.gathered.collected.distinct hplaced
  have hgraph : p'.graph = p.graph := by rw [hpass]; rfl
  unfold Settled
  rw [hgraph, hrows]
  cases full with
  | false => exact hsaved
  | true =>
    rw [if_pos rfl, Store.currentRows_of_current hsaved.current]
    exact hsaved

theorem drop_eq_ok {c : Context} {p p' : Pass} {path : Path} (h : drop c p path = (p', .ok ())) :
    p'.graph = p.graph.remove (c.relative path) ∧
      p'.store = p.store.deleteDocuments ((p.store.findByPath [c.relative path]).map (·.id)) := by
  have hdropped := dropped_of_drop h
  exact ⟨hdropped.graph, hdropped.store⟩

theorem Settled.drop {c : Context} {p p' : Pass} {path : Path} (h : Settled c p)
    (hdrop : drop c p path = (p', .ok ())) : Settled c p' := by
  obtain ⟨hgraph, hstore⟩ := drop_eq_ok hdrop
  unfold Settled
  rw [hgraph, hstore, Store.rows_deleteDocuments]
  exact h.remove (fun id => Store.mem_ids_findByPath) fun k => CodeGraph.find?_files_remove _ _ k

theorem settled_item {c : Context} {full : Bool} {p p' : Pass} {q : Path}
    (hfiles : ∀ q, CodeMap.IsTarget c.workspace q → Path.Canonical c.workspace.cwd q)
    (hq : Path.Canonical c.workspace.cwd q) (h : item c full p (Uri.ofResolved q) = (p', .ok ()))
    (hp : Settled c p) : Settled c p' := by
  have hwalked : ∀ {p' done}, Walks c p (.start (Uri.ofResolved q)) [Uri.ofResolved q] (p', .ok done) →
      Agrees c p' done := by
    intro p' done hwalks
    refine hwalks.keeps (U := fun u => ∃ q', Path.Canonical c.workspace.cwd q' ∧ u = Uri.ofResolved q')
      (fun q' hq' => ⟨q', hfiles q' hq', rfl⟩) ?_ ?_ (hp.start _)
    · rintro p item _ p' v ⟨q', hq', rfl⟩ hnew hvisit hi
      exact hi.visit hq' hnew hvisit
    · intro u hu
      exact ⟨q, hq, List.mem_singleton.mp hu⟩
  cases worked_of_item h with
  | seen => exact hp
  | gone _ _ hdrop => exact hp.drop hdrop
  | blank walks nodes => exact (hwalked walks).settled nodes
  | finished walks nodes hfinish => exact (hwalked walks).finish nodes hfinish

end Pass

/-- The files that an index can take in: those of the workspace and those that its filter selects. -/
def Context.Indexable (c : Context) (f : FileFilter) (q : Path) : Prop :=
  CodeMap.IsTarget c.workspace q ∨ ∃ found,
    FileFilter.select c.workspace.files c.base.parts f.pattern f.exclusion = .ok found ∧
      ∃ rel ∈ found, q = Path.resolve c.base (c.base ++ Path.ofString rel)

/-- A context over a workspace, all of whose files are found again by their URIs. -/
structure Context.Over (c : Context) (cwd root : Path) (f : FileFilter) : Prop where
  cwd_eq : c.workspace.cwd = cwd
  root_eq : c.workspace.root = root
  canonical : ∀ q, c.Indexable f q → Path.Canonical cwd q

namespace Index

/-- The states of an index after calls in which nothing fails. Between calls the files of the
workspace may change in any way. -/
inductive Session (cwd root : Path) : Index → Prop where
  | start (graphPath : String) (dimension : Int) (pattern : String) (exclusion : List String) :
      Session cwd root (make (Path.resolve cwd root) (.empty graphPath dimension) pattern exclusion)
  | process {i : Index} {c : Context} {uris : List String} {full : Bool} (session : Session cwd root i)
      (sited : c.Over cwd root i.filter)
      (batch : ∀ u ∈ uris, ∃ q, Path.Canonical cwd q ∧ Uri.ofPath cwd q = .ok u)
      (clean : Pass.Clean c full (.start i) uris) : Session cwd root (i.process c uris full).1
  | build {i : Index} {c : Context} (session : Session cwd root i) (sited : c.Over cwd root i.filter)
      (clean : ∀ uris, FileFilter.documents c.workspace.files c.base i.filter.pattern
        i.filter.exclusion = .ok uris →
          Pass.Clean c true (.start { i with filter := i.filter.forget }) uris) :
      Session cwd root (i.build c).1
  | deleteFile {i : Index} {c : Context} {path : String} (session : Session cwd root i)
      (done : (i.deleteFile c path).2.result = .ok ()) : Session cwd root (i.deleteFile c path).1
  | filter {i : Index} (session : Session cwd root i) (f : FileFilter) :
      Session cwd root { i with filter := f }

/-- The table of files and the store of an index agree. -/
def Agrees (cwd base : Path) (i : Index) : Prop :=
  Agreement cwd base i.graph.files i.store.rows fun _ => False

theorem process_eq (c : Context) (i : Index) (uris : List String) (full : Bool) :
    (i.process c uris full).1.graph = (Pass.items c full (.start i) uris).1.graph ∧
      (i.process c uris full).1.store = (Pass.items c full (.start i) uris).1.store := by
  unfold process
  generalize Pass.items c full (.start i) uris = r
  obtain ⟨p, r⟩ := r
  exact ⟨rfl, rfl⟩

theorem graph_process_singleton (c : Context) (i : Index) (uri : String) (full : Bool) :
    (i.process c [uri] full).1.graph = (Pass.attempt c full (.start i) uri).1.graph := by
  rw [(process_eq c i [uri] full).1, Pass.items_singleton]

theorem agrees_process {cwd root : Path} {c : Context} {i : Index} {uris : List String} {full : Bool}
    (hover : c.Over cwd root i.filter)
    (hbatch : ∀ u ∈ uris, ∃ q, Path.Canonical cwd q ∧ u = Uri.ofResolved q)
    (hclean : Pass.Clean c full (.start i) uris) (h : Agrees cwd (Path.resolve cwd root) i) :
    Agrees cwd (Path.resolve cwd root) (i.process c uris full).1 := by
  obtain ⟨rfl, rfl, hcanonical⟩ := hover
  have hsettled := (hclean.keeps (I := Pass.Settled c) ?_ h).2
  · obtain ⟨hgraph, hstore⟩ := process_eq c i uris full
    unfold Agrees
    rw [hgraph, hstore]
    exact hsettled
  · intro p p' u hu hitem hp
    obtain ⟨q, hq, rfl⟩ := hbatch u hu
    exact Pass.settled_item (fun q' hq' => hcanonical q' (.inl hq')) hq hitem hp

theorem deleteFile_eq_ok {c : Context} {i : Index} {path : String}
    (h : (i.deleteFile c path).2.result = .ok ()) :
    (i.deleteFile c path).1.graph = i.graph.remove path ∧ ∃ imports exports,
      c.relativeEdges (i.graph.remove path).imports = .ok imports ∧
      c.relativeEdges (i.graph.remove path).exports = .ok exports ∧
      (i.store.deleteDocuments ((i.store.findByPath [path]).map (·.id))).save [] imports exports
        (i.graph.remove path).files true = ((i.deleteFile c path).1.store, .ok ()) := by
  unfold deleteFile at h ⊢
  dsimp only at h ⊢
  generalize hcommit : Pass.commit c _ _ _ = r at h ⊢
  obtain ⟨p, r⟩ := r
  obtain rfl : r = .ok () := h
  obtain ⟨imports, exports, himports, hexports, hsave, hp⟩ := Pass.commit_eq_ok hcommit
  refine ⟨?_, imports, exports, himports, hexports, hsave⟩
  rw [hp]
  rfl

theorem agrees_deleteFile {cwd base : Path} {c : Context} {i : Index} {path : String}
    (hdone : (i.deleteFile c path).2.result = .ok ()) (h : Agrees cwd base i) :
    Agrees cwd base (i.deleteFile c path).1 := by
  obtain ⟨hgraph, imports, exports, -, -, hsave⟩ := deleteFile_eq_ok hdone
  obtain ⟨new, hnew, hrows, -⟩ := Store.save_eq_ok hsave
  obtain rfl := List.forall₂_nil_left_iff.mp (Store.holds_embedAll hnew)
  have hstore : (i.deleteFile c path).1.store.rows =
      (i.store.deleteDocuments ((i.store.findByPath [path]).map (·.id))).rows := by
    rw [hrows]
    exact (List.append_nil _).trans (List.filter_eq_self.mpr fun _ _ => rfl)
  unfold Agrees
  rw [hgraph, hstore, Store.rows_deleteDocuments]
  exact h.remove (fun id => Store.mem_ids_findByPath) fun k => CodeGraph.find?_files_remove _ _ k

theorem agrees_build {cwd root : Path} {c : Context} {i : Index} (hover : c.Over cwd root i.filter)
    (hclean : ∀ uris, FileFilter.documents c.workspace.files c.base i.filter.pattern
      i.filter.exclusion = .ok uris → Pass.Clean c true (.start { i with filter := i.filter.forget }) uris)
    (h : Agrees cwd (Path.resolve cwd root) i) : Agrees cwd (Path.resolve cwd root) (i.build c).1 := by
  unfold build
  dsimp only
  cases hdocuments : FileFilter.documents c.workspace.files c.base i.filter.forget.pattern
      i.filter.forget.exclusion with
  | error e => exact h
  | ok uris =>
    refine agrees_process (i := { i with filter := i.filter.forget })
      ⟨hover.cwd_eq, hover.root_eq, hover.canonical⟩ ?_ (hclean uris hdocuments) h
    intro u hu
    obtain ⟨found, hfound, huris⟩ := Results.bind_eq_ok.mp hdocuments
    cases huris
    obtain ⟨rel, hrel, rfl⟩ := List.mem_map.mp hu
    exact ⟨_, hover.canonical _ (.inr ⟨found, hfound, rel, hrel, rfl⟩), rfl⟩

theorem agrees_of_session {cwd root : Path} {i : Index} (h : Session cwd root i) :
    Agrees cwd (Path.resolve cwd root) i := by
  induction h with
  | start => exact Agreement.nothing _ _
  | process _ sited batch clean ih =>
    refine agrees_process sited (fun u hu => ?_) clean ih
    obtain ⟨q, hq, hu⟩ := batch u hu
    exact ⟨q, hq, by rw [Uri.eq_of_ofPath hu, hq.resolve_eq]⟩
  | build _ sited clean ih => exact agrees_build sited clean ih
  | deleteFile _ done ih => exact agrees_deleteFile done ih
  | filter _ _ ih => exact ih

/-- The identifiers of the nodes that a file at a relative path can have are found again from their
relative forms. -/
def RoundTrips (cwd base : Path) (path : String) : Prop :=
  ∀ f, NodeId.IsFragment f → ∃ rel,
    NodeId.toRelative cwd base (NodeId.withFragment
      (Uri.ofResolved (Path.resolve base (base ++ Path.ofString path))) f) = .ok rel ∧
    NodeId.absolute base rel =
      NodeId.withFragment (Uri.ofResolved (Path.resolve base (base ++ Path.ofString path))) f

/-- Identifiers of a file without `#` in its path are found again. -/
theorem roundTrips_of_hash_not_mem {cwd base q : Path} (hb : base.Resolved)
    (hq : Path.Canonical cwd q) (hhash : '#' ∉ (Uri.relativePath cwd base q).toList) :
    RoundTrips cwd base (Uri.relativePath cwd base q) := by
  intro f hf
  have hplain := hq.plain_resolve cwd
  rw [Uri.resolve_relativePath hb hplain, hq.resolve_eq]
  refine ⟨_, NodeId.toRelative_ofResolved hq.toPath hf.hash_not_mem, ?_⟩
  have hsplit := NodeId.split_withFragment hhash (NodeId.relativePath_ne_empty hplain) hf.hash_not_mem
  rw [NodeId.absolute_relativePath hb hplain hsplit, hq.resolve_eq]

theorem absolute_of_roundTrips {cwd base : Path} {id path rel : String} (hb : base.Resolved)
    (h : Placed cwd base id path rel) (hpath : RoundTrips cwd base path) :
    NodeId.absolute base rel = id := by
  obtain ⟨q, f, hq, hf, rfl, rfl, rfl⟩ := h
  obtain ⟨rel, hrel, habs⟩ := hpath f hf
  rw [Uri.resolve_relativePath hb (hq.plain_resolve cwd), hq.resolve_eq] at hrel habs
  rw [NodeId.toRelative_ofResolved hq.toPath hf.hash_not_mem] at hrel
  rw [Except.ok.inj hrel]
  exact habs

/-- The documents stored for a file are those of the nodes that the table of files has for it, each
once; none if the file is not in the table. -/
def Documented (i : Index) (base : Path) (path : String) : Prop :=
  match i.graph.entry? path with
  | some e => ((i.store.findByPath [path]).map (·.id)).Nodup ∧
      ∀ id, id ∈ (i.store.findByPath [path]).map (·.id) ↔
        ∃ rel ∈ e.nodeIds, NodeId.absolute base rel = id
  | none => i.store.findByPath [path] = []

/-- In a session without failures the store has the documents that the table of files asks for. -/
theorem documented_of_session {cwd root : Path} {i : Index} (h : Session cwd root i) {path : String}
    (hpath : RoundTrips cwd (Path.resolve cwd root) path) :
    i.Documented (Path.resolve cwd root) path := by
  have hagrees := agrees_of_session h
  have hb := Path.resolved_resolve cwd root
  unfold Documented
  split
  · rename_i e he
    refine ⟨?_, fun id => ?_⟩
    · rw [Store.findByPath, List.map_map]
      exact hagrees.distinct.sublist (List.filter_sublist.map _)
    · rw [Store.mem_ids_findByPath]
      constructor
      · rintro ⟨r, hr, rfl, rfl⟩
        obtain ⟨e', he', hrel⟩ := Store.Row.isCurrent_iff.mp (hagrees.current r hr)
        obtain rfl := Option.some.inj (he.symm.trans he')
        exact ⟨r.relativeId, hrel, absolute_of_roundTrips hb (hagrees.placed r hr) hpath⟩
      · rintro ⟨rel, hrel, rfl⟩
        rcases hagrees.held path e he rel hrel with ⟨r, hr, rfl, rfl⟩ | ⟨_, hwait, -⟩
        · exact ⟨r, hr, rfl, (absolute_of_roundTrips hb (hagrees.placed r hr) hpath).symm⟩
        · exact hwait.elim
  · rename_i hnone
    refine List.map_eq_nil_iff.mpr (List.filter_eq_nil_iff.mpr fun r hr hmem => ?_)
    obtain ⟨e, he, -⟩ := Store.Row.isCurrent_iff.mp (hagrees.current r hr)
    have hfile : r.filePath = path := by simpa using hmem
    rw [hfile] at he
    cases hnone.symm.trans he

theorem exists_of_isTarget_sampleWorkspace {files : List (String × String)} {q : Path}
    (h : CodeMap.IsTarget (sampleWorkspace files) q) :
    ∃ f ∈ files, q = ⟨.root, ["tmp", "w", "ws", f.1]⟩ := by
  obtain ⟨bytes, hfile⟩ := FileTree.exists_mem_of_isFile h.isFile
  obtain ⟨f, hf, hparts, -⟩ := mem_sampleFiles hfile
  exact ⟨f, hf, by rw [h.resolved.eq, hparts]⟩

/-- A workspace with the one file `a.py`, which the filter selects. -/
theorem over_sampleContext {text failing : String} {f : FileFilter}
    (hselect : FileFilter.select (sampleWorkspace [("a.py", text)]).files ["tmp", "w", "ws"] f.pattern
      f.exclusion = .ok (.ofList ["a.py"])) :
    (sampleContext [("a.py", text)] failing).Over ⟨.root, ["tmp", "w"]⟩ ⟨.root, ["tmp", "w", "ws"]⟩ f := by
  have hfile : Path.Canonical ⟨.root, ["tmp", "w"]⟩ ⟨.root, ["tmp", "w", "ws", "a.py"]⟩ :=
    ⟨"file:///tmp/w/ws/a.py", by decide +kernel, by decide +kernel⟩
  refine ⟨rfl, rfl, ?_⟩
  rintro q (htarget | ⟨found, hfound, rel, hrel, rfl⟩)
  · obtain ⟨f, hf, rfl⟩ := exists_of_isTarget_sampleWorkspace htarget
    obtain rfl := List.mem_singleton.mp hf
    exact hfile
  · obtain rfl := Except.ok.inj (hselect.symm.trans hfound)
    obtain rfl : rel = "a.py" := by simpa using hrel
    exact hfile

/-- `a.py` is indexed, gets another text with a function in it, and is indexed again. -/
theorem documented_of_session_edited :
    let cwd : Path := ⟨.root, ["tmp", "w"]⟩
    let root : Path := ⟨.root, ["tmp", "w", "ws"]⟩
    let before := sampleContext [("a.py", "x\n")] ""
    let after := sampleContext [("a.py", "def f():0\n")] ""
    let i := ((make before.base (.empty "graph.json" 4) "a.py" []).build before).1
    let i' := (i.process after ["file:///tmp/w/ws/a.py"] false).1
    i'.Documented (Path.resolve cwd root) "a.py" := by
  intro cwd root before after i i'
  have hfile : Path.Canonical cwd ⟨.root, ["tmp", "w", "ws", "a.py"]⟩ :=
    ⟨"file:///tmp/w/ws/a.py", by decide +kernel, by decide +kernel⟩
  have hsession : Session cwd root i' := by
    refine .process (.build (.start _ _ _ _) (over_sampleContext (by decide +kernel)) ?_)
      (over_sampleContext (by decide +kernel)) ?_ (by decide +kernel)
    · intro uris huris
      obtain rfl : uris = ["file:///tmp/w/ws/a.py"] := Except.ok.inj (huris.symm.trans (by decide +kernel))
      decide +kernel
    · intro u hu
      exact ⟨_, hfile, by rw [List.mem_singleton.mp hu]; decide +kernel⟩
  have hrel : Uri.relativePath cwd (Path.resolve cwd root) ⟨.root, ["tmp", "w", "ws", "a.py"]⟩ = "a.py" := by
    decide +kernel
  have hpath := roundTrips_of_hash_not_mem (Path.resolved_resolve cwd root) hfile (by rw [hrel]; decide)
  rw [hrel] at hpath
  clear_value i'
  exact documented_of_session hsession hpath

end Index

end OutlineIndex
