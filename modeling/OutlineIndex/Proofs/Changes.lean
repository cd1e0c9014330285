import OutlineIndex.Proofs.Agreement

namespace OutlineIndex

namespace CodeGraph

/-- A key of a table of edges has a target. -/
def HasEdge (t : Table IdSet) (k x : String) : Prop := ∃ s, t.find? k = some s ∧ x ∈ s

instance (t : Table IdSet) (k x : String) : Decidable (HasEdge t k x) :=
  decidable_of_iff (((t.find? k).map (·.contains x)).getD false = true) <| by
    unfold HasEdge
    cases t.find? k <;> simp

/-- One identifier imports another. -/
def Imports (g : CodeGraph) (a b : String) : Prop := HasEdge g.imports a b

/-- One identifier is exported to another. -/
def Exports (g : CodeGraph) (b a : String) : Prop := HasEdge g.exports b a

instance (g : CodeGraph) (a b : String) : Decidable (g.Imports a b) :=
  inferInstanceAs (Decidable (HasEdge g.imports a b))

instance (g : CodeGraph) (b a : String) : Decidable (g.Exports b a) :=
  inferInstanceAs (Decidable (HasEdge g.exports b a))

theorem find?_writeEdge (own previous : IdSet) (t : Table IdSet) (key : String) (targets : IdSet)
    (k : String) : (writeEdge own previous t key targets).find? k =
      if k = key then
        some (if key ∈ own then targets
          else ((t.find? key).map fun old => (old.sdiff previous).union targets).getD targets)
      else t.find? k := by
  unfold writeEdge
  by_cases hown : key ∈ own
  · rw [IdSet.contains_iff.mpr hown, if_pos hown]
    exact Table.find?_put _ _ _ _
  · have hcontains : own.contains key = false := by
      rw [← Bool.not_eq_true, IdSet.contains_iff]
      exact hown
    rw [hcontains, if_neg hown]
    cases t.find? key with
    | none => exact Table.find?_put _ _ _ _
    | some old => exact Table.find?_put _ _ _ _

/-- What a key holds after edges have been written. -/
theorem find?_writeEdges (own previous : IdSet) (t edges : Table IdSet) (k : String) :
    (writeEdges own previous t edges).find? k = match edges.find? k with
      | none => t.find? k
      | some targets => some (if k ∈ own then targets
          else ((t.find? k).map fun old => (old.sdiff previous).union targets).getD targets) := by
  obtain ⟨entries, hdistinct⟩ := edges
  unfold writeEdges
  simp only
  induction entries generalizing t with
  | nil => rfl
  | cons e entries ih =>
    obtain ⟨he, hrest⟩ := List.nodup_cons.mp hdistinct
    rw [List.foldl_cons, ih (writeEdge own previous t e.1 e.2) hrest]
    by_cases hk : k = e.1
    · subst hk
      have hnone : Table.find? ⟨entries, hrest⟩ e.1 = none := Table.find?_eq_none_iff.mpr he
      have hsome : Table.find? ⟨e :: entries, hdistinct⟩ e.1 = some e.2 := by
        rw [Table.find?_eq_some_iff]
        exact List.mem_cons_self
      rw [hnone, hsome]
      dsimp only
      rw [find?_writeEdge, if_pos rfl]
    · have hsame : Table.find? ⟨e :: entries, hdistinct⟩ k = Table.find? ⟨entries, hrest⟩ k := by
        have hne : (e.1 == k) = false := by simpa using Ne.symm hk
        simp [Table.find?, hne]
      rw [hsame, find?_writeEdge, if_neg hk]

/-- The absolute identifiers that the table of files lists for a path. -/
def listed (g : CodeGraph) (path : String) : IdSet :=
  g.absoluteSet (((g.entry? path).map FileEntry.nodeIds).getD .empty)

theorem mem_listed {g : CodeGraph} {path x : String} :
    x ∈ g.listed path ↔ ∃ e, g.entry? path = some e ∧ ∃ id ∈ e.nodeIds, g.absolute id = x := by
  rw [listed, absoluteSet, IdSet.mem_ofList, List.mem_map]
  cases g.entry? path with
  | none => simp [IdSet.empty]
  | some e => simp [IdSet.mem_def]

theorem find?_filter_contains (t : Table IdSet) (ids : IdSet) (k : String) :
    (t.filter fun k _ => !ids.contains k).find? k = if k ∈ ids then none else t.find? k := by
  rw [Table.find?_filter]
  by_cases hk : k ∈ ids
  · rw [if_pos hk, IdSet.contains_iff.mpr hk]
    cases t.find? k <;> rfl
  · have hcontains : ids.contains k = false := by
      rw [← Bool.not_eq_true, IdSet.contains_iff]
      exact hk
    rw [if_neg hk, hcontains]
    cases t.find? k <;> rfl

/-- A key that the file had loses its edges, unless the file has the key again; a key of another file
keeps its own. -/
theorem find?_replaced (own previous : IdSet) (t edges : Table IdSet) (k : String) :
    (writeEdges own previous (t.filter fun k _ => !previous.contains k) edges).find? k =
      match edges.find? k with
      | none => if k ∈ previous then none else t.find? k
      | some targets => some (if k ∈ own then targets
          else ((if k ∈ previous then none else t.find? k).map fun old =>
            (old.sdiff previous).union targets).getD targets) := by
  rw [find?_writeEdges, find?_filter_contains]

theorem hasEdge_replaced {own previous : IdSet} {t edges : Table IdSet} {k x : String} :
    HasEdge (writeEdges own previous (t.filter fun k _ => !previous.contains k) edges) k x ↔
      HasEdge edges k x ∨
        (HasEdge t k x ∧ k ∉ previous ∧ (edges.find? k = none ∨ k ∉ own ∧ x ∉ previous)) := by
  unfold HasEdge
  rw [find?_replaced]
  cases edges.find? k with
  | none =>
    by_cases hk : k ∈ previous <;> simp [hk]
  | some targets =>
    by_cases hown : k ∈ own
    · simp [hown]
    · by_cases hk : k ∈ previous
      · simp [hown, hk]
      · cases t.find? k with
        | none => simp [hown, hk]
        | some old => simp [hown, hk, or_comm]

theorem imports_update (g : CodeGraph) (path : String) (entry : FileEntry)
    (imports exports : Table IdSet) (nodes : List Node) :
    (g.update path entry imports exports nodes).imports =
      writeEdges (g.absoluteSet entry.nodeIds) (g.listed path)
        (g.imports.filter fun k _ => !(g.listed path).contains k) imports := rfl

theorem exports_update (g : CodeGraph) (path : String) (entry : FileEntry)
    (imports exports : Table IdSet) (nodes : List Node) :
    (g.update path entry imports exports nodes).exports =
      writeEdges (g.absoluteSet entry.nodeIds) (g.listed path)
        (g.exports.filter fun k _ => !(g.listed path).contains k) exports := rfl

theorem find?_withoutTargets (t : Table IdSet) (ids : IdSet) (k : String) :
    (withoutTargets t ids).find? k = ((t.find? k).map (·.sdiff ids)).filter fun s => !s.isEmpty := by
  rw [withoutTargets, Table.find?_filter, Table.find?_map]

theorem imports_remove (g : CodeGraph) (path : String) : (g.remove path).imports =
    if (g.entry? path).isSome then
      withoutTargets (g.imports.filter fun k _ => !(g.listed path).contains k) (g.listed path)
    else g.imports := by
  unfold remove listed
  cases g.entry? path <;> rfl

theorem exports_remove (g : CodeGraph) (path : String) : (g.remove path).exports =
    if (g.entry? path).isSome then
      withoutTargets (g.exports.filter fun k _ => !(g.listed path).contains k) (g.listed path)
    else g.exports := by
  unfold remove listed
  cases g.entry? path <;> rfl

theorem hasEdge_remove {t : Table IdSet} {ids : IdSet} {k x : String} :
    HasEdge (withoutTargets (t.filter fun k _ => !ids.contains k) ids) k x ↔
      HasEdge t k x ∧ k ∉ ids ∧ x ∉ ids := by
  unfold HasEdge
  rw [find?_withoutTargets, find?_filter_contains]
  by_cases hk : k ∈ ids
  · simp [hk]
  · rw [if_neg hk]
    cases ht : t.find? k with
    | none => simp
    | some s =>
      have hmem : x ∈ s.sdiff ids → s.sdiff ids ≠ .empty := by
        intro hx hempty
        rw [hempty] at hx
        exact IdSet.not_mem_empty hx
      constructor
      · intro ⟨s', hs', hx⟩
        obtain ⟨hs', -⟩ := Option.filter_eq_some_iff.mp hs'
        obtain rfl := Option.some.inj hs'
        rw [IdSet.mem_sdiff] at hx
        exact ⟨⟨s, rfl, hx.1⟩, hk, hx.2⟩
      · intro ⟨⟨s', hs', hx⟩, _, hout⟩
        obtain rfl := Option.some.inj hs'
        have hx' : x ∈ s.sdiff ids := IdSet.mem_sdiff.mpr ⟨hx, hout⟩
        refine ⟨s.sdiff ids, Option.filter_eq_some_iff.mpr ⟨rfl, ?_⟩, hx'⟩
        rw [Bool.not_eq_true', ← Bool.not_eq_true, IdSet.isEmpty_iff]
        exact fun hnone => hnone x hx'

theorem listed_eq_empty {g : CodeGraph} {path : String} (h : (g.entry? path).isSome = false) :
    ∀ x, x ∉ g.listed path := by
  intro x hx
  obtain ⟨e, he, -⟩ := mem_listed.mp hx
  rw [he] at h
  cases h

/-- A removal takes away the edges from and to the identifiers of the file. -/
theorem imports_remove_iff {g : CodeGraph} {path a b : String} :
    (g.remove path).Imports a b ↔ g.Imports a b ∧ a ∉ g.listed path ∧ b ∉ g.listed path := by
  unfold Imports
  rw [imports_remove]
  split
  · exact hasEdge_remove
  · rename_i hnone
    simp [listed_eq_empty (Bool.eq_false_iff.mpr hnone)]

theorem exports_remove_iff {g : CodeGraph} {path a b : String} :
    (g.remove path).Exports b a ↔ g.Exports b a ∧ b ∉ g.listed path ∧ a ∉ g.listed path := by
  unfold Exports
  rw [exports_remove]
  split
  · exact hasEdge_remove
  · rename_i hnone
    simp [listed_eq_empty (Bool.eq_false_iff.mpr hnone)]

/-- The URI of the file at a path of the workspace. -/
def home (base : Path) (path : String) : String :=
  Uri.ofResolved (Path.resolve base (base ++ Path.ofString path))

theorem hash_not_mem_home (base : Path) (path : String) : '#' ∉ (home base path).toList :=
  NodeId.hash_not_mem_ofResolved _

/-- An entry lists its own path, if that stands for the file, and identifiers that have a fragment when
they are absolute. -/
def Tidy (base : Path) (path : String) (e : FileEntry) : Prop :=
  ∀ id ∈ e.nodeIds, (id = path ∧ NodeId.absolute base path = home base path) ∨
    '#' ∈ (NodeId.absolute base id).toList

/-- The only module that a tidy entry lists is that of the file. -/
theorem Tidy.eq_home {base : Path} {path : String} {e : FileEntry} (h : Tidy base path e) {id : String}
    (hid : id ∈ e.nodeIds) (hash : '#' ∉ (NodeId.absolute base id).toList) :
    id = path ∧ NodeId.absolute base path = home base path :=
  (h id hid).resolve_right hash

section Contribution

variable {cwd base q file : Path} {b : Backend} {w : Workspace} {text : String} {m : CodeMap}
  {ids : List String} {sha : String}

theorem home_relativePath (hbase : base.Resolved) (hq : q.Resolved)
    (hfile : Uri.toPath (Uri.ofResolved q) = .ok file) :
    home base (Uri.relativePath cwd base file) = Uri.ofResolved (Path.resolve cwd file) := by
  rw [home, Uri.resolve_relativePath hbase (Context.plain_of_toPath hq hfile cwd)]

/-- The path of a source file does not end with `#`. -/
theorem getLast?_relativePath (hsupports : CodeMap.supports file = true) :
    (Uri.relativePath cwd base file).toList.getLast? ≠ some '#' := by
  have hsuffix : file.suffix = ".py" ∨ file.suffix = ".pyi" := by
    simpa [CodeMap.supports, CodeMap.extensions] using hsupports
  have hnot : file.suffix ≠ "" ∧ file.suffix.toList.getLast? ≠ some '#' := by
    rcases hsuffix with h | h <;> rw [h] <;> decide
  have hend : (Path.relativeTo cwd base file).chars.getLast? = some '.' ∨
      (Path.relativeTo cwd base file).chars.getLast? = file.suffix.toList.getLast? :=
    Path.getLast?_relativeTo hnot.1
  rw [Uri.relativePath, Path.toString, String.toList_ofList]
  rcases hend with h | h
  · rw [h]
    decide
  · rw [h]
    exact hnot.2

/-- The entry of a parsed document is tidy. -/
theorem tidy_of_parsed (hbase : base.Resolved) (hq : q.Resolved)
    (hfile : Uri.toPath (Uri.ofResolved q) = .ok file)
    (hm : CodeMap.ofDocument b w ⟨Uri.ofResolved q, text⟩ = .ok m)
    (hids : ∀ id ∈ ids, ∃ n ∈ Pass.ownNodes (Uri.ofResolved q) m, NodeId.toRelative cwd base n.id = .ok id) :
    Tidy base (Uri.relativePath cwd base file) ⟨.ofList ids, sha⟩ := by
  intro id hid
  obtain ⟨n, hn, hrel⟩ := hids id (IdSet.mem_ofList.mp hid)
  obtain ⟨hfind, hown⟩ := (CodeMap.contribution_ofDocument hm).mem_ownNodes.mp hn
  have hplain := Context.plain_of_toPath hq hfile cwd
  obtain ⟨f, hf, heq⟩ := hown.exists_fragment
  rw [heq, NodeId.toRelative_ofResolved hfile hf.hash_not_mem] at hrel
  obtain rfl := Except.ok.inj hrel
  by_cases hne : f = ""
  · have hsupports : CodeMap.supports file = true := by
      rcases CodeMap.ofDocument_cases hm with rfl | ⟨file', _, _, hfile', hsupports, -⟩
      · cases hfind
      · cases hfile.symm.trans hfile'
        exact hsupports
    rw [hne, home_relativePath hbase hq hfile]
    have hor := NodeId.absolute_relativePath_or hbase hplain (getLast?_relativePath hsupports)
    exact hor.imp_left fun habs => ⟨rfl, habs⟩
  · refine .inr ?_
    rw [NodeId.absolute_relativePath hbase hplain (NodeId.split_relativePath hplain hne hf.hash_not_mem),
      NodeId.withFragment, if_neg hne]
    simp

/-- The entry of a parsed document lists the module, if the document has any nodes. -/
theorem path_mem_of_parsed (hfile : Uri.toPath (Uri.ofResolved q) = .ok file)
    (hm : CodeMap.ofDocument b w ⟨Uri.ofResolved q, text⟩ = .ok m) (hnodes : m.nodes.entries ≠ [])
    (hids : ((Pass.ownNodes (Uri.ofResolved q) m).mapM fun n => NodeId.toRelative cwd base n.id) = .ok ids) :
    Uri.relativePath cwd base file ∈ ids := by
  obtain ⟨n, hn, hid⟩ := (CodeMap.contribution_ofDocument hm).exists_module hnodes
  obtain ⟨id, hmem, hrel⟩ := Results.exists_mem_of_mapM hids hn
  have huri : NodeId.toRelative cwd base (Uri.ofResolved q) = .ok (Uri.relativePath cwd base file) :=
    NodeId.toRelative_ofResolved (f := "") hfile (by simp)
  rw [hid] at hrel
  cases hrel.symm.trans huri
  exact hmem

end Contribution

/-- A change of the graph: the document at a URI is entered under a path, with an entry and what the
document contributes, or the file at a path is removed. -/
inductive Change
  | enter (uri path : String) (entry : FileEntry) (m : CodeMap)
  | remove (path : String)

def Change.path : Change → String
  | .enter _ path _ _ => path
  | .remove path => path

def apply (g : CodeGraph) : Change → CodeGraph
  | .enter _ path entry m => g.update path entry m.imports m.exports m.nodes.values
  | .remove path => g.remove path

/-- The graph after a history, the last change first. -/
def after (g : CodeGraph) : List Change → CodeGraph
  | [] => g
  | x :: h => (g.after h).apply x

theorem workspace_apply (g : CodeGraph) (x : Change) : (g.apply x).workspace = g.workspace := by
  cases x with
  | enter => rfl
  | remove path => exact workspace_remove g path

theorem entry?_apply_enter (g : CodeGraph) (uri path : String) (e : FileEntry) (m : CodeMap) (k : String) :
    CodeGraph.entry? (g.apply (.enter uri path e m)) k = if k = path then some e else g.entry? k :=
  entry?_update g path e m.imports m.exports m.nodes.values k

theorem entry?_apply_remove (g : CodeGraph) (path k : String) :
    CodeGraph.entry? (g.apply (.remove path)) k = if k = path then none else g.entry? k :=
  find?_files_remove g path k

/-- What is known of a document that is entered: its path is that of the URI, its entry is tidy, and
its edges are those of its module to others. -/
structure Proper (base : Path) (uri path : String) (e : FileEntry) (m : CodeMap) : Prop where
  home_eq : home base path = uri
  tidy : Tidy base path e
  targets : ∀ b, b ∈ CodeMap.foreignSet uri m → '#' ∉ b.toList ∧ b ≠ uri
  imports : ∀ k, m.imports.find? k =
    if k = uri ∧ CodeMap.foreignSet uri m ≠ .empty then some (CodeMap.foreignSet uri m) else none
  exports : ∀ k, m.exports.find? k = if k ∈ CodeMap.foreignSet uri m then some (.ofList [uri]) else none

namespace Proper

variable {base : Path} {uri path : String} {e : FileEntry} {m : CodeMap}

theorem of_parsed {cwd q : Path} {b : Backend} {w : Workspace} {text sha : String} {ids : List String}
    (hbase : base.Resolved) (hq : Path.Canonical cwd q)
    (hm : CodeMap.ofDocument b w ⟨Uri.ofResolved q, text⟩ = .ok m)
    (hids : ∀ id ∈ ids, ∃ n ∈ Pass.ownNodes (Uri.ofResolved q) m, NodeId.toRelative cwd base n.id = .ok id) :
    Proper base (Uri.ofResolved q) (Uri.relativePath cwd base q) ⟨.ofList ids, sha⟩ m := by
  have hcontribution := CodeMap.contribution_ofDocument hm
  refine ⟨?_, tidy_of_parsed hbase hq.resolved hq.toPath hm hids, ?_, hcontribution.imports,
    hcontribution.exports⟩
  · rw [home_relativePath hbase hq.resolved hq.toPath, hq.resolve_eq]
  · intro b hb
    obtain ⟨hne, k, n, hk, rfl⟩ := CodeMap.mem_foreignSet.mp hb
    rcases hcontribution.nodes k n hk with hown | ⟨-, hforeign⟩
    · exact absurd hown.uri_eq hne
    · exact ⟨hforeign.id_eq ▸ hforeign.hash_not_mem, hne⟩

theorem hasEdge_imports (h : Proper base uri path e m) {a b : String} :
    HasEdge m.imports a b ↔ a = uri ∧ b ∈ CodeMap.foreignSet uri m := by
  unfold HasEdge
  rw [h.imports]
  constructor
  · intro ⟨s, hs, hb⟩
    split at hs
    · rename_i hcond
      obtain rfl := Option.some.inj hs
      exact ⟨hcond.1, hb⟩
    · cases hs
  · intro ⟨ha, hb⟩
    have hne : CodeMap.foreignSet uri m ≠ .empty := fun hempty => IdSet.eq_empty_iff.mp hempty b hb
    exact ⟨_, if_pos ⟨ha, hne⟩, hb⟩

theorem hasEdge_exports (h : Proper base uri path e m) {a b : String} :
    HasEdge m.exports b a ↔ a = uri ∧ b ∈ CodeMap.foreignSet uri m := by
  unfold HasEdge
  rw [h.exports]
  by_cases hb : b ∈ CodeMap.foreignSet uri m <;> simp [hb]

theorem find?_imports_of_ne (h : Proper base uri path e m) {k : String} (hk : k ≠ uri) :
    m.imports.find? k = none := by
  rw [h.imports, if_neg fun hcond => hk hcond.1]

/-- The module has a set of imports of its own only if it imports something. -/
theorem exists_edge (h : Proper base uri path e m) {k : String} (hk : m.imports.find? k ≠ none) :
    ∃ b, HasEdge m.imports k b := by
  rw [h.imports] at hk
  split at hk
  · rename_i hcond
    obtain ⟨b, hb⟩ : ∃ b, b ∈ CodeMap.foreignSet uri m := by
      by_contra hnone
      exact hcond.2 (IdSet.eq_empty_iff.mpr fun b hb => hnone ⟨b, hb⟩)
    exact ⟨b, h.hasEdge_imports.mpr ⟨hcond.1, hb⟩⟩
  · exact absurd rfl hk

end Proper

/-- All entries of a graph over a workspace are tidy. -/
structure IsTidy (base : Path) (g : CodeGraph) : Prop where
  workspace : g.workspace = base
  entries : ∀ path e, g.entry? path = some e → Tidy base path e

namespace IsTidy

variable {base : Path} {g : CodeGraph}

/-- A listed module is that of the file, and the path stands for it. -/
theorem eq_home (h : g.IsTidy base) {path x : String} (hx : x ∈ g.listed path) (hash : '#' ∉ x.toList) :
    x = home base path ∧ NodeId.absolute base path = home base path := by
  obtain ⟨e, he, id, hid, habs⟩ := mem_listed.mp hx
  rw [absolute, h.workspace] at habs
  subst habs
  obtain ⟨rfl, hhome⟩ := (h.entries path e he).eq_home hid hash
  exact ⟨hhome, hhome⟩

theorem enter (h : g.IsTidy base) {uri path : String} {e : FileEntry} {m : CodeMap} (he : Tidy base path e) :
    (g.apply (.enter uri path e m)).IsTidy base := by
  refine ⟨h.workspace, fun k e' he' => ?_⟩
  rw [entry?_apply_enter] at he'
  split at he'
  · rename_i hk
    cases he'
    exact hk ▸ he
  · exact h.entries k e' he'

theorem remove (h : g.IsTidy base) (path : String) : (g.apply (.remove path)).IsTidy base := by
  refine ⟨(workspace_remove g path).trans h.workspace, fun k e he => ?_⟩
  rw [entry?_apply_remove] at he
  split at he
  · cases he
  · exact h.entries k e he

end IsTidy

end CodeGraph

end OutlineIndex
