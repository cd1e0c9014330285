import OutlineIndex.Proofs.Skeleton
import OutlineIndex.Proofs.Store
import OutlineIndex.Proofs.Walk

namespace OutlineIndex

theorem Context.present_of_reads {c : Context} {uri : String} {d : Document} {path : Path}
    (h : c.Reads uri d path) : c.present path = .ok true := by
  obtain ⟨q, bytes, hq, hnul, hbytes, -⟩ := Workspace.read_eq_text h.text
  cases h.path.symm.trans hq
  rw [Context.present, Workspace.present_of_status hnul hbytes]
  rfl

section Identifiers

variable {c : Context} {q path : Path} {n : Node}

theorem Context.filePath_of_ownedBy (hn : n.OwnedBy (Uri.ofResolved q))
    (hpath : Uri.toPath (Uri.ofResolved q) = .ok path) : c.filePath n.id = .ok (c.relative path) := by
  obtain ⟨f, hid, hf⟩ := hn.id_eq
  rw [Context.filePath, hid, NodeId.filePath_ofResolved hpath hf]
  rfl

/-- The row of a node has the relative identifier of the node. -/
theorem Context.relativeId_of_ownedBy (hn : n.OwnedBy (Uri.ofResolved q))
    (hpath : Uri.toPath (Uri.ofResolved q) = .ok path) {r : Store.Row} (hid : r.id = n.id)
    (hr : c.filePath r.id = .ok r.filePath) : c.relativeId n.id = .ok r.relativeId := by
  obtain ⟨f, hf⟩ := hn.id_eq
  rw [hid, filePath_of_ownedBy hn hpath] at hr
  rw [Context.relativeId, Store.Row.relativeId, hid, ← Except.ok.inj hr, hf.1,
    NodeId.toRelative_ofResolved hpath hf.2, NodeId.split_ofResolved q hf.2]
  rfl

end Identifiers

namespace Pass

theorem mem_ownNodes {c : Context} {uri : String} {d : Document} {path : Path} {m : CodeMap}
    (hreads : c.Reads uri d path) (hm : CodeMap.ofDocument c.backend c.workspace d = .ok m) {n : Node} :
    n ∈ ownNodes uri m ↔ m.nodes.find? n.id = some n ∧ n.OwnedBy uri := by
  have hcontribution := CodeMap.contribution_ofDocument hm
  rw [hreads.uri_eq] at hcontribution
  exact hcontribution.mem_ownNodes

theorem exists_module {c : Context} {uri : String} {d : Document} {path : Path} {m : CodeMap}
    (hreads : c.Reads uri d path) (hm : CodeMap.ofDocument c.backend c.workspace d = .ok m)
    (hnodes : m.nodes.entries ≠ []) : ∃ n ∈ ownNodes uri m, n.id = uri := by
  have hcontribution := CodeMap.contribution_ofDocument hm
  rw [hreads.uri_eq] at hcontribution
  exact hcontribution.exists_module hnodes

theorem isSome_find?_extend_iff {item : Item} {v : Visit} {k : String} :
    ((item.extend v).nodes.find? k).isSome ↔ (∃ n ∈ v.nodes, n.id = k) ∨ (item.nodes.find? k).isSome := by
  constructor
  · intro h
    obtain ⟨n, hn⟩ := Option.isSome_iff_exists.mp h
    rcases Table.find?_foldl_put_cases hn with ⟨x, hx, hkey, -⟩ | ⟨hold, -⟩
    · exact .inl ⟨x, hx, hkey⟩
    · exact .inr (by rw [hold]; rfl)
  · exact Table.isSome_find?_foldl_put

/-- An invariant of visits to documents with a property that all files of the workspace have is an
invariant of the walk. -/
theorem Walks.keeps {c : Context} {U : String → Prop} {I : Pass → Item → Prop}
    (hfiles : ∀ q, CodeMap.IsTarget c.workspace q → U (Uri.ofResolved q))
    (hstep : ∀ p item uri p' v, U uri → uri ∉ p.visited → visit c (p.mark uri) uri = (p', .ok v) →
      I p item → I p' (item.extend v))
    {p p' : Pass} {item done : Item} {queue : List String} (h : Walks c p item queue (p', .ok done))
    (hqueue : ∀ u ∈ queue, U u) (hi : I p item) : I p' done := by
  refine (h.invariant (I := fun p item queue => (∀ u ∈ queue, U u) ∧ I p item) ?_ ?_ ⟨hqueue, hi⟩).2
  · rintro p item uri queue - ⟨hqueue, hi⟩
    exact ⟨fun u hu => hqueue u (List.mem_cons_of_mem _ hu), hi⟩
  · rintro p item uri queue p' v hnew hvisit ⟨hqueue, hi⟩
    refine ⟨fun u hu => ?_, hstep _ _ _ _ _ (hqueue uri (by simp)) hnew hvisit hi⟩
    rcases List.mem_append.mp hu with hu | hu
    · exact hqueue u (List.mem_cons_of_mem _ hu)
    · obtain ⟨q, htarget, rfl⟩ := (found_of_visit hvisit).2 u (List.mem_filter.mp hu).1
      exact hfiles q htarget

/-- The nodes of a visit are nodes of the document visited, which could be read. -/
theorem nodes_of_visit {c : Context} {p p' : Pass} {uri : String} {v : Visit}
    (h : visit c p uri = (p', .ok v)) {n : Node} (hn : n ∈ v.nodes) :
    n.OwnedBy uri ∧ ∃ d, c.workspace.read uri = .ok (.text d) := by
  cases outcome_of_visit h with
  | idle => cases hn
  | blank => cases hn
  | entered quiet parsed reads stale map => exact ⟨((mem_ownNodes reads map).mp hn).2, _, reads.text⟩

/-- The nodes of an item belong to documents that can be read, at paths with some property. -/
structure Gathered (c : Context) (Q : Path → Prop) (t : Table Node) : Prop where
  keyed : ∀ k n, t.find? k = some n → n.id = k
  owned : ∀ k n, t.find? k = some n → ∃ q, Q q ∧ n.OwnedBy (Uri.ofResolved q)
  readable : ∀ k n, t.find? k = some n → ∃ d, c.workspace.read n.uri = .ok (.text d)

theorem gathered_empty (c : Context) (Q : Path → Prop) : Gathered c Q .empty :=
  ⟨by rintro _ _ ⟨⟩, by rintro _ _ ⟨⟩, by rintro _ _ ⟨⟩⟩

theorem Gathered.extend {c : Context} {Q : Path → Prop} {item : Item}
    (h : Gathered c Q item.nodes) {p p' : Pass} {q : Path} (hq : Q q) {v : Visit}
    (hvisit : visit c p (Uri.ofResolved q) = (p', .ok v)) : Gathered c Q (item.extend v).nodes := by
  have hcases : ∀ {k n}, (item.extend v).nodes.find? k = some n →
      (n ∈ v.nodes ∧ n.id = k) ∨ item.nodes.find? k = some n := by
    intro k n hk
    rcases Table.find?_foldl_put_cases hk with ⟨x, hx, hkey, rfl⟩ | ⟨hold, -⟩
    · exact .inl ⟨hx, hkey⟩
    · exact .inr hold
  refine ⟨fun k n hk => ?_, fun k n hk => ?_, fun k n hk => ?_⟩
  all_goals rcases hcases hk with ⟨hn, hid⟩ | hold
  · exact hid
  · exact h.keyed k n hold
  · exact ⟨q, hq, (nodes_of_visit hvisit hn).1⟩
  · exact h.owned k n hold
  · obtain ⟨hown, d, hd⟩ := nodes_of_visit hvisit hn
    exact ⟨d, by rw [hown.uri_eq, hd]⟩
  · exact h.readable k n hold

theorem Gathered.collected {c : Context} {Q : Path → Prop} {t : Table Node} (h : Gathered c Q t) :
    Skeleton.Collected c.workspace t.values := by
  have hids : t.values.map (·.id) = t.entries.map (·.1) := by
    rw [Table.values, List.map_map]
    refine List.map_congr_left fun e he => ?_
    exact h.keyed e.1 e.2 (Table.find?_eq_some_iff.mpr he)
  refine ⟨hids ▸ t.distinct, fun n hn => ?_, fun n hn => ?_⟩
  all_goals obtain ⟨k, hk⟩ := Table.mem_values_iff.mp hn
  · obtain ⟨q, -, hown⟩ := h.owned k n hk
    exact ⟨q, hown⟩
  · exact h.readable k n hk

theorem commit_eq_ok {c : Context} {p p' : Pass} {docs : List IndexDocument} {incremental : Bool}
    (h : commit c p docs incremental = (p', .ok ())) : ∃ imports exports,
      c.relativeEdges p.graph.imports = .ok imports ∧ c.relativeEdges p.graph.exports = .ok exports ∧
      p.store.save docs imports exports p.graph.files incremental = (p'.store, .ok ()) ∧
      p' = { p with store := p'.store, calls := p'.calls } := by
  unfold commit at h
  split at h
  · cases h
  · cases h
  · rename_i imports exports himports hexports
    obtain ⟨rfl, hr⟩ := Prod.mk.inj h
    exact ⟨imports, exports, himports, hexports, Prod.ext rfl hr, rfl⟩

/-- What the end of an item comes to when it succeeds: a save of one document for each node. -/
structure Finished (c : Context) (p : Pass) (nodes : List Node) (full : Bool) (p' : Pass)
    (docs : List IndexDocument) (imports exports : EdgeList) : Prop where
  imports_eq : c.relativeEdges p.graph.imports = .ok imports
  exports_eq : c.relativeEdges p.graph.exports = .ok exports
  ids : (docs.map (·.id)).Perm (nodes.map (·.id))
  filePath : ∀ d ∈ docs, c.filePath d.id = .ok d.filePath
  saved : p.store.save docs imports exports p.graph.files (!full) = (p'.store, .ok ())
  pass_eq : ∃ reports, p' = { p.report reports with store := p'.store, calls := p'.calls }

theorem indexDocument_eq_ok {c : Context} {g : CodeGraph} {s : Skeleton.Completed} {d : IndexDocument}
    (h : indexDocument c g s = .ok d) : d.id = s.node.id ∧ c.filePath d.id = .ok d.filePath := by
  obtain ⟨related, -, h⟩ := Results.bind_eq_ok.mp h
  obtain ⟨path, hpath, h⟩ := Results.bind_eq_ok.mp h
  cases h
  exact ⟨rfl, hpath⟩

theorem finish_eq_ok {c : Context} {p p' : Pass} {nodes : List Node} {full : Bool}
    (hnodes : Skeleton.Collected c.workspace nodes) (hne : nodes ≠ [])
    (h : finish c p nodes full = (p', .ok ())) :
    ∃ docs imports exports, Finished c p nodes full p' docs imports exports := by
  unfold finish at h
  dsimp only at h
  generalize hmade : Skeleton.ofNodes ⟨c.workspace, p.graph, c.generate⟩ nodes = made at h
  split at h
  · cases h
  · rename_i completed hcompleted
    have hperm : (completed.map (·.node)).Perm nodes :=
      Skeleton.perm_ofNodes hnodes (by rw [hmade]; exact hcompleted)
    split at h
    · rename_i hempty
      obtain rfl : completed = [] := by simpa using hempty
      exact absurd (List.nil_perm.mp hperm) hne
    · split at h
      · cases h
      · rename_i docs hdocs
        obtain ⟨imports, exports, himports, hexports, hsaved, hp'⟩ := commit_eq_ok h
        have hids : docs.map (·.id) = (completed.map (·.node)).map (·.id) := by
          rw [List.map_map]
          exact Results.map_eq_map ((Results.mapM_eq_ok.mp hdocs).imp fun s d hd =>
            (indexDocument_eq_ok hd).1)
        refine ⟨docs, imports, exports, himports, hexports, hids ▸ hperm.map _, fun d hd => ?_, hsaved,
          made.reports, hp'⟩
        obtain ⟨s, -, hs⟩ := Results.exists_of_mem_mapM hdocs hd
        exact (indexDocument_eq_ok hs).2

/-- The rows after an item: a new one for each node, and the old ones with other identifiers. -/
theorem Finished.rows {c : Context} {p p' : Pass} {nodes : List Node} {full : Bool}
    {docs : List IndexDocument} {imports exports : EdgeList}
    (h : Finished c p nodes full p' docs imports exports) : ∃ new : List Store.Row,
      (new.map (·.id)).Perm (nodes.map (·.id)) ∧ (∀ r ∈ new, c.filePath r.id = .ok r.filePath) ∧
      p'.store.rows = (if full then Store.currentRows p.graph.files else id)
        (p.store.rows.filter (fun r => !(nodes.map (·.id)).contains r.id) ++ new) := by
  obtain ⟨new, hembed, hrows, -⟩ := Store.save_eq_ok h.saved
  have hnew := Store.holds_embedAll hembed
  have hids : new.map (·.id) = docs.map (·.id) := Results.map_eq_map (hnew.imp fun _ _ hr => hr.1)
  refine ⟨new, hids ▸ h.ids, fun r hr => ?_, ?_⟩
  · obtain ⟨d, hd, hid, hpath⟩ := Results.exists_left_of_mem hnew hr
    rw [hid, hpath]
    exact h.filePath d hd
  · have hfilter : (fun r : Store.Row => !(docs.map (·.id)).contains r.id) =
        fun r => !(nodes.map (·.id)).contains r.id := by
      funext r
      rw [Bool.eq_iff_iff]
      simp only [Bool.not_eq_true', ← Bool.not_eq_true, List.contains_iff_mem, h.ids.mem_iff]
    rw [hrows, hfilter]
    cases full <;> rfl

theorem readable_of_reads {c : Context} {U : String → Prop} {nodes : List Node}
    (h : ∀ n ∈ nodes, ∃ uri d path, U uri ∧ c.Reads uri d path ∧ n.OwnedBy uri) :
    ∀ n ∈ nodes, ∃ d, c.workspace.read n.uri = .ok (.text d) := by
  intro n hn
  obtain ⟨uri, d, path, -, hreads, hown⟩ := h n hn
  rw [hown.uri_eq]
  exact ⟨d, hreads.text⟩

/-- The rows after an item were there before or are those of its nodes, even if it fails. -/
theorem mem_rows_finish {c : Context} {p p' : Pass} {nodes : List Node} {full : Bool}
    {e : Except Failure Unit} (hnodes : ∀ n ∈ nodes, ∃ d, c.workspace.read n.uri = .ok (.text d))
    (h : finish c p nodes full = (p', e)) {r : Store.Row} (hr : r ∈ p'.store.rows) :
    r ∈ p.store.rows ∨ ∃ n ∈ nodes, r.id = n.id ∧ c.filePath n.id = .ok r.filePath := by
  unfold finish at h
  dsimp only at h
  generalize hmade : Skeleton.ofNodes ⟨c.workspace, p.graph, c.generate⟩ nodes = made at h
  split at h
  · cases h
    exact .inl hr
  · rename_i completed hcompleted
    rw [← hmade] at hcompleted
    split at h
    · cases h
      exact .inl hr
    · split at h
      · cases h
        exact .inl hr
      · rename_i docs hdocs
        unfold commit at h
        split at h
        · cases h
          exact .inl hr
        · cases h
          exact .inl hr
        · cases h
          rcases Store.mem_rows_save rfl hr with hold | ⟨d, hd, hid, hpath⟩
          · exact .inl hold
          · obtain ⟨s, hs, hdoc⟩ := Results.exists_of_mem_mapM hdocs hd
            obtain ⟨hdid, hfile⟩ := indexDocument_eq_ok hdoc
            have hmem := Skeleton.mem_of_mem_ofNodes (s := ⟨c.workspace, p.graph, c.generate⟩) hnodes
              hcompleted hs
            refine .inr ⟨s.node, hmem, hid.trans hdid, ?_⟩
            rw [hpath, ← hdid]
            exact hfile

/-- What the removal of a file does, even if the listener fails. -/
structure Dropped (c : Context) (p : Pass) (path : Path) (p' : Pass) : Prop where
  graph : p'.graph = p.graph.remove (c.relative path)
  store : p'.store = p.store.deleteDocuments ((p.store.findByPath [c.relative path]).map (·.id))
  calls : p'.calls =
    p.calls ++ StoreCall.deletion ((p.store.findByPath [c.relative path]).map (·.id))
  digests : p'.digests = p.digests
  visited : p'.visited = p.visited
  parsed : p'.parsed = p.parsed
  filter : p'.filter = p.filter

theorem dropped_of_drop {c : Context} {p p' : Pass} {path : Path} {r : Except Failure Unit}
    (h : drop c p path = (p', r)) : Dropped c p path p' := by
  unfold drop notifyRemoved at h
  dsimp only at h
  split at h <;> cases h <;> exact ⟨rfl, rfl, rfl, rfl, rfl, rfl, rfl⟩

/-- All that the work on an item can come to. -/
inductive Worked (c : Context) (full : Bool) (p : Pass) (uri : String) : Pass → Except Failure Unit → Prop where
  | seen (h : uri ∈ p.visited) : Worked c full p uri p (.ok ())
  | nowhere (e : Failure) (faulty : ∀ path, Uri.toPath uri = .ok path → ∃ e', c.present path = .error e') :
      Worked c full p uri p (.error e)
  | gone {path : Path} {p' : Pass} {r : Except Failure Unit} (toPath : Uri.toPath uri = .ok path)
      (absent : c.present path = .ok false) (drop : drop c p path = (p', r)) (new : uri ∉ p.visited) :
      Worked c full p uri p' r
  | broken {p' : Pass} {e : Failure} (walks : Walks c p (.start uri) [uri] (p', .error e))
      (present : ∀ path, Uri.toPath uri = .ok path → c.present path = .ok true) :
      Worked c full p uri p' (.error e)
  | blank {p' : Pass} {done : Item} (walks : Walks c p (.start uri) [uri] (p', .ok done))
      (nodes : done.nodes.entries = []) (present : ∀ path, Uri.toPath uri = .ok path → c.present path = .ok true) :
      Worked c full p uri p' (.ok ())
  | finished {p₁ p' : Pass} {done : Item} {r : Except Failure Unit}
      (walks : Walks c p (.start uri) [uri] (p₁, .ok done)) (nodes : done.nodes.entries ≠ [])
      (finish : finish c p₁ done.nodes.values full = (p', r))
      (present : ∀ path, Uri.toPath uri = .ok path → c.present path = .ok true) : Worked c full p uri p' r

theorem worked_item (c : Context) (full : Bool) (p : Pass) (uri : String) :
    Worked c full p uri (item c full p uri).1 (item c full p uri).2 := by
  unfold item
  split
  · rename_i hseen
    exact .seen (List.contains_iff_mem.mp hseen)
  rename_i hnew
  split
  · rename_i hfault
    refine .nowhere _ fun path hpath => ?_
    rw [hpath] at hfault
    cases hfault
  rename_i path hpath
  split
  · rename_i hfault
    refine .nowhere _ fun path' hpath' => ?_
    cases (Results.mapError_eq_ok.mp hpath).symm.trans hpath'
    exact ⟨_, hfault⟩
  · rename_i habsent
    exact .gone (Results.mapError_eq_ok.mp hpath) habsent rfl (by simpa using hnew)
  · rename_i hpresent
    have hthere : ∀ path', Uri.toPath uri = .ok path' → c.present path' = .ok true := by
      intro path' hpath'
      cases (Results.mapError_eq_ok.mp hpath).symm.trans hpath'
      exact hpresent
    have hwalks := walks_walk c p uri
    cases hwalk : walk c (walkFuel c) p (.start uri) [uri] with
    | mk p' r =>
      rw [hwalk] at hwalks
      cases r with
      | error e => exact .broken hwalks hthere
      | ok done =>
        dsimp only [andThen]
        split
        · rename_i hempty
          exact .blank hwalks (by simpa using hempty) hthere
        · rename_i hempty
          exact .finished hwalks (by simpa using hempty) rfl hthere

theorem worked_of_item {c : Context} {full : Bool} {p p' : Pass} {uri : String} {r : Except Failure Unit}
    (h : item c full p uri = (p', r)) : Worked c full p uri p' r := by
  have hworked := worked_item c full p uri
  rwa [h] at hworked

/-- An attempt is the work on an item, with its failure reported. -/
theorem worked_of_attempt {c : Context} {full : Bool} {p p' : Pass} {uri : String}
    {r : Except Failure Unit} (h : attempt c full p uri = (p', r)) :
    ∃ p₁ r₁ reports, Worked c full p uri p₁ r₁ ∧ p' = p₁.report reports := by
  have hworked := worked_item c full p uri
  unfold attempt at h
  generalize item c full p uri = x at h hworked
  obtain ⟨p₁, r₁⟩ := x
  have hsame : p₁ = p₁.report [] := by simp [report]
  cases r₁ with
  | ok _ =>
    cases h
    exact ⟨_, _, [], hworked, hsame⟩
  | error e =>
    dsimp only at h
    split at h <;> cases h
    · exact ⟨_, _, [], hworked, hsame⟩
    · exact ⟨_, _, _, hworked, rfl⟩

theorem items_singleton (c : Context) (full : Bool) (p : Pass) (uri : String) :
    items c full p [uri] = attempt c full p uri := by
  rw [items]
  generalize attempt c full p uri = x
  obtain ⟨p', _ | _⟩ := x <;> rfl

/-- Every item of a batch is worked on without failure. -/
def Clean (c : Context) (full : Bool) : Pass → List String → Prop
  | _, [] => True
  | p, uri :: rest => (item c full p uri).2 = .ok () ∧ Clean c full (item c full p uri).1 rest

instance decidableClean (c : Context) (full : Bool) : (p : Pass) → (uris : List String) →
    Decidable (Clean c full p uris)
  | _, [] => inferInstanceAs (Decidable True)
  | p, uri :: rest =>
    have := decidableClean c full (item c full p uri).1 rest
    inferInstanceAs (Decidable ((item c full p uri).2 = .ok () ∧ Clean c full (item c full p uri).1 rest))

theorem Clean.head {c : Context} {full : Bool} {p : Pass} {uri : String} {rest : List String}
    (h : Clean c full p (uri :: rest)) :
    ∃ p', item c full p uri = (p', .ok ()) ∧ attempt c full p uri = (p', .ok ()) ∧ Clean c full p' rest := by
  obtain ⟨hok, hrest⟩ := h
  unfold attempt
  generalize item c full p uri = r at hok hrest ⊢
  obtain ⟨p', r⟩ := r
  obtain rfl : r = .ok () := hok
  exact ⟨p', rfl, rfl, hrest⟩

/-- An invariant of items that succeed is one of a batch whose items do. -/
theorem Clean.keeps {c : Context} {full : Bool} {I : Pass → Prop} {uris : List String} {p : Pass}
    (h : Clean c full p uris)
    (hitem : ∀ p p' uri, uri ∈ uris → item c full p uri = (p', .ok ()) → I p → I p') (hi : I p) :
    (items c full p uris).2 = .ok () ∧ I (items c full p uris).1 := by
  induction uris generalizing p with
  | nil => exact ⟨rfl, hi⟩
  | cons uri rest ih =>
    obtain ⟨p', hok, hattempt, hrest⟩ := h.head
    rw [items, hattempt]
    refine ih hrest (fun p p' u hu => hitem p p' u (List.mem_cons_of_mem _ hu)) ?_
    exact hitem p p' uri (by simp) hok hi

/-- What visits keep, a walk keeps, even one that fails. -/
theorem Walks.keeps_all {c : Context} {U : String → Prop} {I : Pass → Prop}
    (hfound : ∀ q d path, CodeMap.IsTarget c.workspace q → c.Reads (Uri.ofResolved q) d path →
      U (Uri.ofResolved q))
    (hvisit : ∀ p uri p' r, U uri → uri ∉ p.visited → visit c (p.mark uri) uri = (p', r) → I p → I p')
    {p : Pass} {item : Item} {queue : List String} {r : Pass × Except Failure Item}
    (h : Walks c p item queue r) (hqueue : ∀ u ∈ queue, U u) (hi : I p) :
    I r.1 ∧ ∀ done, r.2 = .ok done → ∀ n ∈ done.nodes.values, n ∈ item.nodes.values ∨
      ∃ uri d path, U uri ∧ c.Reads uri d path ∧ n.OwnedBy uri := by
  induction h with
  | done =>
    refine ⟨hi, fun done hdone n hn => .inl ?_⟩
    rw [Except.ok.inj hdone]
    exact hn
  | skip _ _ ih => exact ih (fun u hu => hqueue u (List.mem_cons_of_mem _ hu)) hi
  | @step p p' item uri queue v r hnew hv _ ih =>
    have huri : U uri := hqueue uri (by simp)
    have hrest : ∀ u ∈ queue ++ item.fresh v, U u := by
      intro u hu
      rcases List.mem_append.mp hu with hu | hu
      · exact hqueue u (List.mem_cons_of_mem _ hu)
      · obtain ⟨q, htarget, rfl⟩ := (found_of_visit hv).2 u (List.mem_filter.mp hu).1
        obtain ⟨d, path, hreads⟩ := reads_of_mem_found hv (List.mem_filter.mp hu).1
        exact hfound q d path htarget hreads
    obtain ⟨hend, hnodes⟩ := ih hrest (hvisit _ _ _ _ huri hnew hv hi)
    refine ⟨hend, fun done hdone n hn => ?_⟩
    rcases hnodes done hdone n hn with hitem | hvisited
    · obtain ⟨k, hk⟩ := Table.mem_values_iff.mp hitem
      rcases Table.find?_foldl_put_cases hk with ⟨x, hx, -, rfl⟩ | ⟨hold, -⟩
      · obtain ⟨hown, d, hread⟩ := nodes_of_visit hv hx
        obtain ⟨path, hreads⟩ := Context.exists_reads hread
        exact .inr ⟨uri, d, path, huri, hreads, hown⟩
      · exact .inl (Table.mem_values_iff.mpr ⟨k, hold⟩)
    · exact .inr hvisited
  | fail hnew hv =>
    refine ⟨hvisit _ _ _ _ (hqueue _ (by simp)) hnew hv hi, fun done hdone => ?_⟩
    cases hdone

/-- A property of passes that their steps keep, whatever these come to. The documents of the batch
satisfy `B`. Those that are visited satisfy `U`: documents of the batch whose paths lead to something,
and files of the workspace that can be read. -/
structure Invariant (c : Context) (full : Bool) (B U : String → Prop) (I : Pass → Prop) : Prop where
  batch : ∀ u, B u → (∀ path, Uri.toPath u = .ok path → c.present path = .ok true) → U u
  found : ∀ q d path, CodeMap.IsTarget c.workspace q → c.Reads (Uri.ofResolved q) d path →
    U (Uri.ofResolved q)
  visit : ∀ p uri p' r, U uri → uri ∉ p.visited → visit c (p.mark uri) uri = (p', r) → I p → I p'
  finish : ∀ p nodes p' r, (∀ n ∈ nodes, ∃ uri d path, U uri ∧ c.Reads uri d path ∧ n.OwnedBy uri) →
    finish c p nodes full = (p', r) → I p → I p'
  drop : ∀ p uri path p' r, B uri → Uri.toPath uri = .ok path → c.present path = .ok false →
    drop c p path = (p', r) → I p → I p'
  report : ∀ p rs, I p → I (p.report rs)

namespace Invariant

variable {c : Context} {full : Bool} {B U : String → Prop} {I : Pass → Prop}

theorem walks (h : Invariant c full B U I) {p : Pass} {uri : String} {r : Pass × Except Failure Item}
    (hwalks : Walks c p (.start uri) [uri] r) (huri : B uri)
    (hpresent : ∀ path, Uri.toPath uri = .ok path → c.present path = .ok true) (hi : I p) :
    I r.1 ∧ ∀ done, r.2 = .ok done → ∀ n ∈ done.nodes.values,
      ∃ uri d path, U uri ∧ c.Reads uri d path ∧ n.OwnedBy uri := by
  have hqueue : ∀ u ∈ [uri], U u := by
    intro u hu
    rw [List.mem_singleton.mp hu]
    exact h.batch uri huri hpresent
  obtain ⟨hend, hnodes⟩ := hwalks.keeps_all h.found h.visit hqueue hi
  refine ⟨hend, fun done hdone n hn => ?_⟩
  rcases hnodes done hdone n hn with hnone | hvisited
  · cases hnone
  · exact hvisited

theorem attempt (h : Invariant c full B U I) {p p' : Pass} {uri : String} {r : Except Failure Unit}
    (hattempt : attempt c full p uri = (p', r)) (huri : B uri) (hi : I p) : I p' := by
  obtain ⟨p₁, r₁, reports, hworked, rfl⟩ := worked_of_attempt hattempt
  apply h.report
  cases hworked with
  | seen => exact hi
  | nowhere => exact hi
  | gone hpath habsent hdrop => exact h.drop _ _ _ _ _ huri hpath habsent hdrop hi
  | broken walks hpresent => exact (h.walks walks huri hpresent hi).1
  | blank walks _ hpresent => exact (h.walks walks huri hpresent hi).1
  | finished walks _ hfinish hpresent =>
    obtain ⟨hwalked, hnodes⟩ := h.walks walks huri hpresent hi
    exact h.finish _ _ _ _ (hnodes _ rfl) hfinish hwalked

theorem items (h : Invariant c full B U I) {uris : List String} (huris : ∀ u ∈ uris, B u) {p : Pass}
    (hi : I p) : I (items c full p uris).1 := by
  induction uris generalizing p with
  | nil => exact hi
  | cons uri rest ih =>
    have hnext : I (Pass.attempt c full p uri).1 := h.attempt rfl (huris uri (by simp)) hi
    rw [Pass.items]
    rcases andThen_cases (Pass.attempt c full p uri) _ with ⟨e, -, heq⟩ | ⟨_, -, heq⟩ <;> rw [heq]
    · exact hnext
    · exact ih (fun u hu => huris u (List.mem_cons_of_mem _ hu)) hnext

end Invariant

end Pass

end OutlineIndex
