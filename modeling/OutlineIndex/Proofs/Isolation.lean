import OutlineIndex.Proofs.Alone
import OutlineIndex.Proofs.Repetition

namespace OutlineIndex

namespace Pass

/-- The nodes of an item come from documents that its walk is the first to visit. -/
theorem newly_visited_of_walks {c : Context} {p p' : Pass} {uri : String} {done : Item}
    (h : Walks c p (.start uri) [uri] (p', .ok done)) {n : Node} (hn : n ∈ done.nodes.values) :
    n.uri ∉ p.visited ∧ n.uri ∈ p'.visited := by
  refine (h.keeps (U := fun _ => True) (I := fun p' item => (∀ u ∈ p.visited, u ∈ p'.visited) ∧
    ∀ n ∈ item.nodes.values, n.uri ∉ p.visited ∧ n.uri ∈ p'.visited) (fun _ _ => trivial) ?_
    (fun _ _ => trivial) ⟨fun _ hu => hu, fun n hn => by cases hn⟩).2 n hn
  intro p₁ item u p₂ v _ hnew hvisit ⟨hmono, hnodes⟩
  have hvisited := visited_of_visit hvisit
  have hgrows : ∀ x ∈ p₁.visited, x ∈ p₂.visited := by
    intro x hx
    rw [hvisited]
    exact List.mem_append_left _ hx
  refine ⟨fun x hx => hgrows x (hmono x hx), fun n hn => ?_⟩
  obtain ⟨k, hk⟩ := Table.mem_values_iff.mp hn
  rcases Table.find?_foldl_put_cases hk with ⟨x, hx, -, rfl⟩ | ⟨hold, -⟩
  · rw [(nodes_of_visit hvisit hx).1.uri_eq, hvisited]
    exact ⟨fun hin => hnew (hmono u hin), List.mem_append_right _ (List.mem_singleton.mpr rfl)⟩
  · obtain ⟨hout, hin⟩ := hnodes n (Table.mem_values_iff.mpr ⟨k, hold⟩)
    exact ⟨hout, hgrows _ hin⟩

/-- A walk only drops rows. -/
theorem rows_of_walks {c : Context} {p : Pass} {item : Item} {queue : List String}
    {r : Pass × Except Failure Item} (h : Walks c p item queue r) {row : Store.Row}
    (hrow : row ∈ r.1.store.rows) : row ∈ p.store.rows := by
  have hstep : ∀ {p p' : Pass} {uri : String} {v : Except Failure Visit},
      visit c (p.mark uri) uri = (p', v) → row ∈ p'.store.rows → row ∈ p.store.rows := by
    intro p p' uri v hvisit hrow
    cases outcome_of_visit hvisit with
    | idle quiet => exact (congrArg Store.rows quiet.store) ▸ hrow
    | blank quiet => exact (congrArg Store.rows quiet.store) ▸ hrow
    | failed quiet => exact (congrArg Store.rows quiet.store) ▸ hrow
    | @entered p₁ _ _ _ _ _ quiet =>
      have hkept : row ∈ p₁.store.rows := (Store.mem_rows_deleteDocuments.mp hrow).1
      exact (congrArg Store.rows quiet.store) ▸ hkept
  induction h with
  | done => exact hrow
  | skip _ _ ih => exact ih hrow
  | step _ hvisit _ ih => exact hstep hvisit (ih hrow)
  | fail _ hvisit => exact hstep hvisit hrow

theorem store_eq_of_commit {c : Context} {p p' : Pass} {docs : List IndexDocument} {incremental : Bool}
    {e : Failure} (h : commit c p docs incremental = (p', .error e)) (he : e.isPersistence = false) :
    p'.store = p.store := by
  unfold commit at h
  split at h
  · cases h
    rfl
  · cases h
    rfl
  · obtain ⟨-, hr⟩ := Prod.mk.inj h
    rw [Store.eq_persistence_of_save (Prod.ext rfl hr)] at he
    cases he

/-- The end of an item leaves the store alone if it fails, unless it is the save that does. -/
theorem store_eq_of_finish {c : Context} {full : Bool} {p p' : Pass} {nodes : List Node} {e : Failure}
    (h : finish c p nodes full = (p', .error e)) (he : e.isPersistence = false) : p'.store = p.store := by
  unfold finish at h
  dsimp only at h
  generalize Skeleton.ofNodes ⟨c.workspace, p.graph, c.generate⟩ nodes = made at h
  split at h
  · cases h
    rfl
  · split at h
    · cases h
    · split at h
      · cases h
        rfl
      · exact store_eq_of_commit (p := p.report made.reports) h he

/-- A document that the index does not have as it is: it can be read, has nodes and can be entered, and
the table of files has no entry for it or another digest. -/
structure Due (c : Context) (i : Index) (q : Path) (d : Document) (m : CodeMap) (ids : List String) :
    Prop where
  ordinary : Path.Ordinary c.workspace.cwd c.base q
  reads : c.Reads (Uri.ofResolved q) d q
  stale : ¬i.graph.Carries (c.relative q) (Digest.ofText d.text)
  map : CodeMap.ofDocument c.backend c.workspace d = .ok m
  nodes : m.nodes.entries ≠ []
  ids_eq : ((ownNodes (Uri.ofResolved q) m).mapM fun n => c.relativeId n.id) = .ok ids
  passable : Passable c i.filter (Uri.ofResolved q)

/-- A pass on its way through a batch: a due document that has been visited is in the table of files. -/
structure Tracks (c : Context) (i : Index) (q : Path) (d : Document) (ids : List String) (p : Pass) :
    Prop where
  sound : Sound c i p
  entry : Uri.ofResolved q ∈ p.visited →
    p.graph.entry? (c.relative q) = some ⟨.ofList ids, Digest.ofText d.text⟩

section Document

variable {c : Context} {i : Index} {full : Bool} {q : Path} {d : Document} {m : CodeMap} {ids : List String}
  {p p' : Pass} {uri : String}

/-- The first visit to a due document enters it. -/
theorem Due.visit (h : Due c i q d m ids) (hp : Sound c i p) (hnew : Uri.ofResolved q ∉ p.visited)
    {r : Except Failure Visit}
    (hvisit : Pass.visit c (p.mark (Uri.ofResolved q)) (Uri.ofResolved q) = (p', r)) :
    p'.graph.entry? (c.relative q) = some ⟨.ofList ids, Digest.ofText d.text⟩ ∧
      ∃ v, r = .ok v ∧ v.nodes = ownNodes (Uri.ofResolved q) m := by
  have hstale : ¬p.Known (c.relative q) (Digest.ofText d.text) :=
    (hp.stale_iff h.ordinary.canonical h.reads hnew).mp ⟨d, q, h.reads, h.stale⟩
  cases outcome_of_visit hvisit with
  | idle _ _ known => exact absurd (known d q h.reads) hstale
  | blank _ _ reads _ empty =>
    obtain ⟨rfl, rfl⟩ := h.reads.unique reads
    exact absurd (empty m h.map) h.nodes
  | @entered p₁ _ _ m' _ _ _ _ reads _ map _ _ _ ids_eq =>
    obtain ⟨rfl, rfl⟩ := h.reads.unique reads
    cases h.map.symm.trans map
    cases h.ids_eq.symm.trans ids_eq
    refine ⟨?_, _, rfl, rfl⟩
    exact (CodeGraph.entry?_update p₁.graph _ _ m.imports m.exports m.nodes.values _).trans (if_pos rfl)
  | failed _ _ barred solid =>
    have hpassable : Passable c p.filter (Uri.ofResolved q) := h.passable.congr hp.filter
    exact (hpassable.elim (barred d q h.reads).2 solid).elim

/-- Visits of other documents leave its entry alone. -/
theorem Tracks.entry_visit (h : Tracks c i q d ids p) (hq : Path.Canonical c.workspace.cwd q) {q' : Path}
    (hq' : Path.Canonical c.workspace.cwd q') (hne : q ≠ q') {r : Except Failure Visit}
    (hvisit : visit c (p.mark (Uri.ofResolved q')) (Uri.ofResolved q') = (p', r)) :
    Uri.ofResolved q ∈ p'.visited →
      p'.graph.entry? (c.relative q) = some ⟨.ofList ids, Digest.ofText d.text⟩ := by
  intro hseen
  have hbefore : Uri.ofResolved q ∈ p.visited := by
    rw [visited_of_visit hvisit] at hseen
    rcases List.mem_append.mp hseen with hseen | hseen
    · exact hseen
    · exact absurd (hq.eq_of_ofResolved_eq hq' (List.mem_singleton.mp hseen)) hne
  have hentry := h.entry hbefore
  cases outcome_of_visit hvisit with
  | idle quiet => rw [quiet.graph]; exact hentry
  | blank quiet => rw [quiet.graph]; exact hentry
  | failed quiet => rw [quiet.graph]; exact hentry
  | @entered p₁ _ path m _ _ quiet _ reads =>
    obtain rfl := reads.path_eq hq'
    have hother : c.relative q ≠ c.relative path := fun heq =>
      hne (Context.eq_of_relative_eq hq hq' heq)
    refine (CodeGraph.entry?_update p₁.graph _ _ m.imports m.exports m.nodes.values _).trans ?_
    rw [if_neg hother, quiet.graph]
    exact hentry

theorem Tracks.visit (hp : Tracks c i q d ids p) (h : Due c i q d m ids) (hfiles : c.OrdinaryTargets)
    (huri : Uri.IsOrdinary c.workspace.cwd c.base uri) (hnew : uri ∉ p.visited) {r : Except Failure Visit}
    (hvisit : Pass.visit c (p.mark uri) uri = (p', r)) : Tracks c i q d ids p' := by
  refine ⟨hp.sound.visit hfiles huri hvisit, ?_⟩
  obtain ⟨q', hq', rfl⟩ := huri
  by_cases heq : q = q'
  · obtain rfl := heq
    exact fun _ => (h.visit hp.sound hnew hvisit).1
  · exact hp.entry_visit h.ordinary.canonical hq'.canonical heq hvisit

theorem invariant_tracks (h : Due c i q d m ids) (hfiles : c.OrdinaryTargets) (full : Bool) :
    Invariant c full (Uri.IsOrdinary c.workspace.cwd c.base) (Uri.IsOrdinary c.workspace.cwd c.base)
      (Tracks c i q d ids) where
  batch _ hu _ := hu
  found q _ _ hq _ := ⟨q, hfiles q hq, rfl⟩
  visit _ _ _ _ huri hnew hvisit hp := hp.visit h hfiles huri hnew hvisit
  finish _ _ _ _ _ hfinish hp := by
    have ha := alike_finish hfinish
    refine ⟨hp.sound.congr ha, ?_⟩
    rw [ha.visited, ha.graph]
    exact hp.entry
  drop p uri path p' r huri hpath habsent hdrop hp := by
    refine ⟨(invariant_sound hfiles i full).drop _ _ _ _ _ huri hpath habsent hdrop hp.sound, ?_⟩
    obtain ⟨q', hq', rfl⟩ := huri
    cases hpath.symm.trans hq'.canonical.toPath
    have hdropped := dropped_of_drop hdrop
    have hother : c.relative q ≠ c.relative path :=
      Context.relative_ne_of_absent hq'.canonical habsent h.ordinary.canonical.resolved h.reads
    rw [hdropped.visited, hdropped.graph]
    intro hseen
    exact (CodeGraph.find?_files_remove p.graph _ _).trans ((if_neg hother).trans (hp.entry hseen))
  report _ _ hp := ⟨hp.sound.congr ⟨rfl, rfl, rfl, rfl, rfl⟩, hp.entry⟩

/-- The nodes of a document that are stored after an item were stored before, or it is the item that visits
the document first, and it succeeds. -/
theorem hasNode_of_worked (hfiles : c.OrdinaryTargets) (huri : Uri.IsOrdinary c.workspace.cwd c.base uri)
    (hp : Sound c i p) {r : Except Failure Unit} (hworked : Worked c full p uri p' r)
    (hr : ∀ e, r = .error e → e.isPersistence = false) {n : Node} (hn : n.OwnedBy (Uri.ofResolved q))
    (hstored : p'.store.HasNode n.id) : p.store.HasNode n.id ∨
      (r = .ok () ∧ Uri.ofResolved q ∉ p.visited ∧ Uri.ofResolved q ∈ p'.visited) := by
  obtain ⟨row, hrow, hid⟩ := hstored
  cases hworked with
  | seen => exact .inl ⟨row, hrow, hid⟩
  | nowhere => exact .inl ⟨row, hrow, hid⟩
  | gone _ _ hdrop =>
    have hdropped := dropped_of_drop hdrop
    rw [hdropped.store] at hrow
    exact .inl ⟨row, (Store.mem_rows_deleteDocuments.mp hrow).1, hid⟩
  | broken walks => exact .inl ⟨row, rows_of_walks walks hrow, hid⟩
  | blank walks => exact .inl ⟨row, rows_of_walks walks hrow, hid⟩
  | @finished p₁ _ done _ walks _ hfinish hpresent =>
    obtain ⟨-, howned⟩ := (invariant_sound hfiles i full).walks walks huri hpresent hp
    cases r with
    | error e =>
      rw [store_eq_of_finish hfinish (hr e rfl)] at hrow
      exact .inl ⟨row, rows_of_walks walks hrow, hid⟩
    | ok =>
      rcases mem_rows_finish (readable_of_reads (howned done rfl)) hfinish hrow with hold | ⟨n', hn', hid', -⟩
      · exact .inl ⟨row, rows_of_walks walks hold, hid⟩
      · -- a row of the item, so the document is one of those that the item visits
        obtain ⟨u, d, path, ⟨q', hq', rfl⟩, hreads, hown⟩ := howned done rfl n' hn'
        obtain ⟨hout, hin⟩ := newly_visited_of_walks walks hn'
        rw [hown.uri_eq, ← hn.uri_unique hown (hid.symm.trans hid')] at hout hin
        exact .inr ⟨rfl, hout, (alike_finish hfinish).visited ▸ hin⟩

/-- All nodes of a document are stored, each at the path of its file. -/
def Held (c : Context) (q : Path) (own : List Node) (p : Pass) : Prop :=
  ∀ n ∈ own, Store.HoldsAt p.store.rows n.id (c.relative q)

theorem Held.delete {own : List Node} {dropped : List String} (h : Held c q own p)
    (hstore : p'.store = p.store.deleteDocuments dropped) (hout : ∀ n ∈ own, n.id ∉ dropped) :
    Held c q own p' := by
  intro n hn
  obtain ⟨⟨row, hrow, hid⟩, hplaces⟩ := h n hn
  rw [hstore]
  refine ⟨⟨row, Store.mem_rows_deleteDocuments.mpr ⟨hrow, ?_⟩, hid⟩, fun r hr => ?_⟩
  · rw [hid]
    exact hout n hn
  · exact hplaces r (Store.mem_rows_deleteDocuments.mp hr).1

/-- Visits of other documents drop no rows of this one. -/
theorem Held.visit {own : List Node} (h : Held c q own p) (hp : Sound c i p)
    (hown : ∀ n ∈ own, n.OwnedBy (Uri.ofResolved q)) (hq : Path.Canonical c.workspace.cwd q) {q' : Path}
    (hq' : Path.Canonical c.workspace.cwd q') (hne : q ≠ q') {r : Except Failure Visit}
    (hvisit : Pass.visit c (p.mark (Uri.ofResolved q')) (Uri.ofResolved q') = (p', r)) :
    Held c q own p' := by
  cases outcome_of_visit hvisit with
  | idle quiet => rw [Held, quiet.store]; exact h
  | blank quiet => rw [Held, quiet.store]; exact h
  | failed quiet => rw [Held, quiet.store]; exact h
  | @entered p₁ _ path m _ ids quiet _ reads =>
    obtain rfl := reads.path_eq hq'
    refine h.delete (congrArg (Store.deleteDocuments · _) quiet.store) fun n hn hmem => ?_
    obtain ⟨e, he, rel, hrel, -, habsolute⟩ := mem_staleIds.mp hmem
    obtain ⟨f, hf, hid⟩ := (hown n hn).exists_fragment
    refine hp.regular.not_mem_listed c.resolved_base hq hq' hne hf ?_
    rw [← hid, CodeGraph.mem_listed]
    refine ⟨e, he, rel, hrel, ?_⟩
    rw [CodeGraph.absolute, hp.regular.workspace]
    exact habsolute

/-- The removal of another file drops no rows of this document. -/
theorem Held.drop {own : List Node} (h : Held c q own p) (hreads : c.Reads (Uri.ofResolved q) d q)
    (hq : Path.Canonical c.workspace.cwd q) {q' : Path} (hq' : Path.Canonical c.workspace.cwd q')
    (habsent : c.present q' = .ok false) {r : Except Failure Unit} (hdrop : Pass.drop c p q' = (p', r)) :
    Held c q own p' := by
  have hdropped := dropped_of_drop hdrop
  refine h.delete hdropped.store fun n hn hmem => ?_
  obtain ⟨row, hrow, hpath, hid⟩ := Store.mem_ids_findByPath.mp hmem
  exact Context.relative_ne_of_absent hq' habsent hq.resolved hreads
    (((h n hn).2 row hrow hid).symm.trans hpath)

theorem Due.ownedBy (h : Due c i q d m ids) {n : Node} (hn : n ∈ ownNodes (Uri.ofResolved q) m) :
    n.OwnedBy (Uri.ofResolved q) :=
  ((mem_ownNodes h.reads h.map).mp hn).2

theorem gathered_of_walks (hfiles : c.OrdinaryTargets) (huri : Uri.IsOrdinary c.workspace.cwd c.base uri)
    {done : Item} (hwalks : Walks c p (.start uri) [uri] (p', .ok done)) :
    Gathered c (Path.Canonical c.workspace.cwd) done.nodes := by
  refine hwalks.keeps (U := Uri.IsOrdinary c.workspace.cwd c.base)
    (I := fun _ item => Gathered c (Path.Canonical c.workspace.cwd) item.nodes)
    (fun q hq => ⟨q, hfiles q hq, rfl⟩) ?_ (fun u hu => List.mem_singleton.mp hu ▸ huri) (gathered_empty _ _)
  intro p item u p' v hu _ hvisit h
  obtain ⟨q, hq, rfl⟩ := hu
  exact h.extend hq.canonical hvisit

/-- A document that has been visited and is held stays so through the walk of an item. -/
theorem held_of_walks (h : Due c i q d m ids) (hfiles : c.OrdinaryTargets)
    (huri : Uri.IsOrdinary c.workspace.cwd c.base uri) (hp : Tracks c i q d ids p)
    (hseen : Uri.ofResolved q ∈ p.visited) (hheld : Held c q (ownNodes (Uri.ofResolved q) m) p)
    {r : Pass × Except Failure Item} (hwalks : Walks c p (.start uri) [uri] r) :
    Tracks c i q d ids r.1 ∧ Uri.ofResolved q ∈ r.1.visited ∧
      Held c q (ownNodes (Uri.ofResolved q) m) r.1 := by
  refine (hwalks.keeps_all (I := fun p => Tracks c i q d ids p ∧ Uri.ofResolved q ∈ p.visited ∧
    Held c q (ownNodes (Uri.ofResolved q) m) p) (fun q _ _ hq _ => ⟨q, hfiles q hq, rfl⟩) ?_
    (fun u hu => List.mem_singleton.mp hu ▸ huri) ⟨hp, hseen, hheld⟩).1
  intro p u p' r hu hnew hvisit ⟨hp, hseen, hheld⟩
  refine ⟨hp.visit h hfiles hu hnew hvisit, ?_, ?_⟩
  · rw [visited_of_visit hvisit]
    exact List.mem_append_left _ hseen
  · obtain ⟨q', hq', rfl⟩ := hu
    have hne : q ≠ q' := fun heq => hnew (heq ▸ hseen)
    exact hheld.visit hp.sound (fun _ hn => h.ownedBy hn) h.ordinary.canonical hq'.canonical hne hvisit

/-- It stays so through the item. -/
theorem held_of_worked (h : Due c i q d m ids) (hfiles : c.OrdinaryTargets)
    (huri : Uri.IsOrdinary c.workspace.cwd c.base uri) (hp : Tracks c i q d ids p)
    (hseen : Uri.ofResolved q ∈ p.visited) (hheld : Held c q (ownNodes (Uri.ofResolved q) m) p)
    {r : Except Failure Unit} (hworked : Worked c full p uri p' r)
    (hr : ∀ e, r = .error e → e.isPersistence = false) :
    Held c q (ownNodes (Uri.ofResolved q) m) p' := by
  cases hworked with
  | seen => exact hheld
  | nowhere => exact hheld
  | gone hpath habsent hdrop =>
    obtain ⟨q', hq', rfl⟩ := huri
    cases hpath.symm.trans hq'.canonical.toPath
    exact hheld.drop h.reads h.ordinary.canonical hq'.canonical habsent hdrop
  | broken walks => exact (held_of_walks h hfiles huri hp hseen hheld walks).2.2
  | blank walks => exact (held_of_walks h hfiles huri hp hseen hheld walks).2.2
  | @finished p₁ _ done _ walks hne hfinish =>
    obtain ⟨hp₁, hseen₁, hheld₁⟩ := held_of_walks h hfiles huri hp hseen hheld walks
    cases r with
    | error e =>
      rw [Held, store_eq_of_finish hfinish (hr e rfl)]
      exact hheld₁
    | ok =>
      intro n hn
      obtain ⟨rel, hmem, hrel⟩ := Results.exists_mem_of_mapM h.ids_eq hn
      exact holdsAt_of_finish (gathered_of_walks hfiles huri walks).collected
        (fun hnil => hne (List.map_eq_nil_iff.mp hnil)) hfinish (h.ownedBy hn) h.reads.path
        (hp₁.entry hseen₁) hrel (IdSet.mem_ofList.mpr hmem) (.inr (hheld₁ n hn))

/-- The walk that is the first to visit a due document has all its nodes. -/
theorem entered_of_walks (h : Due c i q d m ids) (hfiles : c.OrdinaryTargets)
    (huri : Uri.IsOrdinary c.workspace.cwd c.base uri) (hp : Tracks c i q d ids p)
    (hnew : Uri.ofResolved q ∉ p.visited) {done : Item}
    (hwalks : Walks c p (.start uri) [uri] (p', .ok done)) (hseen : Uri.ofResolved q ∈ p'.visited) :
    Entered (c.relative q) (Digest.ofText d.text) ids (ownNodes (Uri.ofResolved q) m) p' done := by
  obtain ⟨hp', hnodes⟩ := hwalks.keeps (U := Uri.IsOrdinary c.workspace.cwd c.base)
    (I := fun p item => Tracks c i q d ids p ∧ (Uri.ofResolved q ∈ p.visited →
      ∀ n ∈ ownNodes (Uri.ofResolved q) m, (item.nodes.find? n.id).isSome))
    (fun q hq => ⟨q, hfiles q hq, rfl⟩)
    (fun p item u p' v hu hout hvisit ⟨hp, hnodes⟩ => by
      refine ⟨hp.visit h hfiles hu hout hvisit, fun hin n hn => isSome_find?_extend_iff.mpr ?_⟩
      rw [visited_of_visit hvisit] at hin
      rcases List.mem_append.mp hin with hin | hin
      · exact .inr (hnodes hin n hn)
      · obtain rfl := List.mem_singleton.mp hin
        obtain ⟨-, v', hv', hown⟩ := h.visit hp.sound hout hvisit
        cases hv'
        exact .inl ⟨n, hown ▸ hn, rfl⟩)
    (fun u hu => List.mem_singleton.mp hu ▸ huri) ⟨hp, fun hin => absurd hin hnew⟩
  exact ⟨hp'.entry hseen, hnodes hseen⟩

/-- The item that is the first to visit a due document stores it, if it succeeds. -/
theorem held_of_first (h : Due c i q d m ids) (hfiles : c.OrdinaryTargets)
    (huri : Uri.IsOrdinary c.workspace.cwd c.base uri) (hp : Tracks c i q d ids p)
    (hnew : Uri.ofResolved q ∉ p.visited) (hworked : Worked c full p uri p' (.ok ()))
    (hseen : Uri.ofResolved q ∈ p'.visited) : Held c q (ownNodes (Uri.ofResolved q) m) p' := by
  cases hworked with
  | seen => exact absurd hseen hnew
  | gone _ _ hdrop =>
    have hdropped := dropped_of_drop hdrop
    rw [hdropped.visited] at hseen
    exact absurd hseen hnew
  | blank walks hempty =>
    obtain ⟨n, hn, -⟩ := exists_module h.reads h.map h.nodes
    have hsome := (entered_of_walks h hfiles huri hp hnew walks hseen).nodes n hn
    rw [Table.find?, hempty] at hsome
    cases hsome
  | finished walks hne hfinish =>
    rw [(alike_finish hfinish).visited] at hseen
    have hentered := entered_of_walks h hfiles huri hp hnew walks hseen
    exact fun n hn => hentered.holdsAt h.reads h.map h.ids_eq (gathered_of_walks hfiles huri walks)
      (fun hnil => hne (List.map_eq_nil_iff.mp hnil)) hfinish hn

end Document

/-- A document that is there is visited by its own item. -/
theorem visited_of_worked {c : Context} {full : Bool} {p p' : Pass} {uri : String}
    {r : Except Failure Unit} (hpresent : c.IsPresent uri) (h : Worked c full p uri p' r) :
    uri ∈ p'.visited := by
  obtain ⟨path, hpath, hthere⟩ := hpresent
  cases h with
  | seen hseen => exact hseen
  | nowhere _ faulty =>
    obtain ⟨e, he⟩ := faulty path hpath
    cases hthere.symm.trans he
  | gone toPath absent =>
    cases hpath.symm.trans toPath
    cases hthere.symm.trans absent
  | broken walks => exact walks.head_visited
  | blank walks => exact walks.head_visited
  | finished walks _ hfinish => exact (alike_finish hfinish).visited ▸ walks.head_visited

/-- An attempt that does not fail: the work on its item succeeds, or fails before the save. -/
theorem item_of_attempt {c : Context} {full : Bool} {p p' : Pass} {uri : String}
    (h : attempt c full p uri = (p', .ok ())) : p'.store = (item c full p uri).1.store ∧
      p'.visited = (item c full p uri).1.visited ∧
      ∀ e, (item c full p uri).2 = .error e → e.isPersistence = false := by
  unfold attempt at h
  generalize item c full p uri = x at h ⊢
  obtain ⟨p₁, r⟩ := x
  cases r with
  | ok _ =>
    cases h
    exact ⟨rfl, rfl, fun e he => by cases he⟩
  | error e =>
    dsimp only at h
    split at h
    · cases h
    · rename_i hsave
      cases h
      refine ⟨rfl, rfl, fun e' he' => ?_⟩
      cases he'
      simpa using hsave

/-- The first item of a batch without a failing save, and the others after it. -/
theorem items_cons_eq_ok {c : Context} {full : Bool} {p : Pass} {uri : String} {rest : List String}
    (h : (items c full p (uri :: rest)).2 = .ok ()) : ∃ p', attempt c full p uri = (p', .ok ()) ∧
      items c full p (uri :: rest) = items c full p' rest := by
  rw [items] at h ⊢
  generalize attempt c full p uri = x at h ⊢
  obtain ⟨p', r⟩ := x
  cases r with
  | ok _ => exact ⟨p', rfl, rfl⟩
  | error => cases h

theorem items_keep {c : Context} {full : Bool} {I : Pass → Prop} {uris : List String} {p : Pass}
    (hstep : ∀ p p' uri, uri ∈ uris → attempt c full p uri = (p', .ok ()) → I p → I p')
    (hsaved : (items c full p uris).2 = .ok ()) (hi : I p) : I (items c full p uris).1 := by
  induction uris generalizing p with
  | nil => exact hi
  | cons uri rest ih =>
    obtain ⟨p', hattempt, hitems⟩ := items_cons_eq_ok hsaved
    rw [hitems] at hsaved ⊢
    exact ih (fun p p' u hu => hstep p p' u (List.mem_cons_of_mem _ hu)) hsaved
      (hstep p p' uri List.mem_cons_self hattempt hi)

/-- The item that is the first to visit a document is one of another document, and it fails. -/
def Spoils (c : Context) (full : Bool) (z : String) : Pass → List String → Prop
  | _, [] => False
  | p, uri :: rest =>
    if z ∈ (attempt c full p uri).1.visited then uri ≠ z ∧ (item c full p uri).2 ≠ .ok ()
    else Spoils c full z (attempt c full p uri).1 rest

instance decidableSpoils (c : Context) (full : Bool) (z : String) : (p : Pass) → (uris : List String) →
    Decidable (Spoils c full z p uris)
  | _, [] => inferInstanceAs (Decidable False)
  | p, uri :: rest =>
    have := decidableSpoils c full z (attempt c full p uri).1 rest
    inferInstanceAs (Decidable (if z ∈ (attempt c full p uri).1.visited
      then uri ≠ z ∧ (item c full p uri).2 ≠ .ok () else Spoils c full z (attempt c full p uri).1 rest))

section Batch

variable {c : Context} {i : Index} {full : Bool} {q : Path} {d : Document} {m : CodeMap}
  {ids uris : List String} {p : Pass}

theorem visited_of_attempt {p' : Pass} {u : String} (hu : u ∈ p.visited) {uri : String}
    (huri : Uri.IsOrdinary c.workspace.cwd c.base uri) {r : Except Failure Unit}
    (hattempt : attempt c full p uri = (p', r)) : u ∈ p'.visited := by
  obtain ⟨q', hq', heq⟩ := huri
  exact (invariant_visited c full u).attempt hattempt ⟨q', hq'.canonical, heq⟩ hu

/-- Once a document is held, the rest of the batch keeps it so. -/
theorem held_of_items (h : Due c i q d m ids) (hfiles : c.OrdinaryTargets)
    (huris : ∀ u ∈ uris, Uri.IsOrdinary c.workspace.cwd c.base u)
    (hsaved : (items c full p uris).2 = .ok ()) (hp : Tracks c i q d ids p)
    (hseen : Uri.ofResolved q ∈ p.visited) (hheld : Held c q (ownNodes (Uri.ofResolved q) m) p) :
    Held c q (ownNodes (Uri.ofResolved q) m) (items c full p uris).1 := by
  refine (items_keep (I := fun p => Tracks c i q d ids p ∧ Uri.ofResolved q ∈ p.visited ∧
    Held c q (ownNodes (Uri.ofResolved q) m) p) ?_ hsaved ⟨hp, hseen, hheld⟩).2.2
  intro p p' uri hmem hattempt ⟨hp, hseen, hheld⟩
  have huri := huris uri hmem
  obtain ⟨hstore, -, hr⟩ := item_of_attempt hattempt
  refine ⟨(invariant_tracks h hfiles full).attempt hattempt huri hp,
    visited_of_attempt hseen huri hattempt, ?_⟩
  rw [Held, hstore]
  exact held_of_worked h hfiles huri hp hseen hheld (worked_item c full p uri) hr

/-- Once a document has been visited, the rest of the batch does not store it. -/
theorem hasNode_of_items (hfiles : c.OrdinaryTargets)
    (huris : ∀ u ∈ uris, Uri.IsOrdinary c.workspace.cwd c.base u)
    (hsaved : (items c full p uris).2 = .ok ()) (hp : Sound c i p)
    (hseen : Uri.ofResolved q ∈ p.visited) {n : Node} (hn : n.OwnedBy (Uri.ofResolved q))
    (hstored : (items c full p uris).1.store.HasNode n.id) : p.store.HasNode n.id := by
  refine (items_keep (I := fun p' => Sound c i p' ∧ Uri.ofResolved q ∈ p'.visited ∧
    (p'.store.HasNode n.id → p.store.HasNode n.id)) ?_ hsaved ⟨hp, hseen, id⟩).2.2 hstored
  intro p₁ p₂ uri hmem hattempt ⟨hp₁, hseen₁, hbefore⟩
  have huri := huris uri hmem
  obtain ⟨hstore, -, hr⟩ := item_of_attempt hattempt
  refine ⟨(invariant_sound hfiles i full).attempt hattempt huri hp₁,
    visited_of_attempt hseen₁ huri hattempt, fun hstored => hbefore ?_⟩
  rw [hstore] at hstored
  rcases hasNode_of_worked hfiles huri hp₁ (worked_item c full p₁ uri) hr hn hstored with hold | ⟨-, hout, -⟩
  · exact hold
  · exact absurd hseen₁ hout

theorem Due.isPresent (h : Due c i q d m ids) : c.IsPresent (Uri.ofResolved q) :=
  ⟨q, h.reads.path, Context.present_of_reads h.reads⟩

/-- What can be worked on alone does not fail as an item of its own. -/
theorem Due.item_eq_ok {P : Set String} {g : CodeGraph} {nodes : List Node} (h : Due c i q d m ids)
    (halone : Standalone c i (Uri.ofResolved q) P g nodes) (hfiles : c.OrdinaryTargets) (hp : Sound c i p)
    (hr : ∀ e, (item c full p (Uri.ofResolved q)).2 = .error e → e.isPersistence = false) :
    (item c full p (Uri.ofResolved q)).2 = .ok () := by
  rcases halone.settled hfiles ⟨q, h.ordinary, rfl⟩ h.isPresent hp rfl with hok | ⟨k, hk⟩
  · exact hok
  · cases hr _ hk

/-- A due document of a batch that can be worked on alone is visited, and it is stored, or nothing of it
is, according to the first item that visits it. -/
theorem held_or_spoils {P : Set String} {g : CodeGraph} {nodes : List Node} (h : Due c i q d m ids)
    (halone : Standalone c i (Uri.ofResolved q) P g nodes) (hfiles : c.OrdinaryTargets)
    (huris : ∀ u ∈ uris, Uri.IsOrdinary c.workspace.cwd c.base u) (hmem : Uri.ofResolved q ∈ uris)
    (hsaved : (items c full p uris).2 = .ok ()) (hp : Tracks c i q d ids p)
    (hnew : Uri.ofResolved q ∉ p.visited) :
    Uri.ofResolved q ∈ (items c full p uris).1.visited ∧
      (¬Spoils c full (Uri.ofResolved q) p uris →
        Held c q (ownNodes (Uri.ofResolved q) m) (items c full p uris).1) ∧
      (Spoils c full (Uri.ofResolved q) p uris → ∀ n ∈ ownNodes (Uri.ofResolved q) m,
        (items c full p uris).1.store.HasNode n.id → p.store.HasNode n.id) := by
  induction uris generalizing p with
  | nil => cases hmem
  | cons uri rest ih =>
    have huri := huris uri List.mem_cons_self
    have hrest : ∀ u ∈ rest, Uri.IsOrdinary c.workspace.cwd c.base u :=
      fun u hu => huris u (List.mem_cons_of_mem _ hu)
    obtain ⟨p', hattempt, hitems⟩ := items_cons_eq_ok hsaved
    have hp' : Tracks c i q d ids p' := (invariant_tracks h hfiles full).attempt hattempt huri hp
    have hworked := worked_item c full p uri
    obtain ⟨hstore, hvisited, hr⟩ := item_of_attempt hattempt
    rw [hitems] at hsaved ⊢
    rw [Spoils, hattempt]
    -- the nodes of the document that are stored after the first item
    have hfirst : ∀ n ∈ ownNodes (Uri.ofResolved q) m, p'.store.HasNode n.id → p.store.HasNode n.id ∨
        ((item c full p uri).2 = .ok () ∧ Uri.ofResolved q ∈ p'.visited) := by
      intro n hn hstored
      rw [hstore] at hstored
      rw [hvisited]
      rcases hasNode_of_worked hfiles huri hp.sound hworked hr (h.ownedBy hn) hstored with
        hold | ⟨hok, -, hin⟩
      · exact .inl hold
      · exact .inr ⟨hok, hin⟩
    by_cases hseen : Uri.ofResolved q ∈ p'.visited
    · rw [if_pos hseen]
      refine ⟨?_, fun hspared => ?_, fun ⟨_, hfailed⟩ n hn hstored => ?_⟩
      · exact items_keep (I := fun p => Uri.ofResolved q ∈ p.visited)
          (fun _ _ u hu hattempt hi => visited_of_attempt hi (hrest u hu) hattempt) hsaved hseen
      · have hok : (item c full p uri).2 = .ok () := by
          by_cases heq : uri = Uri.ofResolved q
          · subst heq
            exact h.item_eq_ok halone hfiles hp.sound hr
          · exact not_not.mp fun hfailed => hspared ⟨heq, hfailed⟩
        rw [hok] at hworked
        have hheld := held_of_first h hfiles huri hp hnew hworked (hvisited ▸ hseen)
        refine held_of_items h hfiles hrest hsaved hp' hseen ?_
        rw [Held, hstore]
        exact hheld
      · have hstored' := hasNode_of_items hfiles hrest hsaved hp'.sound hseen (h.ownedBy hn) hstored
        rcases hfirst n hn hstored' with hold | ⟨hok, -⟩
        · exact hold
        · exact absurd hok hfailed
    · rw [if_neg hseen]
      have hne : Uri.ofResolved q ≠ uri := by
        intro heq
        subst heq
        rw [hvisited] at hseen
        exact hseen (visited_of_worked h.isPresent hworked)
      obtain ⟨hend, hheld, hnothing⟩ :=
        ih hrest ((List.mem_cons.mp hmem).resolve_left hne) hsaved hp' hseen
      refine ⟨hend, hheld, fun hspoils n hn hstored => ?_⟩
      rcases hfirst n hn (hnothing hspoils n hn hstored) with hold | ⟨-, hin⟩
      · exact hold
      · exact absurd hin hseen

end Batch

end Pass

namespace Index

/-- A document of a batch that is stale and could be worked on alone, from any index that is reachable
over files with ordinary names, if no save fails. After the batch the table of files carries its
digest, whatever becomes of other items. All its nodes are stored, unless an item of another document
visits it first and fails: then none are stored that were not before. -/
theorem hasNode_of_batch {cwd root : Path} {b : Backend} {i : Index}
    (hreachable : Reachable cwd root b (Uri.IsOrdinary cwd (Path.resolve cwd root))
      (Context.OverOrdinary cwd root) i)
    {c : Context} (hover : c.OverOrdinary cwd root i.filter) {uris : List String} {full : Bool}
    (hbatch : ∀ u ∈ uris, Uri.IsOrdinary cwd (Path.resolve cwd root) u)
    (hsaved : (i.process c uris full).2.result = .ok ()) {uri : String} (huri : uri ∈ uris)
    {d : Document} {path : Path} {m : CodeMap} (hreads : c.Reads uri d path)
    (hstale : ¬i.graph.Carries (c.relative path) (Digest.ofText d.text))
    (hmap : CodeMap.ofDocument c.backend c.workspace d = .ok m) (hnodes : m.nodes.entries ≠ [])
    (halone : Pass.Clean c full (.start i) [uri]) :
    (i.process c uris full).1.graph.Carries (c.relative path) (Digest.ofText d.text) ∧
      (¬Pass.Spoils c full uri (.start i) uris →
        ∀ n ∈ Pass.ownNodes uri m, (i.process c uris full).1.store.HasNode n.id) ∧
      (Pass.Spoils c full uri (.start i) uris → ∀ n ∈ Pass.ownNodes uri m,
        (i.process c uris full).1.store.HasNode n.id → i.store.HasNode n.id) := by
  obtain ⟨hcwd, hroot, hordinary⟩ := hover
  subst hcwd hroot
  have hfiles : c.OrdinaryTargets := fun q hq => hordinary q (.inl hq)
  have hregular := (hreachable.kept (lasting_regular _ _ _)).graph
  obtain ⟨q, hq, rfl⟩ := hbatch uri huri
  obtain rfl := hreads.path_eq hq.canonical
  obtain ⟨P, g, nodes, hstandalone⟩ := Pass.standalone_of_clean hfiles hregular ⟨path, hq, rfl⟩
    ⟨path, hreads.path, Context.present_of_reads hreads⟩ halone
  obtain ⟨ids, hids⟩ : ∃ ids, ((Pass.ownNodes (Uri.ofResolved path) m).mapM
      fun n => c.relativeId n.id) = .ok ids := by
    refine Results.exists_mapM_eq_ok fun n hn => ?_
    obtain ⟨f, hf, hid⟩ := ((Pass.mem_ownNodes hreads hmap).mp hn).2.exists_fragment
    rw [Context.relativeId, hid, NodeId.toRelative_ofResolved hq.canonical.toPath hf.hash_not_mem]
    exact ⟨_, rfl⟩
  have hdue : Pass.Due c i path d m ids := ⟨hq, hreads, hstale, hmap, hnodes, hids,
    hstandalone.passable _ (hstandalone.first ⟨d, path, hreads, hstale⟩)⟩
  have hstart : Pass.Tracks c i path d ids (.start i) := ⟨.start hregular, fun hseen => by cases hseen⟩
  obtain ⟨hseen, hheld, hnothing⟩ := Pass.held_or_spoils hdue hstandalone hfiles hbatch huri hsaved hstart
    List.not_mem_nil
  have hend := (Pass.invariant_tracks hdue hfiles full).items hbatch hstart
  rw [(process_eq c i uris full).1, (process_eq c i uris full).2]
  refine ⟨?_, fun hspared n hn => (hheld hspared n hn).1, hnothing⟩
  rw [CodeGraph.Carries, hend.entry hseen]
  rfl

/-- `y.py` imports `z.py`, and fails at a function of its own. It comes after `z.py`, which is stored. -/
theorem hasNode_of_batch_imported :
    let cwd : Path := ⟨.root, ["tmp", "w"]⟩
    let root : Path := ⟨.root, ["tmp", "w", "ws"]⟩
    let c := sampleContext [("y.py", "import z\ndef f():0\n"), ("z.py", "x\n")] "f"
    let i := make (Path.resolve cwd root) (.empty "graph.json" 4) "z.py" []
    let y := "file:///tmp/w/ws/y.py"
    let z := "file:///tmp/w/ws/z.py"
    ¬Pass.Clean c false (.start i) [z, y] ∧ (i.process c [z, y] false).1.store.HasNode z := by
  intro cwd root c i y z
  have hfiles : ∀ name ∈ ["y.py", "z.py"],
      Path.Ordinary cwd (Path.resolve cwd root) ⟨.root, ["tmp", "w", "ws", name]⟩ ∧
      "file:///tmp/w/ws/" ++ name = Uri.ofResolved ⟨.root, ["tmp", "w", "ws", name]⟩ := by
    intro name hname
    rcases (by simpa using hname : name = "y.py" ∨ name = "z.py") with rfl | rfl
    · exact ⟨⟨⟨y, by decide +kernel, by decide +kernel⟩, by decide +kernel⟩, by decide +kernel⟩
    · exact ⟨⟨⟨z, by decide +kernel, by decide +kernel⟩, by decide +kernel⟩, by decide +kernel⟩
  have hover : c.OverOrdinary cwd root i.filter := by
    refine ⟨rfl, rfl, fun q hq => ?_⟩
    rcases hq with htarget | ⟨found, hfound, rel, hrel, rfl⟩
    · obtain ⟨f, hf, rfl⟩ := exists_of_isTarget_sampleWorkspace htarget
      rcases List.mem_pair.mp hf with rfl | rfl
      · exact (hfiles "y.py" (by simp)).1
      · exact (hfiles "z.py" (by simp)).1
    · have hselect : FileFilter.select c.workspace.files c.base.parts i.filter.pattern
          i.filter.exclusion = .ok (.ofList ["z.py"]) := by decide +kernel
      obtain rfl := Except.ok.inj (hselect.symm.trans hfound)
      obtain rfl : rel = "z.py" := by simpa using hrel
      have hplace : Path.resolve c.base (c.base ++ Path.ofString "z.py") =
          ⟨.root, ["tmp", "w", "ws", "z.py"]⟩ := by decide +kernel
      rw [hplace]
      exact (hfiles "z.py" (by simp)).1
  have hbatch : ∀ u ∈ [z, y], Uri.IsOrdinary cwd (Path.resolve cwd root) u := by
    have hz : Uri.IsOrdinary cwd (Path.resolve cwd root) z := ⟨_, hfiles "z.py" (by simp)⟩
    have hy : Uri.IsOrdinary cwd (Path.resolve cwd root) y := ⟨_, hfiles "y.py" (by simp)⟩
    simp [hz, hy]
  have hreads : c.Reads z ⟨z, "x\n"⟩ ⟨.root, ["tmp", "w", "ws", "z.py"]⟩ :=
    ⟨by decide +kernel, by decide +kernel⟩
  let n : Node := ⟨z, z, ⟨⟨0, 0⟩, ⟨1, 0⟩⟩, none, .module, "z"⟩
  have hmap : CodeMap.ofDocument c.backend c.workspace ⟨z, "x\n"⟩ =
      .ok ⟨Table.empty.put z n, .empty, .empty⟩ := by decide +kernel
  have hrun : (i.process c [z, y] false).2.result = .ok () ∧ Pass.Clean c false (.start i) [z] ∧
      ¬Pass.Clean c false (.start i) [z, y] ∧ ¬Pass.Spoils c false z (.start i) [z, y] := by
    decide +kernel
  obtain ⟨hsaved, halone, hfails, hspared⟩ := hrun
  have hstale : ¬i.graph.Carries (c.relative ⟨.root, ["tmp", "w", "ws", "z.py"]⟩)
      (Digest.ofText "x\n") := fun hcarries => by cases hcarries
  have hreachable : Reachable cwd root .tolerant (Uri.IsOrdinary cwd (Path.resolve cwd root))
      (Context.OverOrdinary cwd root) i := .start _ _ _ _
  have hn : n ∈ Pass.ownNodes z ⟨Table.empty.put z n, .empty, .empty⟩ := by decide
  clear_value c i
  obtain ⟨-, hstored, -⟩ := hasNode_of_batch hreachable hover hbatch hsaved List.mem_cons_self hreads
    hstale hmap (by decide) halone
  exact ⟨hfails, hstored hspared n hn⟩

/-- `y.py` comes before `z.py`, which it imports, and fails. A batch of `z.py` alone succeeds and stores
it, but here it has been visited by then: it counts as current, and is not in the store. -/
theorem not_hasNode_of_batch :
    let c := sampleContext [("y.py", "import z\ndef f():0\n"), ("z.py", "x\n")] "f"
    let i := make c.base (.empty "graph.json" 4) "z.py" []
    let y := "file:///tmp/w/ws/y.py"
    let z := "file:///tmp/w/ws/z.py"
    (i.process c [y, z] false).2.result = .ok () ∧ Pass.Clean c false (.start i) [z] ∧
      (i.process c [z] false).1.store.HasNode z ∧
      (i.process c [y, z] false).1.graph.Carries "z.py" (Digest.ofText "x\n") ∧
      ¬(i.process c [y, z] false).1.store.HasNode z := by
  decide +kernel

end Index

end OutlineIndex
