import OutlineIndex.Proofs.Frontier

namespace OutlineIndex

theorem Store.deleteDocuments_nil (s : Store) : s.deleteDocuments [] = s := by
  obtain ⟨graphPath, dimension, table, graphFile⟩ := s
  cases table with
  | none => rfl
  | some t =>
    have hrows : t.rows.filter (fun r => !([] : List String).contains (r.get .id)) = t.rows :=
      List.filter_eq_self.mpr fun _ _ => rfl
    unfold deleteDocuments deleteWhere RowTable.delete
    simp only [Option.map_some, hrows]

theorem Store.findByPath_eq_nil {s : Store} {path : String} (h : ∀ r ∈ s.rows, r.filePath ≠ path) :
    s.findByPath [path] = [] := by
  refine List.map_eq_nil_iff.mpr (List.filter_eq_nil_iff.mpr fun r hr hmem => h r hr ?_)
  simpa using hmem

namespace Context

/-- There is nothing to enter for a document, however often it is visited. -/
def Spent (c : Context) (f : FileFilter) (g : CodeGraph) (u : String) : Prop := ∀ d path,
  c.Reads u d path → g.Carries (c.relative path) (Digest.ofText d.text) ∨ ¬Pass.Enterable c f u

/-- A document that is visited: it is at the URI of a path, and something is where the URI leads. -/
structure Visitable (c : Context) (u : String) : Prop where
  resolved : ∃ q : Path, q.Resolved ∧ u = Uri.ofResolved q
  present : ∀ path, Uri.toPath u = .ok path → c.present path = .ok true

theorem visitable_of_reads {c : Context} {q path : Path} {d : Document} (hq : q.Resolved)
    (h : c.Reads (Uri.ofResolved q) d path) : c.Visitable (Uri.ofResolved q) := by
  refine ⟨⟨q, hq, rfl⟩, fun path' hpath => ?_⟩
  cases h.path.symm.trans hpath
  exact present_of_reads h

theorem visitable_of_canonical {c : Context} {u : String} (hu : c.IsCanonical u)
    (hpresent : ∀ path, Uri.toPath u = .ok path → c.present path = .ok true) : c.Visitable u := by
  obtain ⟨q, hq, rfl⟩ := hu
  exact ⟨⟨q, hq.resolved, rfl⟩, hpresent⟩

/-- A file with the relative path of a document that can be read is there. -/
theorem present_of_relative_eq {c : Context} {q q' path : Path} {d : Document}
    (hq : Path.Canonical c.workspace.cwd q) (hq' : q'.Resolved)
    (h : c.Reads (Uri.ofResolved q') d path) (heq : c.relative path = c.relative q) :
    c.present q = .ok true := by
  have hplace : Path.resolve c.workspace.cwd path = Path.resolve c.workspace.cwd q :=
    Uri.resolve_eq_of_relativePath_eq c.resolved_base (plain_of_toPath hq' h.path _)
      (hq.plain_resolve _) heq
  obtain ⟨path', bytes, hpath', -, hbytes, -⟩ := Workspace.read_eq_text h.text
  cases h.path.symm.trans hpath'
  have hthere := FileTree.status_resolve (isAbsolute_of_toPath hq' h.path) hbytes
  rw [hplace, Path.resolve_of_resolved hq.resolved] at hthere
  rw [present, Workspace.present_of_status (hasNul_of_canonical hq) hthere]
  rfl

/-- A document that can be read is not at the place of a file that is gone. -/
theorem relative_ne_of_absent {c : Context} {q q' path : Path} {d : Document}
    (hq : Path.Canonical c.workspace.cwd q) (habsent : c.present q = .ok false) (hq' : q'.Resolved)
    (h : c.Reads (Uri.ofResolved q') d path) : c.relative path ≠ c.relative q := by
  intro heq
  cases (present_of_relative_eq hq hq' h heq).symm.trans habsent

end Context

namespace Pass

variable {c : Context} {full : Bool} {f : FileFilter} {p p' : Pass} {q : Path}

/-- At every point of a pass the documents visited so far are spent, and a digest that the pass has
noted for a path is that of the path's entry. -/
structure Progress (c : Context) (f : FileFilter) (p : Pass) : Prop where
  filter : ∀ rel, c.verdict p.filter rel = c.verdict f rel
  digests : ∀ rel sha e, p.digests.find? rel = some sha → p.graph.entry? rel = some e → e.sha = sha
  visited : ∀ u ∈ p.visited, c.Visitable u ∧ c.Spent f p.graph u

theorem progress_start (c : Context) (i : Index) : Progress c i.filter (.start i) where
  filter _ := rfl
  digests _ _ _ h := by cases h
  visited _ h := by cases h

namespace Progress

/-- What the pass knows is in the table of files. -/
theorem carries (h : Progress c f p) {rel sha : String} (hknown : p.Known rel sha) :
    p.graph.Carries rel sha := by
  obtain ⟨e, he, hsha⟩ := hknown
  rw [CodeGraph.Carries, he, Option.map_some, Option.some.injEq]
  rcases hsha with hsha | hdigest
  · exact hsha
  · exact h.digests rel sha e hdigest he

/-- A visit that does not enter its document. -/
theorem quiet {uri : String} (h : Progress c f p) (huri : c.Visitable uri)
    (hquiet : Quiet c (p.mark uri) p') (hspent : c.Spent f p.graph uri) : Progress c f p' := by
  have hgraph : p'.graph = p.graph := hquiet.graph
  have hdigests : p'.digests = p.digests := hquiet.digests
  refine ⟨fun rel => (hquiet.filter rel).trans (h.filter rel), ?_, fun u hu => ?_⟩
  · rw [hgraph, hdigests]
    exact h.digests
  · rw [hquiet.visited] at hu
    rw [hgraph]
    rcases List.mem_append.mp hu with hu | hu
    · exact h.visited u hu
    · rw [List.mem_singleton.mp hu]
      exact ⟨huri, hspent⟩

theorem visit {uri : String} {r : Except Failure Visit} (h : Progress c f p) (huri : c.Visitable uri)
    (hvisit : visit c (p.mark uri) uri = (p', r)) : Progress c f p' := by
  have hfilter : ∀ rel, c.verdict (p.mark uri).filter rel = c.verdict f rel := h.filter
  cases outcome_of_visit hvisit with
  | idle quiet _ known =>
    apply h.quiet huri quiet
    intro d path hreads
    exact .inl (h.carries (known d path hreads))
  | blank quiet _ reads _ empty =>
    apply h.quiet huri quiet
    intro d path hreads
    refine .inr fun ⟨d', path', m, ids, hreads', hm, hnodes, _⟩ => ?_
    obtain ⟨rfl, rfl⟩ := reads.unique hreads'
    exact hnodes (empty m hm)
  | failed quiet _ barred =>
    apply h.quiet huri quiet
    intro d path hreads
    refine .inr fun henterable => (barred d path hreads).2 ?_
    exact henterable.congr hfilter
  | @entered p₁ d path m found ids quiet parsed reads stale map nodes _ _ ids_eq answers =>
    obtain ⟨q, hq, rfl⟩ := huri.resolved
    have hentry : ∀ k, CodeGraph.entry? (p₁.graph.update (c.relative path)
        ⟨.ofList ids, Digest.ofText d.text⟩ m.imports m.exports m.nodes.values) k =
        if k = c.relative path then some ⟨.ofList ids, Digest.ofText d.text⟩ else p.graph.entry? k := by
      intro k
      rw [CodeGraph.entry?_update, quiet.graph]
      rfl
    refine ⟨fun rel => (quiet.filter rel).trans (h.filter rel), fun rel sha e hsha he => ?_, fun u hu => ?_⟩
    · have hsha' : (p₁.digests.put (c.relative path) (Digest.ofText d.text)).find? rel = some sha := hsha
      have he' := (hentry rel).symm.trans he
      rw [Table.find?_put, quiet.digests] at hsha'
      by_cases hrel : rel = c.relative path
      · rw [if_pos hrel] at hsha' he'
        cases he'
        exact Option.some.inj hsha'
      · rw [if_neg hrel] at hsha' he'
        exact h.digests rel sha e hsha' he'
    · -- the text at the place of a visited document is the one that was entered
      have hcarries : ∀ q' d' path', q'.Resolved → c.Reads (Uri.ofResolved q') d' path' →
          (c.relative path' = c.relative path ∨
            p.graph.Carries (c.relative path') (Digest.ofText d'.text)) →
          CodeGraph.Carries (p₁.graph.update (c.relative path)
            ⟨.ofList ids, Digest.ofText d.text⟩ m.imports m.exports m.nodes.values)
            (c.relative path') (Digest.ofText d'.text) := by
        intro q' d' path' hq' hreads' hcase
        rw [CodeGraph.Carries, hentry]
        by_cases hrel : c.relative path' = c.relative path
        · rw [if_pos hrel, reads.text_eq_of_relative hq hq' hreads' hrel.symm]
          rfl
        · rw [if_neg hrel]
          exact hcase.resolve_left hrel
      have hu' : u ∈ p₁.visited := hu
      rw [quiet.visited] at hu'
      rcases List.mem_append.mp hu' with hu' | hu'
      · obtain ⟨hvisitable, hspent⟩ := h.visited u hu'
        refine ⟨hvisitable, fun d' path' hreads' => ?_⟩
        obtain ⟨q', hq', rfl⟩ := hvisitable.resolved
        rcases hspent d' path' hreads' with hcarried | hbarred
        · exact .inl (hcarries q' d' path' hq' hreads' (.inr hcarried))
        · exact .inr hbarred
      · rw [List.mem_singleton.mp hu']
        refine ⟨huri, fun d' path' hreads' => .inl ?_⟩
        obtain ⟨rfl, rfl⟩ := reads.unique hreads'
        exact hcarries q d path hq reads (.inl rfl)

theorem congr (h : Progress c f p) (ha : Alike p p') : Progress c f p' := by
  refine ⟨?_, ?_, ?_⟩
  · rw [ha.filter]; exact h.filter
  · rw [ha.digests, ha.graph]; exact h.digests
  · rw [ha.visited, ha.graph]; exact h.visited

/-- A file that is gone is none of those that have been visited. -/
theorem drop {r : Except Failure Unit} (h : Progress c f p) (hq : Path.Canonical c.workspace.cwd q)
    (habsent : c.present q = .ok false) (hdrop : drop c p q = (p', r)) : Progress c f p' := by
  have hdropped := dropped_of_drop hdrop
  have hentry : ∀ k, p'.graph.entry? k = if k = c.relative q then none else p.graph.entry? k := by
    intro k
    rw [hdropped.graph]
    exact CodeGraph.find?_files_remove p.graph _ k
  refine ⟨?_, fun rel sha e hsha he => ?_, fun u hu => ?_⟩
  · rw [hdropped.filter]
    exact h.filter
  · rw [hdropped.digests] at hsha
    rw [hentry] at he
    split at he
    · cases he
    · exact h.digests rel sha e hsha he
  · rw [hdropped.visited] at hu
    obtain ⟨hvisitable, hspent⟩ := h.visited u hu
    refine ⟨hvisitable, fun d path hreads => ?_⟩
    obtain ⟨q', hq', rfl⟩ := hvisitable.resolved
    have hne := Context.relative_ne_of_absent hq habsent hq' hreads
    rw [CodeGraph.Carries, hentry, if_neg hne]
    exact hspent d path hreads

end Progress

theorem invariant_progress (c : Context) (full : Bool) (f : FileFilter) :
    Invariant c full c.IsCanonical c.Visitable (Progress c f) where
  batch _ hu hpresent := Context.visitable_of_canonical hu hpresent
  found _ _ _ hq hreads := Context.visitable_of_reads hq.resolved hreads
  visit _ _ _ _ huri _ hvisit h := h.visit huri hvisit
  finish _ _ _ _ _ hfinish h := h.congr (alike_finish hfinish)
  drop _ _ _ _ _ huri hpath habsent hdrop h := by
    obtain ⟨q, hq, rfl⟩ := huri
    cases hpath.symm.trans hq.toPath
    exact h.drop hq habsent hdrop
  report _ _ h := h.congr ⟨rfl, rfl, rfl, rfl, rfl⟩

/-- Neither the table of files nor the store has anything of a file. -/
structure Vacant (c : Context) (q : Path) (p : Pass) : Prop where
  entry : p.graph.entry? (c.relative q) = none
  rows : ∀ r ∈ p.store.rows, r.filePath ≠ c.relative q

/-- Documents that can be read do not bring back a file that is gone. -/
theorem invariant_vacant (full : Bool) (hq : Path.Canonical c.workspace.cwd q)
    (habsent : c.present q = .ok false) :
    Invariant c full c.IsCanonical c.Visitable (Vacant c q) where
  batch _ hu hpresent := Context.visitable_of_canonical hu hpresent
  found _ _ _ hq hreads := Context.visitable_of_reads hq.resolved hreads
  visit p uri _ _ huri _ hvisit h := by
    have hquiet : ∀ {p'}, Quiet c (p.mark uri) p' → Vacant c q p' := by
      intro p' quiet
      exact ⟨by rw [quiet.graph]; exact h.entry, by rw [quiet.store]; exact h.rows⟩
    cases outcome_of_visit hvisit with
    | idle quiet => exact hquiet quiet
    | blank quiet => exact hquiet quiet
    | failed quiet => exact hquiet quiet
    | @entered p₁ d path m found ids quiet parsed reads stale map nodes _ _ ids_eq =>
      obtain ⟨q', hq', rfl⟩ := huri.resolved
      have hne := Context.relative_ne_of_absent hq habsent hq' reads
      have hbefore := hquiet quiet
      refine ⟨?_, fun r hr => hbefore.rows r (Store.mem_rows_deleteDocuments.mp hr).1⟩
      exact (CodeGraph.entry?_update p₁.graph _ _ m.imports m.exports m.nodes.values _).trans
        ((if_neg hne.symm).trans hbefore.entry)
  finish _ nodes _ _ hnodes hfinish h := by
    refine ⟨by rw [(alike_finish hfinish).graph]; exact h.entry, fun row hrow => ?_⟩
    rcases mem_rows_finish (readable_of_reads hnodes) hfinish hrow with hold | ⟨n, hn, -, hpath⟩
    · exact h.rows row hold
    · obtain ⟨uri, d, path, huri, hreads, hown⟩ := hnodes n hn
      obtain ⟨q', hq', rfl⟩ := huri.resolved
      rw [Context.filePath_of_ownedBy hown hreads.path] at hpath
      rw [← Except.ok.inj hpath]
      exact Context.relative_ne_of_absent hq habsent hq' hreads
  drop p _ _ _ _ _ _ _ hdrop h := by
    have hdropped := dropped_of_drop hdrop
    refine ⟨?_, fun row hrow => ?_⟩
    · rw [hdropped.graph]
      refine (CodeGraph.find?_files_remove p.graph _ _).trans ?_
      split
      · rfl
      · exact h.entry
    · rw [hdropped.store] at hrow
      exact h.rows row (Store.mem_rows_deleteDocuments.mp hrow).1
  report _ _ h := ⟨h.entry, h.rows⟩

theorem vacant_of_dropped (h : Dropped c p q p') : Vacant c q p' := by
  refine ⟨?_, fun r hr hpath => ?_⟩
  · rw [h.graph]
    exact (CodeGraph.find?_files_remove p.graph _ _).trans (if_pos rfl)
  · rw [h.store] at hr
    obtain ⟨hold, hout⟩ := Store.mem_rows_deleteDocuments.mp hr
    exact hout (Store.mem_ids_findByPath.mpr ⟨r, hold, hpath, rfl⟩)

theorem Walks.visited_mono {item : Item} {queue : List String} {r : Pass × Except Failure Item}
    (h : Walks c p item queue r) {u : String} (hu : u ∈ p.visited) : u ∈ r.1.visited := by
  induction h with
  | done => exact hu
  | skip _ _ ih => exact ih hu
  | step _ hvisit _ ih =>
    apply ih
    rw [visited_of_visit hvisit]
    exact List.mem_append_left _ hu
  | fail _ hvisit =>
    rw [visited_of_visit hvisit]
    exact List.mem_append_left _ hu

theorem Walks.head_visited {item : Item} {uri : String} {queue : List String}
    {r : Pass × Except Failure Item} (h : Walks c p item (uri :: queue) r) : uri ∈ r.1.visited := by
  cases h with
  | skip hseen hrest => exact hrest.visited_mono hseen
  | step _ hvisit hrest =>
    apply hrest.visited_mono
    rw [visited_of_visit hvisit]
    exact List.mem_append_right _ (List.mem_singleton.mpr rfl)
  | fail _ hvisit =>
    rw [visited_of_visit hvisit]
    exact List.mem_append_right _ (List.mem_singleton.mpr rfl)

theorem invariant_visited (c : Context) (full : Bool) (u : String) :
    Invariant c full c.IsCanonical c.Visitable fun p => u ∈ p.visited where
  batch _ hu hpresent := Context.visitable_of_canonical hu hpresent
  found _ _ _ hq hreads := Context.visitable_of_reads hq.resolved hreads
  visit _ _ _ _ _ _ hvisit hu := by
    rw [visited_of_visit hvisit]
    exact List.mem_append_left _ hu
  finish _ _ _ _ _ hfinish hu := (alike_finish hfinish).visited ▸ hu
  drop _ _ _ _ _ _ _ _ hdrop hu := by
    have hdropped := dropped_of_drop hdrop
    rw [hdropped.visited]
    exact hu
  report _ _ hu := hu

/-- After the attempt at a document it has been visited, or nothing is left of its file. -/
theorem visited_or_vacant_of_attempt {r : Except Failure Unit} (hq : Path.Canonical c.workspace.cwd q)
    (h : attempt c full p (Uri.ofResolved q) = (p', r)) (hp : Progress c f p) :
    (c.present q = .ok true → Uri.ofResolved q ∈ p'.visited) ∧
      (c.present q = .ok false → Vacant c q p') := by
  obtain ⟨p₁, r₁, reports, hworked, rfl⟩ := worked_of_attempt h
  have hwalked : ∀ {r}, Walks c p (.start (Uri.ofResolved q)) [Uri.ofResolved q] r →
      (∀ path, Uri.toPath (Uri.ofResolved q) = .ok path → c.present path = .ok true) →
      Uri.ofResolved q ∈ r.1.visited ∧ c.present q ≠ .ok false := by
    intro r walks hpresent
    refine ⟨walks.head_visited, fun habsent => ?_⟩
    cases (hpresent q hq.toPath).symm.trans habsent
  cases hworked with
  | seen hseen =>
    refine ⟨fun _ => hseen, fun habsent => ?_⟩
    cases ((hp.visited _ hseen).1.present q hq.toPath).symm.trans habsent
  | nowhere _ hfaulty =>
    obtain ⟨e, he⟩ := hfaulty q hq.toPath
    rw [he]
    exact ⟨nofun, nofun⟩
  | gone hpath habsent hdrop =>
    cases hpath.symm.trans hq.toPath
    refine ⟨fun hpresent => ?_, fun _ => ?_⟩
    · cases habsent.symm.trans hpresent
    · have hdropped := dropped_of_drop hdrop
      exact ⟨(vacant_of_dropped hdropped).entry, (vacant_of_dropped hdropped).rows⟩
  | broken walks hpresent =>
    obtain ⟨hseen, hthere⟩ := hwalked walks hpresent
    exact ⟨fun _ => hseen, fun habsent => absurd habsent hthere⟩
  | blank walks _ hpresent =>
    obtain ⟨hseen, hthere⟩ := hwalked walks hpresent
    exact ⟨fun _ => hseen, fun habsent => absurd habsent hthere⟩
  | finished walks _ hfinish hpresent =>
    obtain ⟨hseen, hthere⟩ := hwalked walks hpresent
    refine ⟨fun _ => ?_, fun habsent => absurd habsent hthere⟩
    have hkept := (alike_finish hfinish).visited
    exact hkept ▸ hseen

/-- So it is for each document of a batch that is worked on to its end. -/
theorem visited_or_vacant_of_items {uris : List String} (hbatch : ∀ u ∈ uris, c.IsCanonical u)
    (hdone : (items c full p uris).2 = .ok ()) (hp : Progress c f p)
    (hq : Path.Canonical c.workspace.cwd q) (hmem : Uri.ofResolved q ∈ uris) :
    (c.present q = .ok true → Uri.ofResolved q ∈ (items c full p uris).1.visited) ∧
      (c.present q = .ok false → Vacant c q (items c full p uris).1) := by
  induction uris generalizing p with
  | nil => cases hmem
  | cons uri rest ih =>
    have hrest : ∀ u ∈ rest, c.IsCanonical u := fun u hu => hbatch u (List.mem_cons_of_mem _ hu)
    have hnext : Progress c f (attempt c full p uri).1 :=
      (invariant_progress c full f).attempt rfl (hbatch uri (by simp)) hp
    rw [items] at hdone ⊢
    rcases andThen_cases (attempt c full p uri) _ with ⟨e, -, heq⟩ | ⟨_, -, heq⟩ <;> rw [heq] at hdone ⊢
    · cases hdone
    by_cases hlater : Uri.ofResolved q ∈ rest
    · exact ih hrest hdone hnext hlater
    · obtain rfl := (List.mem_cons.mp hmem).resolve_right hlater
      obtain ⟨hseen, hvacant⟩ : (c.present q = .ok true →
          Uri.ofResolved q ∈ (attempt c full p (Uri.ofResolved q)).1.visited) ∧
          (c.present q = .ok false → Vacant c q (attempt c full p (Uri.ofResolved q)).1) :=
        visited_or_vacant_of_attempt hq rfl hp
      refine ⟨fun hpresent => ?_, fun habsent => ?_⟩
      · exact (invariant_visited c full _).items hrest (hseen hpresent)
      · exact (invariant_vacant full hq habsent).items hrest (hvacant habsent)

/-- A pass that has changed nothing and has parsed only documents whose texts are not in the table. -/
structure Still (c : Context) (i : Index) (p : Pass) : Prop where
  graph : p.graph = i.graph
  store : p.store = i.store
  calls : p.calls = []
  digests : p.digests = .empty
  filter : ∀ rel, c.verdict p.filter rel = c.verdict i.filter rel
  parsed : ∀ u ∈ p.parsed, ∀ d path, c.Reads u d path →
    ¬i.graph.Carries (c.relative path) (Digest.ofText d.text)

namespace Still

variable {i : Index}

theorem start (c : Context) (i : Index) : Still c i (.start i) :=
  ⟨rfl, rfl, rfl, rfl, fun _ => rfl, by rintro _ ⟨⟩⟩

theorem known_iff (h : Still c i p) {rel sha : String} :
    p.Known rel sha ↔ i.graph.Carries rel sha := by
  rw [Known, CodeGraph.Carries, h.graph, h.digests, Option.map_eq_some_iff]
  simp

theorem quiet {uri : String} (h : Still c i p) (hquiet : Quiet c (p.mark uri) p')
    (hparsed : p'.parsed = p.parsed ∨ p'.parsed = p.parsed ++ [uri] ∧ ∀ d path, c.Reads uri d path →
      ¬p.Known (c.relative path) (Digest.ofText d.text)) : Still c i p' := by
  refine ⟨hquiet.graph.trans h.graph, hquiet.store.trans h.store, hquiet.calls.trans h.calls,
    hquiet.digests.trans h.digests, fun rel => (hquiet.filter rel).trans (h.filter rel), ?_⟩
  rcases hparsed with hsame | ⟨hmore, hstale⟩
  · rw [hsame]
    exact h.parsed
  · intro u hu
    rw [hmore, List.mem_append, List.mem_singleton] at hu
    rcases hu with hu | rfl
    · exact h.parsed u hu
    · intro d path hreads hcarries
      exact hstale d path hreads (h.known_iff.mpr hcarries)

/-- A walk from a document that is spent ends with it. -/
theorem walks {uri : String} {r : Pass × Except Failure Item} (h : Still c i p)
    (hspent : c.Spent i.filter i.graph uri) (hwalks : Walks c p (.start uri) [uri] r) :
    Still c i r.1 ∧ ∀ done, r.2 = .ok done → done.nodes.entries = [] := by
  cases hwalks with
  | skip _ hrest =>
    cases hrest
    refine ⟨h, fun done hdone => ?_⟩
    cases hdone
    rfl
  | fail _ hvisit =>
    cases outcome_of_visit hvisit with
    | failed quiet parsed barred =>
      refine ⟨h.quiet quiet ?_, nofun⟩
      exact parsed.imp_right fun hparsed => ⟨hparsed, fun d path hreads => (barred d path hreads).1⟩
  | step _ hvisit hrest =>
    cases outcome_of_visit hvisit with
    | idle quiet parsed =>
      cases hrest
      refine ⟨h.quiet quiet (.inl parsed), fun done hdone => ?_⟩
      cases hdone
      rfl
    | blank quiet parsed reads stale =>
      cases hrest
      refine ⟨h.quiet quiet (.inr ⟨parsed, fun d path hreads => ?_⟩), fun done hdone => ?_⟩
      · obtain ⟨rfl, rfl⟩ := reads.unique hreads
        exact stale
      · cases hdone
        rfl
    | @entered p₁ d path m found ids quiet parsed reads stale map nodes _ _ ids_eq answers =>
      have henterable : Enterable c i.filter uri := by
        have hhere : Enterable c p.filter uri := ⟨d, path, m, ids, reads, map, nodes, answers, ids_eq⟩
        exact hhere.congr fun rel => (h.filter rel).symm
      rcases hspent d path reads with hcarries | hbarred
      · exact absurd (h.known_iff.mpr hcarries) stale
      · exact absurd henterable hbarred

theorem report (h : Still c i p) (rs : List Report) : Still c i (p.report rs) :=
  ⟨h.graph, h.store, h.calls, h.digests, h.filter, h.parsed⟩

theorem attempt {r : Except Failure Unit} (h : Still c i p) (hq : Path.Canonical c.workspace.cwd q)
    (hthere : c.present q = .ok true → c.Spent i.filter i.graph (Uri.ofResolved q))
    (hgone : c.present q = .ok false → Vacant c q (.start i))
    (hattempt : attempt c full p (Uri.ofResolved q) = (p', r)) : Still c i p' := by
  obtain ⟨p₁, r₁, reports, hworked, rfl⟩ := worked_of_attempt hattempt
  apply report
  cases hworked with
  | seen => exact h
  | nowhere => exact h
  | gone hpath habsent hdrop =>
    cases hpath.symm.trans hq.toPath
    obtain ⟨hentry, hrows⟩ := hgone habsent
    have hdropped := dropped_of_drop hdrop
    have hgraph : p.graph.remove (c.relative q) = p.graph := by
      have hnone : p.graph.entry? (c.relative q) = none := by
        rw [h.graph]
        exact hentry
      rw [CodeGraph.remove, hnone]
    have hnothing : p.store.findByPath [c.relative q] = [] := by
      rw [h.store]
      exact Store.findByPath_eq_nil hrows
    refine ⟨?_, ?_, ?_, ?_, ?_, ?_⟩
    · rw [hdropped.graph, hgraph]
      exact h.graph
    · rw [hdropped.store, hnothing, List.map_nil, Store.deleteDocuments_nil]
      exact h.store
    · rw [hdropped.calls, hnothing, h.calls]
      rfl
    · rw [hdropped.digests]
      exact h.digests
    · rw [hdropped.filter]
      exact h.filter
    · rw [hdropped.parsed]
      exact h.parsed
  | broken walks hpresent => exact (h.walks (hthere (hpresent q hq.toPath)) walks).1
  | blank walks _ hpresent => exact (h.walks (hthere (hpresent q hq.toPath)) walks).1
  | finished walks nodes _ hpresent =>
    exact absurd ((h.walks (hthere (hpresent q hq.toPath)) walks).2 _ rfl) nodes

theorem items {uris : List String} (h : Still c i p)
    (hbatch : ∀ u ∈ uris, ∃ q, Path.Canonical c.workspace.cwd q ∧ u = Uri.ofResolved q ∧
      (c.present q = .ok true → c.Spent i.filter i.graph u) ∧
      (c.present q = .ok false → Vacant c q (.start i))) :
    Still c i (items c full p uris).1 := by
  induction uris generalizing p with
  | nil => exact h
  | cons uri rest ih =>
    obtain ⟨q, hq, rfl, hthere, hgone⟩ := hbatch uri (by simp)
    have hnext : Still c i (Pass.attempt c full p (Uri.ofResolved q)).1 := h.attempt hq hthere hgone rfl
    rw [Pass.items]
    rcases andThen_cases (Pass.attempt c full p (Uri.ofResolved q)) _ with ⟨e, -, heq⟩ | ⟨_, -, heq⟩ <;>
      rw [heq]
    · exact hnext
    · exact ih hnext fun u hu => hbatch u (List.mem_cons_of_mem _ hu)

end Still

end Pass

namespace Index

/-- A pass that ends without a failure to save, run again at once: it asks nothing of the store, graph
and store stay as they are, and it parses no document whose text is in the table of files. -/
theorem process_again {c : Context} {i : Index} {uris : List String} {full : Bool}
    (hbatch : ∀ u ∈ uris, c.IsCanonical u) (hdone : (i.process c uris full).2.result = .ok ()) :
    let i' := (i.process c uris full).1
    let p := (Pass.items c full (.start i') uris).1
    p.calls = [] ∧ (i'.process c uris full).1.graph = i'.graph ∧
      (i'.process c uris full).1.store = i'.store ∧
      ∀ u ∈ p.parsed, ∀ d path, c.Reads u d path →
        ¬i'.graph.Carries (c.relative path) (Digest.ofText d.text) := by
  intro i' p
  have hitems : (Pass.items c full (.start i) uris).2 = .ok () := hdone
  have hprogress : Pass.Progress c i.filter (Pass.items c full (.start i) uris).1 :=
    (Pass.invariant_progress c full i.filter).items hbatch (Pass.progress_start c i)
  obtain ⟨hgraph, hstore⟩ := process_eq c i uris full
  have hfilter : i'.filter = (Pass.items c full (.start i) uris).1.filter := rfl
  have hstill : Pass.Still c i' p := by
    apply (Pass.Still.start c i').items
    intro u hu
    obtain ⟨q, hq, rfl⟩ := hbatch u hu
    obtain ⟨hseen, hvacant⟩ := Pass.visited_or_vacant_of_items hbatch hitems (Pass.progress_start c i) hq hu
    refine ⟨q, hq, rfl, fun hpresent d path hreads => ?_, fun habsent => ?_⟩
    · rcases (hprogress.visited _ (hseen hpresent)).2 d path hreads with hcarries | hbarred
      · exact .inl (hgraph ▸ hcarries)
      · refine .inr fun henterable => hbarred (henterable.congr fun rel => ?_)
        rw [hfilter]
        exact (hprogress.filter rel).symm
    · obtain ⟨hentry, hrows⟩ := hvacant habsent
      exact ⟨hgraph ▸ hentry, hstore ▸ hrows⟩
  obtain ⟨hgraph', hstore'⟩ := process_eq c i' uris full
  exact ⟨hstill.calls, hgraph'.trans hstill.graph, hstore'.trans hstill.store, hstill.parsed⟩

/-- `a.py` is indexed, skeletons for `b.py` cannot be made, and `d.py` does not exist. -/
theorem process_again_mixed :
    let c := sampleContext [("a.py", "x\n"), ("b.py", "def g():0\n")] "g"
    let uris := ["file:///tmp/w/ws/a.py", "file:///tmp/w/ws/b.py", "file:///tmp/w/ws/d.py"]
    let i := make c.base (.empty "graph.json" 4) "*.py" []
    let i' := (i.process c uris false).1
    (Pass.items c false (.start i) uris).1.calls = [.save ["file:///tmp/w/ws/a.py"] true] ∧
      (Pass.items c false (.start i') uris).1.calls = [] ∧
      (i'.process c uris false).1.graph = i'.graph ∧ (i'.process c uris false).1.store = i'.store := by
  intro c uris i i'
  have hcanonical : ∀ name ∈ ["a.py", "b.py", "d.py"], Path.Canonical c.workspace.cwd
      ⟨.root, ["tmp", "w", "ws", name]⟩ ∧ "file:///tmp/w/ws/" ++ name =
        Uri.ofResolved ⟨.root, ["tmp", "w", "ws", name]⟩ := by
    intro name hname
    rcases (by simpa using hname : name = "a.py" ∨ name = "b.py" ∨ name = "d.py") with rfl | rfl | rfl
    · exact ⟨⟨"file:///tmp/w/ws/a.py", by decide +kernel, by decide +kernel⟩, by decide +kernel⟩
    · exact ⟨⟨"file:///tmp/w/ws/b.py", by decide +kernel, by decide +kernel⟩, by decide +kernel⟩
    · exact ⟨⟨"file:///tmp/w/ws/d.py", by decide +kernel, by decide +kernel⟩, by decide +kernel⟩
  have hbatch : ∀ u ∈ uris, c.IsCanonical u := by
    intro u hu
    have hcases : u = "file:///tmp/w/ws/" ++ "a.py" ∨ u = "file:///tmp/w/ws/" ++ "b.py" ∨
        u = "file:///tmp/w/ws/" ++ "d.py" := by simpa [uris] using hu
    rcases hcases with rfl | rfl | rfl
    · exact ⟨_, hcanonical "a.py" (by simp)⟩
    · exact ⟨_, hcanonical "b.py" (by simp)⟩
    · exact ⟨_, hcanonical "d.py" (by simp)⟩
  have hfirst : (Pass.items c false (.start i) uris).1.calls = [.save ["file:///tmp/w/ws/a.py"] true] ∧
      (i.process c uris false).2.result = .ok () := by decide +kernel
  clear_value c i
  have hagain := process_again hbatch hfirst.2
  exact ⟨hfirst.1, hagain.1, hagain.2.1, hagain.2.2.1⟩

end Index

end OutlineIndex
