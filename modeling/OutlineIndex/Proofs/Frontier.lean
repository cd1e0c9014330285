import Mathlib.Order.Bounds.Basic
import OutlineIndex.Proofs.Agreement

namespace OutlineIndex

namespace Context

/-- The URI of a path that it leads back to. -/
def IsCanonical (c : Context) (u : String) : Prop :=
  ∃ q, Path.Canonical c.workspace.cwd q ∧ u = Uri.ofResolved q

/-- A document can be read, and the table of files does not have its text. -/
def Stale (c : Context) (g : CodeGraph) (u : String) : Prop :=
  ∃ d path, c.Reads u d path ∧ ¬g.Carries (c.relative path) (Digest.ofText d.text)

/-- Something is at the path of a document. -/
def IsPresent (c : Context) (u : String) : Prop :=
  ∃ path, Uri.toPath u = .ok path ∧ c.present path = .ok true

/-- The file of a document passes the filter. -/
def Accepts (c : Context) (f : FileFilter) (u : String) : Prop :=
  ∃ path, Uri.toPath u = .ok path ∧ c.verdict f (c.relative path) = .ok true

/-- A document parses to at least one node. -/
def HasNodes (c : Context) (u : String) : Prop := ∃ d path m, c.Reads u d path ∧
  CodeMap.ofDocument c.backend c.workspace d = .ok m ∧ m.nodes.entries ≠ []

/-- One of the imports of a document resolves to the file of another. -/
def RefersTo (c : Context) (u v : String) : Prop := ∃ d path q, c.Reads u d path ∧
  CodeMap.Refers c.backend c.workspace d q ∧ v = Uri.ofResolved q

/-- The imports of canonical documents lead to canonical ones, where these can be read. They do where
the names of files and directories have no percent sign. -/
def CanonicalImports (c : Context) : Prop :=
  ∀ u v, c.IsCanonical u → c.RefersTo u v → (∃ d path, c.Reads v d path) → c.IsCanonical v

theorem canonicalImports_of_percent_not_mem {c : Context} (h : ∀ e ∈ c.workspace.files.entries,
    Path.Plain e.1 ∧ ∀ x ∈ e.1, '\x00' ∉ x.toList ∧ '%' ∉ x.toList) : c.CanonicalImports := by
  intro u v _ ⟨_, _, q, _, ⟨_, _, _, _, _, _, _, htargets, hq⟩, hv⟩ _
  have htarget := CodeMap.isTarget_of_mem_targets htargets hq
  obtain ⟨bytes, hfile⟩ := FileTree.exists_mem_of_isFile htarget.isFile
  obtain ⟨hplain, hnames⟩ := h _ hfile
  exact ⟨q, Path.canonical_of_percent_not_mem htarget.resolved hplain (fun x hx => (hnames x hx).1)
    (fun x hx => (hnames x hx).2) c.workspace.cwd, hv⟩

/-- A document with nodes refers to a stale one that passes the filter. -/
def LeadsTo (c : Context) (i : Index) (u v : String) : Prop :=
  c.HasNodes u ∧ c.RefersTo u v ∧ c.Accepts i.filter v ∧ c.Stale i.graph v

/-- A set of documents that a pass over a batch cannot do without. -/
structure Closed (c : Context) (i : Index) (batch : List String) (P : Set String) : Prop where
  batch : ∀ u ∈ batch, c.Stale i.graph u → u ∈ P
  leads : ∀ u ∈ P, ∀ v, c.LeadsTo i u v → v ∈ P

/-- The other documents that a code map has nodes of are those that the document refers to and that
can be read. -/
theorem mem_foreignUris {c : Context} {u v : String} {d : Document} {path : Path} {m : CodeMap}
    (hreads : c.Reads u d path) (hm : CodeMap.ofDocument c.backend c.workspace d = .ok m)
    (hnodes : m.nodes.entries ≠ []) :
    v ∈ Pass.foreignUris u m ↔ v ≠ u ∧ (∃ d' path', c.Reads v d' path') ∧ c.RefersTo u v := by
  have hmem := CodeMap.mem_foreignSet_ofDocument hm hnodes (a := v)
  rw [hreads.uri_eq] at hmem
  have hread : (∃ d', c.workspace.read v = .ok (.text d')) ↔ ∃ d' path', c.Reads v d' path' :=
    ⟨fun ⟨d', h⟩ => ⟨d', exists_reads h⟩, fun ⟨d', _, h⟩ => ⟨d', h.text⟩⟩
  have hrefers : (∃ q, CodeMap.Refers c.backend c.workspace d q ∧ v = Uri.ofResolved q) ↔
      c.RefersTo u v := by
    constructor
    · rintro ⟨q, hq, hv⟩
      exact ⟨d, path, q, hreads, hq, hv⟩
    · rintro ⟨d', path', q, hreads', hq, hv⟩
      obtain ⟨rfl, rfl⟩ := hreads.unique hreads'
      exact ⟨q, hq, hv⟩
  rw [hread, hrefers] at hmem
  exact hmem

theorem Reads.path_eq {c : Context} {q path : Path} {d : Document}
    (h : c.Reads (Uri.ofResolved q) d path) (hq : Path.Canonical c.workspace.cwd q) : path = q :=
  Except.ok.inj (h.path.symm.trans hq.toPath)

theorem stale_iff_of_reads {c : Context} {g : CodeGraph} {u : String} {d : Document} {path : Path}
    (h : c.Reads u d path) : c.Stale g u ↔ ¬g.Carries (c.relative path) (Digest.ofText d.text) := by
  constructor
  · intro ⟨d', path', h', hstale⟩
    obtain ⟨rfl, rfl⟩ := h.unique h'
    exact hstale
  · intro hstale
    exact ⟨d, path, h, hstale⟩

theorem hasNul_of_canonical {cwd q : Path} (hq : Path.Canonical cwd q) : q.hasNul = false :=
  Path.hasNul_eq_false hq.parts.2.2.1

/-- Reading a canonical document has an answer. -/
theorem exists_read_of_canonical {c : Context} {q : Path} (hq : Path.Canonical c.workspace.cwd q) :
    ∃ r, c.workspace.read (Uri.ofResolved q) = .ok r := by
  rcases Workspace.read_cases (w := c.workspace) hq.toPath with ⟨hnul, -⟩ | ⟨-, hread⟩
  · rw [hasNul_of_canonical hq] at hnul
    cases hnul
  · exact hread

end Context

namespace Pass

/-- Of a file that it has not touched, a pass knows what the graph knew before. -/
theorem known_iff_of_unchanged {i : Index} {p : Pass} {rel sha : String}
    (hentry : p.graph.entry? rel = i.graph.entry? rel) (hdigest : p.digests.find? rel = none) :
    p.Known rel sha ↔ i.graph.Carries rel sha := by
  rw [Known, CodeGraph.Carries, hentry, hdigest, Option.map_eq_some_iff]
  simp

/-- Where a pass over canonical documents stands, with some of them still to visit. It parses only
documents of `P`, each once, and has yet to visit those that the parsed ones lead to. -/
structure Frontier (c : Context) (i : Index) (P : Set String) (p : Pass) (queue : List String) : Prop where
  filter : ∀ rel, c.verdict p.filter rel = c.verdict i.filter rel
  nodup : p.parsed.Nodup
  present : ∀ u ∈ p.visited, c.IsPresent u
  visited : ∀ u ∈ p.parsed, u ∈ p.visited
  canonical : ∀ u ∈ p.parsed, c.IsCanonical u
  unchanged : ∀ q d, Path.Canonical c.workspace.cwd q → c.Reads (Uri.ofResolved q) d q →
    Uri.ofResolved q ∉ p.parsed → p.graph.entry? (c.relative q) = i.graph.entry? (c.relative q) ∧
      p.digests.find? (c.relative q) = none
  stale : ∀ u ∈ p.visited, c.Stale i.graph u → u ∈ p.parsed
  pending : ∀ u ∈ p.parsed, ∀ v, c.LeadsTo i u v → v ∈ p.visited ∨ v ∈ queue
  sound : ∀ u ∈ p.parsed, u ∈ P
  queued : ∀ v ∈ queue, c.IsCanonical v ∧ c.IsPresent v ∧ (c.Stale i.graph v → v ∈ P)

namespace Frontier

variable {c : Context} {i : Index} {P : Set String} {p p' : Pass} {queue : List String} {q : Path}

theorem start (c : Context) (i : Index) (P : Set String) : Frontier c i P (.start i) [] where
  filter _ := rfl
  nodup := .nil
  present _ h := by cases h
  visited _ h := by cases h
  canonical _ h := by cases h
  unchanged _ _ _ _ _ := ⟨rfl, rfl⟩
  stale _ h := by cases h
  pending _ h := by cases h
  sound _ h := by cases h
  queued _ h := by cases h

/-- For a document that has not been parsed, the pass knows what the graph knew before. -/
theorem known_iff (h : Frontier c i P p queue) (hq : Path.Canonical c.workspace.cwd q) {d : Document}
    (hreads : c.Reads (Uri.ofResolved q) d q) (hparsed : Uri.ofResolved q ∉ p.parsed) :
    p.Known (c.relative q) (Digest.ofText d.text) ↔
      i.graph.Carries (c.relative q) (Digest.ofText d.text) := by
  obtain ⟨hentry, hdigest⟩ := h.unchanged q d hq hreads hparsed
  exact known_iff_of_unchanged hentry hdigest

theorem stale_iff (h : Frontier c i P p queue) (hq : Path.Canonical c.workspace.cwd q) {d : Document}
    (hreads : c.Reads (Uri.ofResolved q) d q) (hparsed : Uri.ofResolved q ∉ p.parsed) :
    c.Stale i.graph (Uri.ofResolved q) ↔ ¬p.Known (c.relative q) (Digest.ofText d.text) := by
  rw [h.known_iff hq hreads hparsed]
  exact Context.stale_iff_of_reads hreads

theorem skip {uri : String} (h : Frontier c i P p (uri :: queue)) (hseen : uri ∈ p.visited) :
    Frontier c i P p queue := by
  refine { h with pending := fun u hu v hv => ?_, queued := fun v hv => h.queued v (List.mem_cons_of_mem _ hv) }
  rcases h.pending u hu v hv with hvisited | hqueue
  · exact .inl hvisited
  · rcases List.mem_cons.mp hqueue with rfl | hqueue
    · exact .inl hseen
    · exact .inr hqueue

/-- A document that is not stale is visited and passed over. -/
theorem passOver {uri : String} (h : Frontier c i P p (uri :: queue)) (hquiet : Quiet c (p.mark uri) p')
    (hparsed : p'.parsed = p.parsed) (hstale : ¬c.Stale i.graph uri) : Frontier c i P p' queue := by
  have hvisited : ∀ u, u ∈ p'.visited ↔ u ∈ p.visited ∨ u = uri := by
    intro u
    rw [hquiet.visited]
    simp [mark]
  have hgraph : p'.graph = p.graph := hquiet.graph
  have hdigests : p'.digests = p.digests := hquiet.digests
  refine ⟨fun rel => (hquiet.filter rel).trans (h.filter rel), ?_, ?_, ?_, ?_, ?_, ?_, ?_, ?_, ?_⟩
  · rw [hparsed]
    exact h.nodup
  · intro u hu
    rcases (hvisited u).mp hu with hu | rfl
    · exact h.present u hu
    · exact (h.queued u (by simp)).2.1
  · intro u hu
    rw [hparsed] at hu
    exact (hvisited u).mpr (.inl (h.visited u hu))
  · rw [hparsed]
    exact h.canonical
  · rw [hparsed, hgraph, hdigests]
    exact h.unchanged
  · intro u hu hs
    rcases (hvisited u).mp hu with hu | rfl
    · rw [hparsed]
      exact h.stale u hu hs
    · exact absurd hs hstale
  · intro u hu v hv
    rw [hparsed] at hu
    rcases h.pending u hu v hv with hseen | hqueue
    · exact .inl ((hvisited v).mpr (.inl hseen))
    · rcases List.mem_cons.mp hqueue with rfl | hqueue
      · exact .inl ((hvisited v).mpr (.inr rfl))
      · exact .inr hqueue
  · rw [hparsed]
    exact h.sound
  · exact fun v hv => h.queued v (List.mem_cons_of_mem _ hv)

/-- A stale document is parsed. Those that it leads to are visited, wait, or are found. -/
theorem parse (h : Frontier c i P p (Uri.ofResolved q :: queue)) (hq : Path.Canonical c.workspace.cwd q)
    (hnew : Uri.ofResolved q ∉ p.visited) (hstale : c.Stale i.graph (Uri.ofResolved q))
    (hfilter : ∀ rel, c.verdict p'.filter rel = c.verdict p.filter rel)
    (hvisited : p'.visited = p.visited ++ [Uri.ofResolved q])
    (hparsed : p'.parsed = p.parsed ++ [Uri.ofResolved q])
    (hrest : ∀ k, k ≠ c.relative q →
      p'.graph.entry? k = p.graph.entry? k ∧ p'.digests.find? k = p.digests.find? k)
    {found : List String}
    (hfound : ∀ v ∈ found, c.IsCanonical v ∧ c.IsPresent v ∧ (c.Stale i.graph v → v ∈ P))
    (hleads : ∀ v, c.LeadsTo i (Uri.ofResolved q) v →
      v ∈ p'.visited ∨ v ∈ Uri.ofResolved q :: queue ∨ v ∈ found) :
    Frontier c i P p' (queue ++ found) := by
  have hmem : ∀ u, u ∈ p'.visited ↔ u ∈ p.visited ∨ u = Uri.ofResolved q := by
    intro u
    rw [hvisited, List.mem_append, List.mem_singleton]
  have hmem' : ∀ u, u ∈ p'.parsed ↔ u ∈ p.parsed ∨ u = Uri.ofResolved q := by
    intro u
    rw [hparsed, List.mem_append, List.mem_singleton]
  have hwaits : ∀ v, v ∈ Uri.ofResolved q :: queue → v ∈ p'.visited ∨ v ∈ queue ++ found := by
    intro v hv
    rcases List.mem_cons.mp hv with rfl | hv
    · exact .inl ((hmem _).mpr (.inr rfl))
    · exact .inr (List.mem_append_left _ hv)
  refine ⟨fun rel => (hfilter rel).trans (h.filter rel), ?_, ?_, ?_, ?_, ?_, ?_, ?_, ?_, ?_⟩
  · rw [hparsed, List.nodup_append]
    refine ⟨h.nodup, by simp, ?_⟩
    rintro u hu _ hu' rfl
    exact hnew (List.mem_singleton.mp hu' ▸ h.visited u hu)
  · intro u hu
    rcases (hmem u).mp hu with hu | rfl
    · exact h.present u hu
    · exact (h.queued _ (by simp)).2.1
  · intro u hu
    rw [hmem]
    rcases (hmem' u).mp hu with hu | hu
    · exact .inl (h.visited u hu)
    · exact .inr hu
  · intro u hu
    rcases (hmem' u).mp hu with hu | rfl
    · exact h.canonical u hu
    · exact ⟨q, hq, rfl⟩
  · intro q' d' hq' hreads' hout
    rw [hmem', not_or] at hout
    obtain ⟨hentry, hdigest⟩ := hrest (c.relative q') fun heq =>
      hout.2 (congrArg Uri.ofResolved (Context.eq_of_relative_eq hq' hq heq))
    rw [hentry, hdigest]
    exact h.unchanged q' d' hq' hreads' hout.1
  · intro u hu hs
    rw [hmem']
    rcases (hmem u).mp hu with hu | hu
    · exact .inl (h.stale u hu hs)
    · exact .inr hu
  · intro u hu v hv
    rcases (hmem' u).mp hu with hu | rfl
    · rcases h.pending u hu v hv with hseen | hqueue
      · exact .inl ((hmem v).mpr (.inl hseen))
      · exact hwaits v hqueue
    · rcases hleads v hv with hseen | hqueue | hnew
      · exact .inl hseen
      · exact hwaits v hqueue
      · exact .inr (List.mem_append_right _ hnew)
  · intro u hu
    rcases (hmem' u).mp hu with hu | rfl
    · exact h.sound u hu
    · exact (h.queued _ (by simp)).2.2 hstale
  · intro v hv
    rcases List.mem_append.mp hv with hv | hv
    · exact h.queued v (List.mem_cons_of_mem _ hv)
    · exact hfound v hv

/-- A visit. The documents of the item are visited or wait in the queue. -/
theorem visit (hP : ∀ u ∈ P, ∀ v, c.LeadsTo i u v → v ∈ P)
    (himports : c.CanonicalImports) {uri : String}
    {item : Item} {v : Visit} (h : Frontier c i P p (uri :: queue)) (hnew : uri ∉ p.visited)
    (hitem : ∀ u ∈ item.frontier, u ∈ p.visited ∨ u ∈ uri :: queue)
    (hvisit : visit c (p.mark uri) uri = (p', .ok v)) : Frontier c i P p' (queue ++ item.fresh v) := by
  obtain ⟨q, hq, rfl⟩ := (h.queued uri (by simp)).1
  have hout : Uri.ofResolved q ∉ p.parsed := fun hmem => hnew (h.visited _ hmem)
  cases outcome_of_visit hvisit with
  | idle quiet parsed known =>
    have hfresh : item.fresh ⟨[], []⟩ = [] := rfl
    rw [hfresh, List.append_nil]
    refine h.passOver quiet parsed ?_
    rintro ⟨d, path, hreads, hstale⟩
    obtain rfl := hreads.path_eq hq
    exact hstale ((h.known_iff hq hreads hout).mp (known d path hreads))
  | @blank _ d path quiet parsed reads stale empty =>
    obtain rfl := reads.path_eq hq
    refine h.parse hq hnew ((h.stale_iff hq reads hout).mpr stale) quiet.filter quiet.visited parsed
      ?_ (by simp [Item.fresh]) ?_
    · intro k _
      rw [quiet.graph, quiet.digests]
      exact ⟨rfl, rfl⟩
    · rintro v ⟨⟨d', path', m, hreads', hm, hnodes⟩, -⟩
      obtain ⟨rfl, rfl⟩ := reads.unique hreads'
      exact absurd (empty m hm) hnodes
  | @entered p₁ d path m found ids quiet parsed reads stale map nodes _ mem_found ids_eq =>
    obtain rfl := reads.path_eq hq
    have hstale := (h.stale_iff hq reads hout).mpr stale
    refine h.parse hq hnew hstale ?_ ?_ ?_ ?_ ?_ ?_
    · exact quiet.filter
    · exact quiet.visited
    · exact parsed
    · intro k hk
      refine ⟨?_, ?_⟩
      · change CodeGraph.entry? (p₁.graph.update _ _ _ _ _) _ = _
        rw [CodeGraph.entry?_update, if_neg hk, quiet.graph]
        rfl
      · change (p₁.digests.put _ _).find? k = _
        rw [Table.find?_put, if_neg hk, quiet.digests]
        rfl
    · intro v hv
      obtain ⟨hforeign, d', path', hreads', haccepts, -⟩ := (mem_found v).mp (List.mem_filter.mp hv).1
      obtain ⟨-, -, hrefers⟩ := (Context.mem_foreignUris reads map nodes).mp hforeign
      refine ⟨himports _ v ⟨path, hq, rfl⟩ hrefers ⟨d', path', hreads'⟩, ⟨path', hreads'.path, Context.present_of_reads hreads'⟩,
        fun hs => ?_⟩
      refine hP _ ((h.queued _ (by simp)).2.2 hstale) v ⟨⟨d, path, m, reads, map, nodes⟩, hrefers, ?_, hs⟩
      exact ⟨path', hreads'.path, (h.filter _).symm.trans haccepts⟩
    · rintro v ⟨-, hrefers, ⟨path', hpath', haccepts⟩, hs⟩
      by_cases hseen : v ∈ p.parsed
      · exact .inl (quiet.visited ▸ List.mem_append_left _ (h.visited v hseen))
      have hreadable : ∃ d' path', c.Reads v d' path' := by
        obtain ⟨d', path', hreads', -⟩ := hs
        exact ⟨d', path', hreads'⟩
      obtain ⟨q', hq', rfl⟩ := himports _ v ⟨path, hq, rfl⟩ hrefers hreadable
      by_cases hself : Uri.ofResolved q' = Uri.ofResolved path
      · exact .inr (.inl (by simp [hself]))
      have hs' := hs
      obtain ⟨d', path'', hreads', -⟩ := hs'
      obtain rfl := hreads'.path_eq hq'
      obtain rfl : path' = path'' := Except.ok.inj (hpath'.symm.trans hq'.toPath)
      have hwants : Wants c (p.mark (Uri.ofResolved path)) (Uri.ofResolved path') :=
        ⟨d', path', hreads', (h.filter _).trans haccepts, (h.stale_iff hq' hreads' hseen).mp hs⟩
      have hmem := (mem_found _).mpr
        ⟨(Context.mem_foreignUris reads map nodes).mpr ⟨hself, ⟨d', path', hreads'⟩, hrefers⟩, hwants⟩
      by_cases hfrontier : Uri.ofResolved path' ∈ item.frontier
      · rcases hitem _ hfrontier with hvisited | hqueue
        · exact .inl (quiet.visited ▸ List.mem_append_left _ hvisited)
        · exact .inr (.inl hqueue)
      · exact .inr (.inr (List.mem_filter.mpr ⟨hmem, by simpa using hfrontier⟩))

end Frontier

/-- The walk of an item stands where its pass stands, and its documents are visited or wait. -/
structure Underway (c : Context) (i : Index) (P : Set String) (p : Pass) (item : Item)
    (queue : List String) : Prop where
  frontier : Frontier c i P p queue
  waits : ∀ u ∈ item.frontier, u ∈ p.visited ∨ u ∈ queue

namespace Underway

variable {c : Context} {i : Index} {P : Set String} {p p' : Pass} {queue : List String} {uri : String}
  {item : Item}

theorem start (h : Frontier c i P p [uri]) : Underway c i P p (.start uri) [uri] :=
  ⟨h, fun _ hu => .inr hu⟩

theorem skip (h : Underway c i P p item (uri :: queue)) (hseen : uri ∈ p.visited) :
    Underway c i P p item queue := by
  refine ⟨h.frontier.skip hseen, fun v hv => ?_⟩
  rcases h.waits v hv with hvisited | hqueue
  · exact .inl hvisited
  · rcases List.mem_cons.mp hqueue with rfl | hqueue
    · exact .inl hseen
    · exact .inr hqueue

theorem step (hP : ∀ u ∈ P, ∀ v, c.LeadsTo i u v → v ∈ P)
    (himports : c.CanonicalImports) {v : Visit}
    (h : Underway c i P p item (uri :: queue)) (hnew : uri ∉ p.visited)
    (hvisit : visit c (p.mark uri) uri = (p', .ok v)) :
    Underway c i P p' (item.extend v) (queue ++ item.fresh v) := by
  refine ⟨h.frontier.visit hP himports hnew h.waits hvisit, fun w hw => ?_⟩
  have hvisited : p'.visited = p.visited ++ [uri] := visited_of_visit hvisit
  rw [hvisited, List.mem_append, List.mem_append, List.mem_singleton]
  rcases List.mem_append.mp hw with hw | hw
  · rcases h.waits w hw with hseen | hqueue
    · exact .inl (.inl hseen)
    · rcases List.mem_cons.mp hqueue with rfl | hqueue
      · exact .inl (.inr rfl)
      · exact .inr (.inl hqueue)
  · exact .inr (.inr hw)

end Underway

namespace Frontier

variable {c : Context} {i : Index} {P : Set String} {p p' : Pass} {queue : List String} {q : Path}

/-- The walk of an item visits its first document, and keeps whatever each of its visits keeps. -/
theorem walk (hP : ∀ u ∈ P, ∀ v, c.LeadsTo i u v → v ∈ P)
    (himports : c.CanonicalImports) {J : Pass → Prop}
    (hJ : ∀ p uri queue p' v, Frontier c i P p (uri :: queue) → uri ∉ p.visited →
      Pass.visit c (p.mark uri) uri = (p', .ok v) → J p → J p')
    {uri : String} {done : Item} (hwalks : Walks c p (.start uri) [uri] (p', .ok done))
    (h : Frontier c i P p [uri]) (hp : J p) :
    Frontier c i P p' [] ∧ J p' ∧ uri ∈ p'.visited ∧ ∀ u ∈ p.visited, u ∈ p'.visited := by
  have hend := hwalks.invariant (I := fun p₁ item queue => Underway c i P p₁ item queue ∧ J p₁ ∧
    uri ∈ item.frontier ∧ ∀ u ∈ p.visited, u ∈ p₁.visited) ?_ ?_
    ⟨.start h, hp, List.mem_singleton.mpr rfl, fun _ hu => hu⟩
  · obtain ⟨hunderway, hj, huri, hmono⟩ := hend
    refine ⟨hunderway.frontier, hj, ?_, hmono⟩
    simpa using hunderway.waits uri huri
  · intro p₁ item u queue hseen ⟨hunderway, hj, huri, hmono⟩
    exact ⟨hunderway.skip hseen, hj, huri, hmono⟩
  · intro p₁ item u queue p₂ v hnew hvisit ⟨hunderway, hj, huri, hmono⟩
    refine ⟨hunderway.step hP himports hnew hvisit, hJ _ _ _ _ _ hunderway.frontier hnew hvisit hj,
      List.mem_append_left _ huri, fun w hw => ?_⟩
    have hvisited : p₂.visited = p₁.visited ++ [u] := visited_of_visit hvisit
    rw [hvisited]
    exact List.mem_append_left _ (hmono w hw)

end Frontier

/-- Nothing but the store and what is reported differs. -/
structure Alike (p p' : Pass) : Prop where
  graph : p'.graph = p.graph
  digests : p'.digests = p.digests
  visited : p'.visited = p.visited
  parsed : p'.parsed = p.parsed
  filter : p'.filter = p.filter

theorem alike_finish {c : Context} {p p' : Pass} {nodes : List Node} {full : Bool}
    {r : Except Failure Unit} (h : finish c p nodes full = (p', r)) : Alike p p' := by
  unfold finish at h
  dsimp only at h
  split at h
  · cases h
    exact ⟨rfl, rfl, rfl, rfl, rfl⟩
  · split at h
    · cases h
      exact ⟨rfl, rfl, rfl, rfl, rfl⟩
    · split at h
      · cases h
        exact ⟨rfl, rfl, rfl, rfl, rfl⟩
      · unfold commit at h
        split at h <;> cases h <;> exact ⟨rfl, rfl, rfl, rfl, rfl⟩

/-- What the attempt at a canonical document comes to, where its walk does not fail: there is nothing
to do, its file is removed, or it is walked from. -/
inductive Attempted (c : Context) (p : Pass) (q : Path) (p' : Pass) : Prop where
  | idle (alike : Alike p p')
      (reason : Uri.ofResolved q ∈ p.visited ∨ ∃ e, c.present q = .error e)
  | removed (alike : Alike { p with graph := p.graph.remove (c.relative q) } p')
      (absent : c.present q = .ok false)
  | walked {p₁ : Pass} {done : Item}
      (walks : Walks c p (.start (Uri.ofResolved q)) [Uri.ofResolved q] (p₁, .ok done))
      (present : c.present q = .ok true) (alike : Alike p₁ p')

theorem attempted {c : Context} {full : Bool} {p p' : Pass} {q : Path} {r : Except Failure Unit}
    (hq : Path.Canonical c.workspace.cwd q)
    (hwalk : (walk c (walkFuel c) p (.start (Uri.ofResolved q)) [Uri.ofResolved q]).2.isOk = true)
    (h : attempt c full p (Uri.ofResolved q) = (p', r)) : Attempted c p q p' := by
  obtain ⟨p₁, r₁, reports, hworked, rfl⟩ := worked_of_attempt h
  cases hworked with
  | seen hseen => exact .idle ⟨rfl, rfl, rfl, rfl, rfl⟩ (.inl hseen)
  | nowhere _ hfaulty => exact .idle ⟨rfl, rfl, rfl, rfl, rfl⟩ (.inr (hfaulty q hq.toPath))
  | gone hpath habsent hdrop =>
    cases hpath.symm.trans hq.toPath
    refine .removed ?_ habsent
    have hdropped := dropped_of_drop hdrop
    exact ⟨hdropped.graph, hdropped.digests, hdropped.visited, hdropped.parsed, hdropped.filter⟩
  | broken walks =>
    have hwalks := walks_walk c p (Uri.ofResolved q)
    rw [hwalks.unique walks] at hwalk
    cases hwalk
  | blank walks _ hpresent => exact .walked walks (hpresent q hq.toPath) ⟨rfl, rfl, rfl, rfl, rfl⟩
  | finished walks _ hfinish hpresent =>
    have halike := alike_finish hfinish
    exact .walked walks (hpresent q hq.toPath)
      ⟨halike.graph, halike.digests, halike.visited, halike.parsed, halike.filter⟩

namespace Frontier

variable {c : Context} {i : Index} {P : Set String} {p p' : Pass} {queue : List String} {q : Path}

theorem congr (h : Frontier c i P p queue) (ha : Alike p p') : Frontier c i P p' queue := by
  obtain ⟨hgraph, hdigests, hvisited, hparsed, hfilter⟩ := ha
  refine ⟨?_, ?_, ?_, ?_, ?_, ?_, ?_, ?_, ?_, h.queued⟩
  · rw [hfilter]; exact h.filter
  · rw [hparsed]; exact h.nodup
  · rw [hvisited]; exact h.present
  · rw [hparsed, hvisited]; exact h.visited
  · rw [hparsed]; exact h.canonical
  · rw [hparsed, hgraph, hdigests]; exact h.unchanged
  · rw [hparsed, hvisited]; exact h.stale
  · rw [hparsed, hvisited]; exact h.pending
  · rw [hparsed]; exact h.sound

/-- The removal of a file that is gone says nothing of those that can be read. -/
theorem remove (h : Frontier c i P p queue) (hq : Path.Canonical c.workspace.cwd q)
    (habsent : c.present q = .ok false) :
    Frontier c i P { p with graph := p.graph.remove (c.relative q) } queue := by
  refine { h with unchanged := fun q' d' hq' hreads' hout => ?_ }
  have hne : c.relative q' ≠ c.relative q := by
    intro heq
    obtain rfl := Context.eq_of_relative_eq hq' hq heq
    cases (Context.present_of_reads hreads').symm.trans habsent
  obtain ⟨hentry, hdigest⟩ := h.unchanged q' d' hq' hreads' hout
  refine ⟨?_, hdigest⟩
  rw [← hentry]
  exact (CodeGraph.find?_files_remove p.graph _ _).trans (if_neg hne)

theorem push (h : Frontier c i P p []) (hq : Path.Canonical c.workspace.cwd q)
    (hpresent : c.present q = .ok true)
    (hP : c.Stale i.graph (Uri.ofResolved q) → Uri.ofResolved q ∈ P) :
    Frontier c i P p [Uri.ofResolved q] := by
  refine { h with pending := fun u hu v hv => ?_, queued := fun v hv => ?_ }
  · rcases h.pending u hu v hv with hseen | hnone
    · exact .inl hseen
    · cases hnone
  · obtain rfl := List.mem_singleton.mp hv
    exact ⟨⟨q, hq, rfl⟩, ⟨q, hq.toPath, hpresent⟩, hP⟩

/-- A whole item. Afterwards its document has been visited if it is stale. -/
theorem attempt (hP : ∀ u ∈ P, ∀ v, c.LeadsTo i u v → v ∈ P)
    (himports : c.CanonicalImports)
    (hq : Path.Canonical c.workspace.cwd q)
    (hbatch : c.Stale i.graph (Uri.ofResolved q) → Uri.ofResolved q ∈ P) (h : Frontier c i P p [])
    (hattempt : Attempted c p q p') :
    Frontier c i P p' [] ∧ (c.Stale i.graph (Uri.ofResolved q) → Uri.ofResolved q ∈ p'.visited) ∧
      ∀ u ∈ p.visited, u ∈ p'.visited := by
  have hthere : c.Stale i.graph (Uri.ofResolved q) → c.present q = .ok true := by
    rintro ⟨d, path, hreads, -⟩
    obtain rfl := hreads.path_eq hq
    exact Context.present_of_reads hreads
  cases hattempt with
  | idle alike reason =>
    refine ⟨h.congr alike, fun hs => ?_, fun u hu => alike.visited ▸ hu⟩
    rcases reason with hseen | ⟨e, hfault⟩
    · exact alike.visited ▸ hseen
    · cases (hthere hs).symm.trans hfault
  | removed alike absent =>
    refine ⟨(h.remove hq absent).congr alike, fun hs => ?_, fun u hu => alike.visited ▸ hu⟩
    cases (hthere hs).symm.trans absent
  | walked walks present alike =>
    obtain ⟨hfrontier, -, hseen, hmono⟩ := walk hP himports (J := fun _ => True)
      (fun _ _ _ _ _ _ _ _ _ => trivial) walks (h.push hq present hbatch) trivial
    exact ⟨hfrontier.congr alike, fun _ => alike.visited ▸ hseen, fun u hu => alike.visited ▸ hmono u hu⟩

end Frontier

/-- Every visit of a batch succeeds. A document that is no program does not count as a failure, and
skeletons that cannot be made come after the visits. -/
def Steady (c : Context) (full : Bool) : Pass → List String → Prop
  | _, [] => True
  | p, uri :: rest =>
    (walk c (walkFuel c) p (.start uri) [uri]).2.isOk = true ∧ Steady c full (attempt c full p uri).1 rest

instance decidableSteady (c : Context) (full : Bool) : (p : Pass) → (uris : List String) →
    Decidable (Steady c full p uris)
  | _, [] => inferInstanceAs (Decidable True)
  | p, uri :: rest =>
    have := decidableSteady c full (attempt c full p uri).1 rest
    inferInstanceAs (Decidable ((walk c (walkFuel c) p (.start uri) [uri]).2.isOk = true ∧
      Steady c full (attempt c full p uri).1 rest))

theorem Steady.head {c : Context} {full : Bool} {p : Pass} {uri : String} {rest : List String}
    (h : Steady c full p (uri :: rest)) (hsaved : (items c full p (uri :: rest)).2 = .ok ()) :
    ∃ p', attempt c full p uri = (p', .ok ()) ∧
      (walk c (walkFuel c) p (.start uri) [uri]).2.isOk = true ∧ Steady c full p' rest ∧
      items c full p (uri :: rest) = items c full p' rest := by
  obtain ⟨hwalk, hrest⟩ := h
  rw [items] at hsaved ⊢
  generalize attempt c full p uri = x at hsaved hrest ⊢
  obtain ⟨p', r⟩ := x
  cases r with
  | error e => cases hsaved
  | ok _ => exact ⟨p', rfl, hwalk, hrest, rfl⟩

theorem Frontier.items {c : Context} {i : Index} {P : Set String} {full : Bool}
    (hP : ∀ u ∈ P, ∀ v, c.LeadsTo i u v → v ∈ P)
    (himports : c.CanonicalImports) {uris : List String}
    (hbatch : ∀ u ∈ uris, c.IsCanonical u ∧ (c.Stale i.graph u → u ∈ P)) {p : Pass}
    (hsteady : Steady c full p uris) (hsaved : (items c full p uris).2 = .ok ())
    (h : Frontier c i P p []) : Frontier c i P (items c full p uris).1 [] ∧
      (∀ u ∈ uris, c.Stale i.graph u → u ∈ (items c full p uris).1.visited) ∧
      ∀ u ∈ p.visited, u ∈ (items c full p uris).1.visited := by
  induction uris generalizing p with
  | nil => exact ⟨h, by simp, fun _ hu => hu⟩
  | cons uri rest ih =>
    obtain ⟨p', hattempt, hwalk, hrest, hitems⟩ := hsteady.head hsaved
    obtain ⟨⟨q, hq, rfl⟩, hin⟩ := hbatch uri (by simp)
    obtain ⟨hfrontier, hseen, hmono⟩ := h.attempt hP himports hq hin (attempted hq hwalk hattempt)
    rw [hitems] at hsaved ⊢
    obtain ⟨hend, hall, hkeeps⟩ :=
      ih (fun u hu => hbatch u (List.mem_cons_of_mem _ hu)) hrest hsaved hfrontier
    refine ⟨hend, fun u hu hs => ?_, fun u hu => hkeeps u (hmono u hu)⟩
    rcases List.mem_cons.mp hu with rfl | hu
    · exact hkeeps _ (hseen hs)
    · exact hall u hu hs

/-- A pass parses the least closed set of documents, each of them once. -/
theorem isLeast_parsed {c : Context} {i : Index} {full : Bool}
    (himports : c.CanonicalImports) {uris : List String}
    (hbatch : ∀ u ∈ uris, c.IsCanonical u) (hsteady : Steady c full (.start i) uris)
    (hsaved : (items c full (.start i) uris).2 = .ok ()) :
    IsLeast {P : Set String | c.Closed i uris P} {u | u ∈ (items c full (.start i) uris).1.parsed} ∧
      (items c full (.start i) uris).1.parsed.Nodup := by
  have hend : ∀ P, c.Closed i uris P → Frontier c i P (items c full (.start i) uris).1 [] ∧
      ∀ u ∈ uris, c.Stale i.graph u → u ∈ (items c full (.start i) uris).1.visited := by
    intro P hP
    obtain ⟨hfrontier, hvisited, -⟩ := Frontier.items hP.leads himports
      (fun u hu => ⟨hbatch u hu, hP.batch u hu⟩) hsteady hsaved (.start c i P)
    exact ⟨hfrontier, hvisited⟩
  obtain ⟨hfrontier, hvisited⟩ := hend Set.univ ⟨fun _ _ _ => trivial, fun _ _ _ _ => trivial⟩
  refine ⟨⟨⟨fun u hu hs => hfrontier.stale u (hvisited u hu hs) hs, fun u hu v hv => ?_⟩, ?_⟩,
    hfrontier.nodup⟩
  · rcases hfrontier.pending u hu v hv with hseen | hnone
    · exact hfrontier.stale v hseen hv.2.2.2
    · cases hnone
  · intro P hP u hu
    exact (hend P hP).1.sound u hu

end Pass

end OutlineIndex
