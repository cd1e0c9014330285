import Mathlib.Logic.Relation
import OutlineIndex.Proofs.Reachable
import OutlineIndex.Proofs.Repetition

namespace OutlineIndex

namespace CodeMap

variable {b : Backend} {w : Workspace} {d d' : Document}

theorem outline_of_same (htext : d.text = d'.text) {o : Source.Outline} (h : outline b d = .ok o) :
    outline b d' = .ok o := by
  unfold outline at h ⊢
  rw [← htext]
  cases b with
  | unavailable => cases h
  | tree parser stack => exact h
  | program parser =>
    dsimp only at h ⊢
    split at h
    · cases h
    rename_i hnul
    rw [if_neg hnul]
    cases hparse : parser.parse d.text.toList with
    | none =>
      rw [hparse] at h
      cases h
    | some ss =>
      rw [hparse] at h
      exact h

/-- Documents with one path and one text have the same imports. -/
theorem Refers.of_same (hpath : Uri.toPath d.uri = Uri.toPath d'.uri) (htext : d.text = d'.text) {q : Path}
    (h : Refers b w d q) : Refers b w d' q := by
  obtain ⟨path, o, ref, ps, hd, ho, href, hps, hq⟩ := h
  exact ⟨path, o, ref, ps, hpath ▸ hd, outline_of_same htext ho, href, hps, hq⟩

/-- And if one of them has nodes, so has the other. -/
theorem exists_ofDocument_of_same (hpath : Uri.toPath d.uri = Uri.toPath d'.uri) (htext : d.text = d'.text)
    {m : CodeMap} (h : ofDocument b w d = .ok m) (hnodes : m.nodes.entries ≠ []) :
    ∃ m', ofDocument b w d' = .ok m' ∧ m'.nodes.entries ≠ [] := by
  obtain ⟨path, hd, hrest⟩ := Results.bind_eq_ok.mp h
  split at hrest
  · cases hrest
    exact absurd rfl hnodes
  · rename_i hsolid
    obtain ⟨o, ho, hrest⟩ := Results.bind_eq_ok.mp hrest
    obtain ⟨found, hfound, hrest⟩ := Results.bind_eq_ok.mp hrest
    obtain ⟨nodes, hforeign, -⟩ := Results.bind_eq_ok.mp hrest
    have hd' : (Uri.toPath d'.uri).mapError Error.uri = .ok path := hpath ▸ hd
    have hmap : ofDocument b w d' = .ok ((nodes.filterMap id).foldl (link d'.uri)
        ⟨ownNodes d' path o.definitions, .empty, .empty⟩) := by
      unfold ofDocument
      rw [hd', outline_of_same htext ho]
      rw [htext] at hsolid
      simp only [bind, Except.bind, hsolid, Bool.false_eq_true, if_false]
      rw [hfound]
      dsimp only
      rw [hforeign]
      rfl
    refine ⟨_, hmap, fun hnil => hsolid ?_⟩
    rw [htext]
    exact (entries_eq_nil_iff hmap (Results.mapError_eq_ok.mp hd')).mp hnil

end CodeMap

/-- The URI of a file. -/
def Uri.IsOfFile (u : String) : Prop := ∃ q : Path, q.Resolved ∧ u = Uri.ofResolved q

namespace Context

variable {c : Context} {u v : String} {d d' : Document} {path path' : Path}

/-- Two documents are read from one file. -/
def SameFile (c : Context) (u v : String) : Prop := ∃ d path d' path',
  c.Reads u d path ∧ c.Reads v d' path' ∧ c.relative path = c.relative path'

/-- The URIs of a document and of all that is imported lead to paths without `..` in them. They do
where no name has a percent sequence. -/
def IsDirect (c : Context) (u : String) : Prop := ∀ v, (v = u ∨ ∃ w, c.RefersTo w v) →
  ∀ d path, c.Reads v d path → path.Resolved

/-- A pass comes from one document to another: the first is stale, and so is every document on the way
to the other. -/
def Spreads (c : Context) (i : Index) (u v : String) : Prop :=
  c.Stale i.graph u ∧ Relation.ReflTransGen (c.LeadsTo i) u v

/-- Whether the text at `b` comes into the table (`now`) in a pass over `a` is decided by the present
imports of `a`. It does only if `a` is stale and they lead, over stale documents that pass the filter, to
a document at the file of `b` which has nodes. It does so then, if `a` is that document or imports it; over
longer ways, if no path has a `..` in it. -/
structure FollowsImports (c : Context) (i : Index) (a b : String) (now : Prop) : Prop where
  only : now → c.Stale i.graph a ∧
    ∃ v, Relation.ReflTransGen (c.LeadsTo i) a v ∧ c.HasNodes v ∧ c.SameFile v b
  near : c.Stale i.graph a → ∀ v, v = a ∨ c.LeadsTo i a v → c.HasNodes v → c.SameFile v b → now
  far : c.IsDirect a → c.Stale i.graph a →
    ∀ v, Relation.ReflTransGen (c.LeadsTo i) a v → c.HasNodes v → c.SameFile v b → now

theorem followsImports_of_not_stale {i : Index} {a b : String} {now : Prop} (ha : ¬c.Stale i.graph a)
    (hnow : ¬now) : c.FollowsImports i a b now where
  only h := absurd h hnow
  near h := absurd h ha
  far _ h := absurd h ha

theorem isOfFile_of_refersTo (h : c.RefersTo u v) : Uri.IsOfFile v := by
  obtain ⟨_, _, q, _, ⟨_, _, _, _, _, _, _, hps, hq⟩, hv⟩ := h
  exact ⟨q, (CodeMap.isTarget_of_mem_targets hps hq).resolved, hv⟩

theorem Reads.digest_eq (hu : Uri.IsOfFile u) (hv : Uri.IsOfFile v) (h : c.Reads u d path)
    (h' : c.Reads v d' path') (hfile : c.relative path = c.relative path') :
    Digest.ofText d.text = Digest.ofText d'.text := by
  obtain ⟨q, hq, rfl⟩ := hu
  obtain ⟨q', hq', rfl⟩ := hv
  rw [h.text_eq_of_relative hq hq' h' hfile]

theorem Reads.path_eq_of_relative (hu : Uri.IsOfFile u) (hv : Uri.IsOfFile v) (h : c.Reads u d path)
    (h' : c.Reads v d' path') (hpath : path.Resolved) (hpath' : path'.Resolved)
    (hfile : c.relative path = c.relative path') : path = path' := by
  obtain ⟨q, hq, rfl⟩ := hu
  obtain ⟨q', hq', rfl⟩ := hv
  have hplace := Uri.resolve_eq_of_relativePath_eq c.resolved_base (plain_of_toPath hq h.path c.workspace.cwd)
    (plain_of_toPath hq' h'.path _) hfile
  rwa [Path.resolve_of_resolved hpath, Path.resolve_of_resolved hpath'] at hplace

theorem Reads.text_eq_of_path (h : c.Reads u d path) (h' : c.Reads v d' path) :
    Uri.toPath d.uri = Uri.toPath d'.uri ∧ d.text = d'.text := by
  refine ⟨?_, h.text_eq h' rfl⟩
  rw [h.uri_eq, h'.uri_eq, h.path, h'.path]

theorem HasNodes.of_same (h : c.HasNodes u) (hu : c.Reads u d path) (hv : c.Reads v d' path) :
    c.HasNodes v := by
  obtain ⟨d₁, path₁, m, hreads, hm, hnodes⟩ := h
  obtain ⟨rfl, rfl⟩ := hu.unique hreads
  obtain ⟨hpath, htext⟩ := hu.text_eq_of_path hv
  obtain ⟨m', hm', hnodes'⟩ := CodeMap.exists_ofDocument_of_same hpath htext hm hnodes
  exact ⟨d', path, m', hv, hm', hnodes'⟩

/-- A document leads to what another one at its path leads to. -/
theorem LeadsTo.of_same {i : Index} {x : String} (h : c.LeadsTo i u x) (hu : c.Reads u d path)
    (hv : c.Reads v d' path) : c.LeadsTo i v x := by
  obtain ⟨hnodes, ⟨d₁, path₁, q, hreads, hq, hx⟩, haccepts, hstale⟩ := h
  obtain ⟨rfl, rfl⟩ := hu.unique hreads
  obtain ⟨hpath, htext⟩ := hu.text_eq_of_path hv
  exact ⟨hnodes.of_same hu hv, ⟨d', path, q, hv, hq.of_same hpath htext, hx⟩, haccepts, hstale⟩

end Context

namespace Pass

/-- A document at the file of another one has been parsed, and has nodes if the other has. -/
def Covers (c : Context) (p : Pass) (u : String) : Prop :=
  ∃ v ∈ p.parsed, (c.HasNodes u → c.HasNodes v) ∧ c.SameFile v u

/-- Where a walk from the document `a` stands, with some documents still to visit. The files that it
has touched are those of documents that it has parsed, and it spreads to each of these from `a`. -/
structure Spread (c : Context) (i : Index) (a : String) (p : Pass) (queue : List String) : Prop where
  filter : ∀ rel, c.verdict p.filter rel = c.verdict i.filter rel
  digests : ∀ rel sha e, p.digests.find? rel = some sha → p.graph.entry? rel = some e → e.sha = sha
  parsed : ∀ u ∈ p.parsed, Uri.IsOfFile u ∧ c.Spreads i a u
  entered : ∀ u ∈ p.parsed, c.HasNodes u → ∀ d path, c.Reads u d path →
    p.graph.Carries (c.relative path) (Digest.ofText d.text)
  touched : ∀ rel, p.graph.entry? rel ≠ i.graph.entry? rel → ∃ u ∈ p.parsed, c.HasNodes u ∧
    ∃ d path, c.Reads u d path ∧ c.relative path = rel
  visited : ∀ u ∈ p.visited, c.Stale i.graph u → p.Covers c u
  pending : ∀ u ∈ p.parsed, ∀ v, c.LeadsTo i u v → v ∈ p.visited ∨ v ∈ queue ∨ p.Covers c v
  queued : ∀ v ∈ queue, Uri.IsOfFile v ∧ (c.Stale i.graph v → c.Spreads i a v)
  first : p.parsed.head? = some a ∨ p.parsed = [] ∧ ∀ v ∈ queue, v = a

namespace Spread

variable {c : Context} {i : Index} {a uri : String} {p p' : Pass} {queue : List String} {item : Item}
  {d : Document} {path : Path}

theorem start (ha : Uri.IsOfFile a) : Spread c i a (.start i) [a] where
  filter _ := rfl
  digests _ _ _ h := by cases h
  parsed _ h := by cases h
  entered _ h := by cases h
  touched _ h := absurd rfl h
  visited _ h := by cases h
  pending _ h := by cases h
  queued v hv := by
    obtain rfl := List.mem_singleton.mp hv
    exact ⟨ha, fun hstale => ⟨hstale, .refl⟩⟩
  first := .inr ⟨rfl, fun _ hv => List.mem_singleton.mp hv⟩

theorem carries (h : Spread c i a p queue) {rel sha : String} (hknown : p.Known rel sha) :
    p.graph.Carries rel sha := by
  obtain ⟨e, he, hsha⟩ := hknown
  rw [CodeGraph.Carries, he, Option.map_some, Option.some.injEq]
  rcases hsha with hsha | hdigest
  · exact hsha
  · exact h.digests rel sha e hdigest he

/-- A text that the pass does not know was not in the table before it. -/
theorem stale (h : Spread c i a p queue) (huri : Uri.IsOfFile uri) (hreads : c.Reads uri d path)
    (hunknown : ¬p.Known (c.relative path) (Digest.ofText d.text)) : c.Stale i.graph uri := by
  refine ⟨d, path, hreads, fun hcarries => hunknown ?_⟩
  suffices hnow : p.graph.Carries (c.relative path) (Digest.ofText d.text) by
    obtain ⟨e, he, hsha⟩ := Option.map_eq_some_iff.mp hnow
    exact ⟨e, he, .inl hsha⟩
  by_cases hsame : p.graph.entry? (c.relative path) = i.graph.entry? (c.relative path)
  · rw [CodeGraph.Carries, hsame]
    exact hcarries
  · obtain ⟨u, hu, hnodes, d', path', hreads', hfile⟩ := h.touched _ hsame
    rw [← hfile, ← hreads'.digest_eq (h.parsed u hu).1 huri hreads hfile]
    exact h.entered u hu hnodes d' path' hreads'

/-- A stale document whose text the pass knows is at the file of one that it has parsed. -/
theorem covered (h : Spread c i a p queue) (hreads : c.Reads uri d path)
    (hknown : p.Known (c.relative path) (Digest.ofText d.text)) (hstale : c.Stale i.graph uri) :
    p.Covers c uri := by
  rw [Context.stale_iff_of_reads hreads] at hstale
  have htouched : p.graph.entry? (c.relative path) ≠ i.graph.entry? (c.relative path) := by
    intro hsame
    apply hstale
    rw [CodeGraph.Carries, ← hsame]
    exact h.carries hknown
  obtain ⟨v, hv, hnodes, d', path', hreads', hfile⟩ := h.touched _ htouched
  exact ⟨v, hv, fun _ => hnodes, d', path', d, path, hreads', hreads, hfile⟩

/-- The text of a covered document with nodes is in the table. -/
theorem carries_of_covers (h : Spread c i a p queue) (huri : Uri.IsOfFile uri) (hreads : c.Reads uri d path)
    {v : String} {d' : Document} {path' : Path} (hreads' : c.Reads v d' path')
    (hfile : c.relative path' = c.relative path) (hnodes : c.HasNodes v) (hcovers : p.Covers c v) :
    p.graph.Carries (c.relative path) (Digest.ofText d.text) := by
  obtain ⟨w, hw, hhas, dw, pathw, dv, pathv, hwreads, hvreads, hplace⟩ := hcovers
  obtain ⟨rfl, rfl⟩ := hreads'.unique hvreads
  have hsame := hplace.trans hfile
  rw [← hsame, ← hwreads.digest_eq (h.parsed w hw).1 huri hreads hsame]
  exact h.entered w hw (hhas hnodes) dw pathw hwreads

theorem skip (h : Spread c i a p (uri :: queue)) (hseen : uri ∈ p.visited) : Spread c i a p queue := by
  refine { h with
    pending := fun u hu v hv => ?_
    queued := fun v hv => h.queued v (List.mem_cons_of_mem _ hv)
    first := h.first.imp_right fun ⟨hnone, hall⟩ => ⟨hnone, fun v hv => hall v (List.mem_cons_of_mem _ hv)⟩ }
  rcases h.pending u hu v hv with hvisited | hqueue | hcovered
  · exact .inl hvisited
  · rcases List.mem_cons.mp hqueue with rfl | hqueue
    · exact .inl hseen
    · exact .inr (.inl hqueue)
  · exact .inr (.inr hcovered)

/-- A document is visited, and perhaps parsed. What is said of the graph, and of those documents that
it leads to, is left to the case. -/
theorem advance {more found : List String} (h : Spread c i a p (uri :: queue))
    (hfilter : ∀ rel, c.verdict p'.filter rel = c.verdict p.filter rel)
    (hvisited : p'.visited = p.visited ++ [uri]) (hparsed : p'.parsed = p.parsed ++ more)
    (hmore : ∀ u ∈ more, u = uri)
    (hdigests : ∀ rel sha e, p'.digests.find? rel = some sha → p'.graph.entry? rel = some e → e.sha = sha)
    (hentered : ∀ u ∈ p'.parsed, c.HasNodes u → ∀ d path, c.Reads u d path →
      p'.graph.Carries (c.relative path) (Digest.ofText d.text))
    (htouched : ∀ rel, p'.graph.entry? rel ≠ i.graph.entry? rel → ∃ u ∈ p'.parsed, c.HasNodes u ∧
      ∃ d path, c.Reads u d path ∧ c.relative path = rel)
    (hstale : ∀ u ∈ more, c.Stale i.graph u)
    (hcovered : c.Stale i.graph uri → p'.Covers c uri)
    (hleads : ∀ u ∈ more, ∀ v, c.LeadsTo i u v → v ∈ p'.visited ∨ v ∈ queue ++ found ∨ p'.Covers c v)
    (hfound : ∀ v ∈ found, Uri.IsOfFile v ∧ (c.Stale i.graph v → c.Spreads i a v))
    (hnone : more = [] → found = []) : Spread c i a p' (queue ++ found) := by
  have hkept : ∀ v, p.Covers c v → p'.Covers c v := by
    intro v ⟨w, hw, hcovers⟩
    exact ⟨w, hparsed ▸ List.mem_append_left _ hw, hcovers⟩
  refine ⟨fun rel => (hfilter rel).trans (h.filter rel), hdigests, ?_, hentered, htouched, ?_, ?_, ?_, ?_⟩
  · intro u hu
    rw [hparsed] at hu
    rcases List.mem_append.mp hu with hu | hu
    · exact h.parsed u hu
    · obtain ⟨hfile, hspreads⟩ := h.queued uri (by simp)
      have hs := hstale u hu
      rw [hmore u hu] at hs ⊢
      exact ⟨hfile, hspreads hs⟩
  · intro u hu hs
    rw [hvisited] at hu
    rcases List.mem_append.mp hu with hu | hu
    · exact hkept u (h.visited u hu hs)
    · rw [List.mem_singleton.mp hu] at hs ⊢
      exact hcovered hs
  · intro u hu v hv
    rw [hparsed] at hu
    rcases List.mem_append.mp hu with hu | hu
    · rcases h.pending u hu v hv with hseen | hqueue | hthere
      · exact .inl (hvisited ▸ List.mem_append_left _ hseen)
      · rcases List.mem_cons.mp hqueue with rfl | hqueue
        · exact .inl (hvisited ▸ List.mem_append_right _ (List.mem_singleton.mpr rfl))
        · exact .inr (.inl (List.mem_append_left _ hqueue))
      · exact .inr (.inr (hkept v hthere))
    · exact hleads u hu v hv
  · intro v hv
    rcases List.mem_append.mp hv with hv | hv
    · exact h.queued v (List.mem_cons_of_mem _ hv)
    · exact hfound v hv
  · rw [hparsed]
    rcases h.first with hfirst | ⟨hempty, hall⟩
    · rw [List.head?_append, hfirst]
      exact .inl rfl
    · rw [hempty, List.nil_append]
      cases more with
      | nil =>
        refine .inr ⟨rfl, fun v hv => hall v ?_⟩
        rw [hnone rfl, List.append_nil] at hv
        exact List.mem_cons_of_mem _ hv
      | cons u more =>
        rw [List.head?_cons, hmore u (by simp)]
        exact .inl (congrArg some (hall uri (by simp)))

/-- A visit that leaves the graph alone. -/
theorem quiet {more : List String} (h : Spread c i a p (uri :: queue)) (hquiet : Quiet c (p.mark uri) p')
    (hparsed : p'.parsed = p.parsed ++ more) (hmore : ∀ u ∈ more, u = uri ∧ c.Stale i.graph u ∧ ¬c.HasNodes u)
    (hcovered : c.Stale i.graph uri → p'.Covers c uri) : Spread c i a p' queue := by
  have hgraph : p'.graph = p.graph := hquiet.graph
  have hdigests : p'.digests = p.digests := hquiet.digests
  have hadvance : Spread c i a p' (queue ++ []) := by
    refine h.advance hquiet.filter hquiet.visited hparsed (fun u hu => (hmore u hu).1) ?_ ?_ ?_
      (fun u hu => (hmore u hu).2.1) hcovered ?_ (by simp) (fun _ => rfl)
    · rw [hgraph, hdigests]
      exact h.digests
    · intro u hu hnodes
      rw [hparsed] at hu
      rw [hgraph]
      rcases List.mem_append.mp hu with hu | hu
      · exact h.entered u hu hnodes
      · exact absurd hnodes (hmore u hu).2.2
    · intro rel hrel
      rw [hgraph] at hrel
      obtain ⟨u, hu, htouched⟩ := h.touched rel hrel
      exact ⟨u, hparsed ▸ List.mem_append_left _ hu, htouched⟩
    · intro u hu v hv
      exact absurd hv.1 (hmore u hu).2.2
  rwa [List.append_nil] at hadvance

/-- What an entered document leads to is visited, waits, or is at the file of a parsed one. -/
theorem waits {m : CodeMap} {found : List String} {nodes : List Node} (h : Spread c i a p (uri :: queue))
    (hitem : ∀ u ∈ item.frontier, u ∈ p.visited ∨ u ∈ uri :: queue) (hreads : c.Reads uri d path)
    (hm : CodeMap.ofDocument c.backend c.workspace d = .ok m) (hnodes : m.nodes.entries ≠ [])
    (hfound : ∀ u, u ∈ found ↔ u ∈ foreignUris uri m ∧ Wants c (p.mark uri) u) {v : String}
    (hv : c.LeadsTo i uri v) :
    v = uri ∨ v ∈ p.visited ∨ v ∈ queue ++ item.fresh ⟨found, nodes⟩ ∨ p.Covers c v := by
  obtain ⟨-, hrefers, ⟨path', hpath', haccepts⟩, hstale⟩ := hv
  obtain ⟨d', path₁, hreads', -⟩ := id hstale
  obtain rfl : path₁ = path' := Except.ok.inj (hreads'.path.symm.trans hpath')
  by_cases hself : v = uri
  · exact .inl hself
  refine .inr ?_
  by_cases hknown : p.Known (c.relative path₁) (Digest.ofText d'.text)
  · exact .inr (.inr (h.covered hreads' hknown hstale))
  have hmem : v ∈ found := by
    refine (hfound v).mpr ⟨?_, d', path₁, hreads', (h.filter _).trans haccepts, hknown⟩
    exact (Context.mem_foreignUris hreads hm hnodes).mpr ⟨hself, ⟨d', path₁, hreads'⟩, hrefers⟩
  by_cases hfrontier : v ∈ item.frontier
  · rcases hitem v hfrontier with hseen | hqueue
    · exact .inl hseen
    · exact .inr (.inl (List.mem_append_left _ ((List.mem_cons.mp hqueue).resolve_left hself)))
  · exact .inr (.inl (List.mem_append_right _ (List.mem_filter.mpr ⟨hmem, by simpa using hfrontier⟩)))

/-- A stale document with nodes is entered. -/
theorem enter {m : CodeMap} {found ids : List String} {nodes : List Node} {p₁ : Pass}
    (h : Spread c i a p (uri :: queue)) (hitem : ∀ u ∈ item.frontier, u ∈ p.visited ∨ u ∈ uri :: queue)
    (hquiet : Quiet c (p.mark uri) p₁) (hparsed : p₁.parsed = p.parsed ++ [uri])
    (hreads : c.Reads uri d path) (hunknown : ¬p.Known (c.relative path) (Digest.ofText d.text))
    (hm : CodeMap.ofDocument c.backend c.workspace d = .ok m) (hnodes : m.nodes.entries ≠ [])
    (hfound : ∀ u, u ∈ found ↔ u ∈ foreignUris uri m ∧ Wants c (p.mark uri) u)
    (hvisited : p'.visited = p₁.visited) (hparsed' : p'.parsed = p₁.parsed)
    (hfilter : p'.filter = p₁.filter)
    (hdigests : p'.digests = p₁.digests.put (c.relative path) (Digest.ofText d.text))
    (hentry : ∀ k, p'.graph.entry? k =
      if k = c.relative path then some ⟨.ofList ids, Digest.ofText d.text⟩ else p₁.graph.entry? k) :
    Spread c i a p' (queue ++ item.fresh ⟨found, nodes⟩) := by
  have huri := (h.queued uri (by simp)).1
  have hstale := h.stale huri hreads hunknown
  have hsome : c.HasNodes uri := ⟨d, path, m, hreads, hm, hnodes⟩
  have hgraph : p₁.graph = p.graph := hquiet.graph
  have hall : p'.parsed = p.parsed ++ [uri] := hparsed'.trans hparsed
  have hseen : p'.visited = p.visited ++ [uri] := hvisited.trans hquiet.visited
  have hnew : uri ∈ p'.parsed := hall ▸ List.mem_append_right _ (List.mem_singleton.mpr rfl)
  refine h.advance (fun rel => ?_) hseen hall (by simp) ?_ ?_ ?_ (by simpa using hstale)
    (fun _ => ⟨uri, hnew, id, d, path, d, path, hreads, hreads, rfl⟩) ?_ ?_ (by simp)
  · rw [hfilter]
    exact hquiet.filter rel
  · intro rel sha e hsha he
    rw [hdigests, Table.find?_put, hquiet.digests] at hsha
    rw [hentry, hgraph] at he
    by_cases hrel : rel = c.relative path
    · rw [if_pos hrel] at hsha he
      cases he
      exact Option.some.inj hsha
    · rw [if_neg hrel] at hsha he
      exact h.digests rel sha e hsha he
  · -- a document at the file that is entered has the text that is entered
    intro u hu hnodes' d' path' hreads'
    rw [CodeGraph.Carries, hentry, hgraph]
    rw [hall] at hu
    rcases List.mem_append.mp hu with hu | hu
    · by_cases hfile : c.relative path' = c.relative path
      · rw [if_pos hfile, hreads'.digest_eq (h.parsed u hu).1 huri hreads hfile]
        rfl
      · rw [if_neg hfile]
        exact h.entered u hu hnodes' d' path' hreads'
    · obtain rfl := List.mem_singleton.mp hu
      obtain ⟨rfl, rfl⟩ := hreads.unique hreads'
      rw [if_pos rfl]
      rfl
  · intro rel hrel
    rw [hentry, hgraph] at hrel
    by_cases hfile : rel = c.relative path
    · exact ⟨uri, hnew, hsome, d, path, hreads, hfile.symm⟩
    · rw [if_neg hfile] at hrel
      obtain ⟨u, hu, htouched⟩ := h.touched rel hrel
      exact ⟨u, hall ▸ List.mem_append_left _ hu, htouched⟩
  · intro u hu v hv
    rw [List.mem_singleton.mp hu] at hv
    rcases h.waits hitem hreads hm hnodes hfound hv with hself | hvisited | hqueue | ⟨w, hw, hcovers⟩
    · exact .inl (hseen ▸ List.mem_append_right _ (List.mem_singleton.mpr hself))
    · exact .inl (hseen ▸ List.mem_append_left _ hvisited)
    · exact .inr (.inl hqueue)
    · exact .inr (.inr ⟨w, hall ▸ List.mem_append_left _ hw, hcovers⟩)
  · intro v hv
    obtain ⟨hforeign, d', path', hreads', haccepts, -⟩ := (hfound v).mp (List.mem_filter.mp hv).1
    obtain ⟨-, -, hrefers⟩ := (Context.mem_foreignUris hreads hm hnodes).mp hforeign
    refine ⟨Context.isOfFile_of_refersTo hrefers, fun hs => ?_⟩
    obtain ⟨hfirst, hway⟩ := (h.queued uri (by simp)).2 hstale
    refine ⟨hfirst, hway.tail ⟨hsome, hrefers, ?_, hs⟩⟩
    exact ⟨path', hreads'.path, (h.filter _).symm.trans haccepts⟩

/-- A visit. The documents of the item are visited or wait in the queue. -/
theorem visit {v : Visit} (h : Spread c i a p (uri :: queue))
    (hitem : ∀ u ∈ item.frontier, u ∈ p.visited ∨ u ∈ uri :: queue)
    (hvisit : visit c (p.mark uri) uri = (p', .ok v)) : Spread c i a p' (queue ++ item.fresh v) := by
  have hfresh : item.fresh ⟨[], []⟩ = [] := rfl
  cases outcome_of_visit hvisit with
  | idle quiet parsed known =>
    rw [hfresh, List.append_nil]
    have hkept : p'.parsed = p.parsed := parsed
    refine h.quiet quiet (hkept.trans (List.append_nil _).symm) (by simp) fun hs => ?_
    obtain ⟨d, path, hreads, -⟩ := id hs
    rw [Covers, hkept]
    exact h.covered hreads (known d path hreads) hs
  | @blank _ d path quiet parsed reads stale empty =>
    rw [hfresh, List.append_nil]
    refine h.quiet quiet parsed (fun u hu => ?_) fun _ => ?_
    · obtain rfl := List.mem_singleton.mp hu
      refine ⟨rfl, h.stale (h.queued u (by simp)).1 reads stale, fun ⟨d', path', m, hreads', hm, hnodes⟩ => ?_⟩
      obtain ⟨rfl, rfl⟩ := reads.unique hreads'
      exact hnodes (empty m hm)
    · exact ⟨uri, parsed ▸ List.mem_append_right _ (List.mem_singleton.mpr rfl), id, d, path, d, path, reads,
        reads, rfl⟩
  | @entered p₁ d path m found ids quiet parsed reads stale map nodes _ mem_found =>
    exact h.enter hitem quiet parsed reads stale map nodes mem_found rfl rfl rfl rfl
      (CodeGraph.entry?_update p₁.graph _ _ m.imports m.exports m.nodes.values)

/-- A whole walk from a document. -/
theorem walks {done : Item} (h : Spread c i a p [a]) (hwalks : Walks c p (.start a) [a] (p', .ok done)) :
    Spread c i a p' [] := by
  have hend := hwalks.invariant (I := fun p item queue => Spread c i a p queue ∧
    ∀ u ∈ item.frontier, u ∈ p.visited ∨ u ∈ queue) ?_ ?_ ⟨h, fun _ hu => .inr hu⟩
  · exact hend.1
  · intro p item u queue hseen ⟨hspread, hwaits⟩
    refine ⟨hspread.skip hseen, fun w hw => ?_⟩
    rcases hwaits w hw with hvisited | hqueue
    · exact .inl hvisited
    · rcases List.mem_cons.mp hqueue with rfl | hqueue
      · exact .inl hseen
      · exact .inr hqueue
  · intro p item u queue p₁ v _ hvisit ⟨hspread, hwaits⟩
    refine ⟨hspread.visit hwaits hvisit, fun w hw => ?_⟩
    have hvisited : p₁.visited = p.visited ++ [u] := visited_of_visit hvisit
    rw [hvisited, List.mem_append, List.mem_append, List.mem_singleton]
    rcases List.mem_append.mp hw with hw | hw
    · rcases hwaits w hw with hseen | hqueue
      · exact .inl (.inl hseen)
      · rcases List.mem_cons.mp hqueue with rfl | hqueue
        · exact .inl (.inr rfl)
        · exact .inr (.inl hqueue)
    · exact .inr (.inr hw)

theorem refersTo_of_spreads {v : String} (h : c.Spreads i a v) : v = a ∨ ∃ u, c.RefersTo u v := by
  cases h.2 with
  | refl => exact .inl rfl
  | tail _ hstep => exact .inr ⟨_, hstep.2.1⟩

theorem isOfFile_of_spreads (ha : Uri.IsOfFile a) {v : String} (h : c.Spreads i a v) : Uri.IsOfFile v := by
  rcases refersTo_of_spreads h with rfl | ⟨_, hrefers⟩
  · exact ha
  · exact Context.isOfFile_of_refersTo hrefers

/-- What the document itself or one of its imports is, the walk has covered. -/
theorem covers_of_leadsTo (h : Spread c i a p []) (hvisited : a ∈ p.visited) (hstale : c.Stale i.graph a)
    {v : String} (hv : v = a ∨ c.LeadsTo i a v) : p.Covers c v := by
  have hcovers := h.visited a hvisited hstale
  rcases hv with rfl | hleads
  · exact hcovers
  · obtain ⟨w, hw, -⟩ := hcovers
    have ha : a ∈ p.parsed := by
      rcases h.first with hfirst | ⟨hempty, -⟩
      · exact List.mem_of_head? hfirst
      · rw [hempty] at hw
        cases hw
    rcases h.pending a ha v hleads with hseen | hnone | hthere
    · exact h.visited v hseen hleads.2.2.2
    · cases hnone
    · exact hthere

/-- Whatever the walk spreads to is covered, by a document at the same path. -/
theorem covers_of_spreads (h : Spread c i a p []) (ha : Uri.IsOfFile a) (hdirect : c.IsDirect a)
    (hvisited : a ∈ p.visited) {v : String} (hspreads : c.Spreads i a v) : p.Covers c v := by
  obtain ⟨hstale, hway⟩ := hspreads
  induction hway with
  | refl => exact h.visited a hvisited hstale
  | @tail u v hway hstep ih =>
    -- the parsed document at the path of `u` leads on as `u` does
    obtain ⟨w, hw, -, d, path, d', path', hreads, hreads', hfile⟩ := ih
    obtain ⟨hwfile, hwspreads⟩ := h.parsed w hw
    have hu : c.Spreads i a u := ⟨hstale, hway⟩
    have hsame := hreads.path_eq_of_relative hwfile (isOfFile_of_spreads ha hu) hreads'
      (hdirect w (refersTo_of_spreads hwspreads) d path hreads)
      (hdirect u (refersTo_of_spreads hu) d' path' hreads') hfile
    subst hsame
    rcases h.pending w hw v (hstep.of_same hreads' hreads) with hseen | hnone | hcovered
    · exact h.visited v hseen hstep.2.2.2
    · cases hnone
    · exact hcovered

/-- The files whose text the table has only since the walk. -/
theorem followsImports (h : Spread c i a p []) (ha : Uri.IsOfFile a) (hvisited : a ∈ p.visited)
    (huri : Uri.IsOfFile uri) (hreads : c.Reads uri d path)
    (hstale : ¬i.graph.Carries (c.relative path) (Digest.ofText d.text)) :
    c.FollowsImports i a uri (p.graph.Carries (c.relative path) (Digest.ofText d.text)) := by
  have hcarries : ∀ {v}, p.Covers c v → c.HasNodes v → c.SameFile v uri →
      p.graph.Carries (c.relative path) (Digest.ofText d.text) := by
    intro v hcovers hnodes ⟨dv, pathv, d', path', hvreads, hreads', hfile⟩
    obtain ⟨rfl, rfl⟩ := hreads.unique hreads'
    exact h.carries_of_covers huri hreads hvreads hfile hnodes hcovers
  refine ⟨fun hnow => ?_, fun hs v hv => ?_, fun hdirect hs v hway => ?_⟩
  · have htouched : p.graph.entry? (c.relative path) ≠ i.graph.entry? (c.relative path) := by
      intro hsame
      apply hstale
      rw [CodeGraph.Carries, ← hsame]
      exact hnow
    obtain ⟨v, hv, hnodes, d', path', hreads', hfile⟩ := h.touched _ htouched
    obtain ⟨hs, hway⟩ := (h.parsed v hv).2
    exact ⟨hs, v, hway, hnodes, d', path', d, path, hreads', hreads, hfile⟩
  · exact hcarries (h.covers_of_leadsTo hvisited hs hv)
  · exact hcarries (h.covers_of_spreads ha hdirect hvisited ⟨hs, hway⟩)

end Spread

end Pass

namespace Index

/-- How far a pass over one document goes, from any index, if its visits succeed: to the files whose text
the table does not have, along the present imports. -/
theorem followsImports_process {c : Context} {i : Index} {full : Bool} {file : Path} {a : String}
    (ha : Uri.ofPath c.workspace.cwd file = .ok a) (hsteady : Pass.Steady c full (.start i) [a])
    {file' : Path} {b : String} (hb : Uri.ofPath c.workspace.cwd file' = .ok b) {d : Document} {path : Path}
    (hreads : c.Reads b d path) (hstale : ¬i.graph.Carries (c.relative path) (Digest.ofText d.text)) :
    c.FollowsImports i a b
      ((i.process c [a] full).1.graph.Carries (c.relative path) (Digest.ofText d.text)) := by
  have hfile : Uri.IsOfFile a := ⟨_, Path.resolved_resolve _ _, Uri.eq_of_ofPath ha⟩
  have hfile' : Uri.IsOfFile b := ⟨_, Path.resolved_resolve _ _, Uri.eq_of_ofPath hb⟩
  rw [graph_process_singleton]
  obtain ⟨p₁, r₁, reports, hworked, hattempt⟩ := Pass.worked_of_attempt
    (Prod.mk.eta (p := Pass.attempt c full (.start i) a)).symm
  rw [hattempt]
  change c.FollowsImports i a b (p₁.graph.Carries _ _)
  have hwalked : ∀ {p done}, Pass.Walks c (.start i) (.start a) [a] (p, .ok done) →
      c.FollowsImports i a b (p.graph.Carries (c.relative path) (Digest.ofText d.text)) := by
    intro p done hwalks
    exact ((Pass.Spread.start hfile).walks hwalks).followsImports hfile hwalks.head_visited hfile' hreads hstale
  cases hworked with
  | seen hseen => cases hseen
  | nowhere _ hfaulty =>
    refine Context.followsImports_of_not_stale (fun ⟨d', path', hreads', _⟩ => ?_) hstale
    obtain ⟨e, he⟩ := hfaulty path' hreads'.path
    cases he.symm.trans (Context.present_of_reads hreads')
  | gone hpath habsent hdrop =>
    refine Context.followsImports_of_not_stale (fun ⟨d', path', hreads', _⟩ => ?_) ?_
    · cases hpath.symm.trans hreads'.path
      cases habsent.symm.trans (Context.present_of_reads hreads')
    · have hdropped := Pass.dropped_of_drop hdrop
      rw [hdropped.graph, CodeGraph.Carries]
      change ¬((i.graph.remove _).files.find? _).map FileEntry.sha = _
      rw [CodeGraph.find?_files_remove]
      split
      · simp
      · exact hstale
  | broken walks =>
    have hok := hsteady.1
    rw [(Pass.walks_walk c (.start i) a).unique walks] at hok
    cases hok
  | blank walks => exact hwalked walks
  | finished walks _ hfinish =>
    rw [(Pass.alike_finish hfinish).graph]
    exact hwalked walks

/-- `b.py` is indexed and then edited, and a new `a.py` imports it: a pass over `a.py` brings `b.py` up to
date. -/
theorem carries_process_import :
    let a := "file:///tmp/w/ws/a.py"
    let b := "file:///tmp/w/ws/b.py"
    let before := sampleContext [("b.py", "x\n")] ""
    let after := sampleContext [("a.py", "import b\n"), ("b.py", "y\n")] ""
    let i := ((make before.base (.empty "graph.json" 4) "b.py" []).process before [b] false).1
    ¬i.graph.Carries "b.py" (Digest.ofText "y\n") ∧
      (i.process after [a] false).1.graph.Carries "b.py" (Digest.ofText "y\n") ∧ after.Stale i.graph a ∧
      ∃ v, Relation.ReflTransGen (after.LeadsTo i) a v ∧ after.HasNodes v ∧ after.SameFile v b := by
  intro a b before after i
  have huris : Uri.ofPath after.workspace.cwd ⟨.root, ["tmp", "w", "ws", "a.py"]⟩ = .ok a ∧
      Uri.ofPath after.workspace.cwd ⟨.root, ["tmp", "w", "ws", "b.py"]⟩ = .ok b := by
    decide +kernel
  have hreads : after.Reads b ⟨b, "y\n"⟩ ⟨.root, ["tmp", "w", "ws", "b.py"]⟩ :=
    ⟨by decide +kernel, by decide +kernel⟩
  have hrel : after.relative ⟨.root, ["tmp", "w", "ws", "b.py"]⟩ = "b.py" := by decide +kernel
  -- the digests are computed once, for all three facts
  have hpass : Pass.Steady after false (.start i) [a] ∧ ¬i.graph.Carries "b.py" (Digest.ofText "y\n") ∧
      (i.process after [a] false).1.graph.Carries "b.py" (Digest.ofText "y\n") := by decide +kernel
  obtain ⟨hsteady, hbefore, hafter⟩ := hpass
  clear_value after i
  refine ⟨hbefore, hafter, ?_⟩
  rw [← hrel] at hbefore hafter
  exact (followsImports_process huris.1 hsteady huris.2 hreads hbefore).only hafter

/-- The importing file is as it was, and the imported one is edited: a pass over the first leaves the
second as it is. -/
theorem not_carries_of_current :
    let a := "file:///tmp/w/ws/a.py"
    let b := "file:///tmp/w/ws/b.py"
    let before := sampleContext [("a.py", "import b\n"), ("b.py", "x = 1\n")] ""
    let after := sampleContext [("a.py", "import b\n"), ("b.py", "x = 2\n")] ""
    let i := ((make before.base (.empty "graph.json" 256) "b.py" []).process before [a] false).1
    (∃ s ∈ i.graph.imports.find? a, b ∈ s) ∧
      after.workspace.read b = .ok (.text ⟨b, "x = 2\n"⟩) ∧
      ((CodeMap.ofDocument after.backend after.workspace ⟨b, "x = 2\n"⟩).toOption.map
        fun m => (Pass.ownNodes b m).map (·.id)) = some [b] ∧
      after.verdict i.filter "b.py" = .ok true ∧
      ¬i.graph.Carries "b.py" (Digest.ofText "x = 2\n") ∧ Pass.Clean after false (.start i) [a] ∧
      ¬(i.process after [a] false).1.graph.Carries "b.py" (Digest.ofText "x = 2\n") := by
  decide +kernel

end Index

end OutlineIndex
