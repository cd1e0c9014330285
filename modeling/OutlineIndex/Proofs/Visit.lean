import OutlineIndex.Index.Visit
import OutlineIndex.Proofs.CodeMap

namespace OutlineIndex

namespace FileFilter

/-- Whether a path passes, without the filter's memory. -/
def verdict (f : FileFilter) (t : FileTree) (root : List String) (path : String) : Except Error Bool :=
  (f.accepts t root path).map (·.1)

/-- A filter that remembers its answer gives the same answers. -/
theorem verdict_of_accepts {f f' : FileFilter} {t : FileTree} {root : List String} {path : String}
    {b : Bool} (h : f.accepts t root path = .ok (b, f')) (path' : String) :
    f'.verdict t root path' = f.verdict t root path' := by
  unfold verdict accepts at *
  cases hc : f.cache with
  | some s =>
    rw [hc] at h
    cases h
    rfl
  | none =>
    rw [hc] at h
    obtain ⟨found, hfound, h⟩ := Results.bind_eq_ok.mp h
    cases h
    dsimp only at hfound ⊢
    rw [hfound]
    rfl

end FileFilter

namespace Context

theorem resolved_base (c : Context) : c.base.Resolved := Path.resolved_resolve _ _

/-- Whether the index takes in a file. -/
def verdict (c : Context) (f : FileFilter) (rel : String) : Except FileFilter.Error Bool :=
  f.verdict c.workspace.files c.base.parts rel

/-- The document at a URI can be read, and has this text and path. -/
structure Reads (c : Context) (uri : String) (d : Document) (path : Path) : Prop where
  text : c.workspace.read uri = .ok (.text d)
  path : Uri.toPath uri = .ok path

theorem Reads.uri_eq {c : Context} {uri : String} {d : Document} {path : Path}
    (h : c.Reads uri d path) : d.uri = uri := by
  obtain ⟨_, _, _, _, _, rfl⟩ := Workspace.read_eq_text h.text
  rfl

theorem Reads.unique {c : Context} {uri : String} {d d' : Document} {path path' : Path}
    (h : c.Reads uri d path) (h' : c.Reads uri d' path') : d = d' ∧ path = path' := by
  have ht := h.text.symm.trans h'.text
  have hp := h.path.symm.trans h'.path
  cases ht
  cases hp
  exact ⟨rfl, rfl⟩

theorem exists_reads {c : Context} {uri : String} {d : Document}
    (h : c.workspace.read uri = .ok (.text d)) : ∃ path, c.Reads uri d path := by
  obtain ⟨path, _, hpath, _⟩ := Workspace.read_eq_text h
  exact ⟨path, h, hpath⟩

/-- Documents at the same place have the same text. -/
theorem Reads.text_eq {c : Context} {u u' : String} {d d' : Document} {path path' : Path}
    (h : c.Reads u d path) (h' : c.Reads u' d' path')
    (e : Path.resolve c.workspace.cwd path = Path.resolve c.workspace.cwd path') : d.text = d'.text := by
  obtain ⟨q, bytes, hq, -, hbytes, rfl⟩ := Workspace.read_eq_text h.text
  obtain ⟨q', bytes', hq', -, hbytes', rfl⟩ := Workspace.read_eq_text h'.text
  cases h.path.symm.trans hq
  cases h'.path.symm.trans hq'
  have hentry := Workspace.entry?_of_status hbytes
  rw [e, Workspace.entry?_of_status hbytes'] at hentry
  cases hentry
  rfl

/-- The path that a file's URI leads to is absolute, even if it is another path. -/
theorem isAbsolute_of_toPath {q path : Path} (hq : q.Resolved)
    (h : Uri.toPath (Uri.ofResolved q) = .ok path) : path.isAbsolute = true := by
  rw [Uri.toPath_ofResolved hq.anchor, hq.eq, Path.decode_chars_root] at h
  obtain rfl := Except.ok.inj h
  rw [Path.ofString, Path.isAbsolute, String.toList_ofList]
  generalize Percent.decode _ = s
  simp only [bne_iff_ne, ne_eq]
  unfold Path.anchorOf
  split <;> simp_all

/-- Its components are proper ones. -/
theorem plain_of_toPath {q path : Path} (hq : q.Resolved) (h : Uri.toPath (Uri.ofResolved q) = .ok path)
    (cwd : Path) : Path.Plain (Path.resolve cwd path).parts := by
  refine Path.plain_resolve ?_ (.inl (isAbsolute_of_toPath hq h))
  rw [Uri.toPath_ofResolved hq.anchor] at h
  obtain rfl := Except.ok.inj h
  exact Path.plain_ofString _

/-- Documents with the same relative path have the same text. -/
theorem Reads.text_eq_of_relative {c : Context} {q q' : Path} (hq : q.Resolved) (hq' : q'.Resolved)
    {d d' : Document} {path path' : Path} (h : c.Reads (Uri.ofResolved q) d path)
    (h' : c.Reads (Uri.ofResolved q') d' path') (e : c.relative path = c.relative path') :
    d.text = d'.text :=
  h.text_eq h' (Uri.resolve_eq_of_relativePath_eq c.resolved_base (plain_of_toPath hq h.path _)
    (plain_of_toPath hq' h'.path _) e)

end Context

namespace Pass

/-- Whether the text with a digest has been entered under a path before, or in this pass. -/
def Known (p : Pass) (rel sha : String) : Prop :=
  ∃ e, p.graph.entry? rel = some e ∧ (e.sha = sha ∨ p.digests.find? rel = some sha)

theorem isCurrent_iff {p : Pass} {rel sha : String} {d : Document} :
    p.isCurrent ⟨p.graph.entry? rel, rel, sha, d⟩ = true ↔ p.Known rel sha := by
  unfold isCurrent Known
  cases h : p.graph.entry? rel with
  | none => simp
  | some e => simp

/-- Nothing but the filter's memory, the listener and the reports differs. -/
structure Quiet (c : Context) (p p' : Pass) : Prop where
  graph : p'.graph = p.graph
  store : p'.store = p.store
  digests : p'.digests = p.digests
  visited : p'.visited = p.visited
  calls : p'.calls = p.calls
  filter : ∀ rel, c.verdict p'.filter rel = c.verdict p.filter rel

theorem Quiet.refl (c : Context) (p : Pass) : Quiet c p p :=
  ⟨rfl, rfl, rfl, rfl, rfl, fun _ => rfl⟩

theorem Quiet.trans {c : Context} {p q r : Pass} (h : Quiet c p q) (h' : Quiet c q r) : Quiet c p r :=
  ⟨h'.graph.trans h.graph, h'.store.trans h.store, h'.digests.trans h.digests,
    h'.visited.trans h.visited, h'.calls.trans h.calls, fun rel => (h'.filter rel).trans (h.filter rel)⟩

theorem Quiet.known {c : Context} {p p' : Pass} (h : Quiet c p p') {rel sha : String} :
    p'.Known rel sha ↔ p.Known rel sha := by
  rw [Known, Known, h.graph, h.digests]

theorem quiet_report (c : Context) (p : Pass) (rs : List Report) : Quiet c p (p.report rs) :=
  ⟨rfl, rfl, rfl, rfl, rfl, fun _ => rfl⟩

theorem quiet_notify (c : Context) (l : Listener) (p : Pass) (path : String) :
    Quiet c p (notify l p path) ∧ (notify l p path).parsed = p.parsed := by
  cases l <;> exact ⟨⟨rfl, rfl, rfl, rfl, rfl, fun _ => rfl⟩, rfl⟩

/-- The state of a file that can be read. -/
theorem fileState_of_reads {c : Context} {g : CodeGraph} {uri : String} {d : Document} {path : Path}
    (h : c.Reads uri d path) : (fileState c g uri).result =
      .ok (some ⟨g.entry? (c.relative path), c.relative path, Digest.ofText d.text, d⟩) := by
  unfold fileState
  rw [h.text, h.path]
  rfl

theorem reads_of_fileState {c : Context} {g : CodeGraph} {uri : String} {s : FileState}
    (h : (fileState c g uri).result = .ok (some s)) : ∃ d path, c.Reads uri d path ∧
      s = ⟨g.entry? (c.relative path), c.relative path, Digest.ofText d.text, d⟩ := by
  obtain ⟨r, hr, hs⟩ := Traced.result_bind_eq_ok.mp h
  have hread := Results.mapError_eq_ok.mp hr
  cases r with
  | absent => cases hs
  | unreadable path e => cases hs
  | text d =>
    obtain ⟨path, hreads⟩ := Context.exists_reads hread
    rw [fileState_of_reads hreads] at h
    cases h
    exact ⟨d, path, hreads, rfl⟩

/-- A referenced document that a pass goes on to: it can be read, passes the filter, and its text
has not been entered. -/
def Wants (c : Context) (p : Pass) (uri : String) : Prop := ∃ d path, c.Reads uri d path ∧
  c.verdict p.filter (c.relative path) = .ok true ∧ ¬p.Known (c.relative path) (Digest.ofText d.text)

theorem Quiet.wants {c : Context} {p p' : Pass} (h : Quiet c p p') {uri : String} :
    Wants c p' uri ↔ Wants c p uri := by
  unfold Wants
  refine exists_congr fun d => exists_congr fun path => ?_
  rw [h.filter, h.known]

theorem quiet_wants (c : Context) (p : Pass) (uri : String) :
    Quiet c p (wants c p uri).1 ∧ (wants c p uri).1.parsed = p.parsed := by
  have hquiet := quiet_report c p (fileState c p.graph uri).reports
  unfold wants
  dsimp only
  split
  · exact ⟨hquiet, rfl⟩
  · exact ⟨hquiet, rfl⟩
  · split
    · exact ⟨hquiet, rfl⟩
    · rename_i s _ _ accepted filter haccepts
      exact ⟨⟨rfl, rfl, rfl, rfl, rfl, FileFilter.verdict_of_accepts haccepts⟩, rfl⟩

theorem wants_eq_ok {c : Context} {p : Pass} {uri : String} {b : Bool}
    (h : (wants c p uri).2 = .ok b) : b = true ↔ Wants c p uri := by
  unfold wants at h
  dsimp only at h
  cases hs : (fileState c p.graph uri).result with
  | error e =>
    rw [hs] at h
    cases h
  | ok o =>
    rw [hs] at h
    cases o with
    | none =>
      cases h
      refine ⟨by simp, ?_⟩
      rintro ⟨d, path, hreads, -⟩
      rw [fileState_of_reads hreads] at hs
      cases hs
    | some s =>
      obtain ⟨d, path, hreads, rfl⟩ := reads_of_fileState hs
      dsimp only at h
      split at h
      · cases h
      · rename_i accepted filter haccepts
        have haccepts : p.filter.accepts c.workspace.files c.base.parts (c.relative path) =
            .ok (accepted, filter) := haccepts
        have hverdict : c.verdict p.filter (c.relative path) = .ok accepted := by
          rw [Context.verdict, FileFilter.verdict, haccepts]
          rfl
        have hcurrent : p.isCurrent ⟨p.graph.entry? (c.relative path), c.relative path,
            Digest.ofText d.text, d⟩ = true ↔ p.Known (c.relative path) (Digest.ofText d.text) := isCurrent_iff
        have hb : b = (accepted && !p.isCurrent ⟨p.graph.entry? (c.relative path), c.relative path,
            Digest.ofText d.text, d⟩) := (Except.ok.inj h).symm
        rw [hb, Bool.and_eq_true, Bool.not_eq_true', ← Bool.not_eq_true, hcurrent]
        constructor
        · rintro ⟨rfl, hnot⟩
          exact ⟨d, path, hreads, hverdict, hnot⟩
        · rintro ⟨d', path', hreads', hv, hk⟩
          obtain ⟨rfl, rfl⟩ := hreads.unique hreads'
          rw [hverdict] at hv
          exact ⟨Except.ok.inj hv, hk⟩

theorem andThen_cases {α β : Type} (step : Pass × Except Failure α)
    (next : Pass → α → Pass × Except Failure β) :
    (∃ e, step.2 = .error e ∧ andThen step next = (step.1, .error e)) ∨
      ∃ a, step.2 = .ok a ∧ andThen step next = next step.1 a := by
  obtain ⟨p, r⟩ := step
  cases r with
  | error e => exact .inl ⟨e, rfl, rfl⟩
  | ok a => exact .inr ⟨a, rfl, rfl⟩

theorem quiet_wanted (c : Context) (p : Pass) (uris : List String) :
    Quiet c p (wanted c p uris).1 ∧ (wanted c p uris).1.parsed = p.parsed := by
  induction uris generalizing p with
  | nil => exact ⟨Quiet.refl c p, rfl⟩
  | cons uri rest ih =>
    obtain ⟨hquiet, hparsed⟩ := quiet_wants c p uri
    obtain ⟨hquiet', hparsed'⟩ := ih (wants c p uri).1
    rw [wanted]
    rcases andThen_cases (wants c p uri) _ with ⟨e, -, heq⟩ | ⟨w, -, heq⟩ <;> rw [heq]
    · exact ⟨hquiet, hparsed⟩
    · rcases andThen_cases (wanted c (wants c p uri).1 rest) _ with ⟨e, -, heq⟩ | ⟨us, -, heq⟩ <;>
        rw [heq] <;> exact ⟨hquiet.trans hquiet', hparsed'.trans hparsed⟩

theorem wanted_eq_ok {c : Context} {p : Pass} {uris found : List String}
    (h : (wanted c p uris).2 = .ok found) :
    found.Sublist uris ∧ ∀ u, u ∈ found ↔ u ∈ uris ∧ Wants c p u := by
  induction uris generalizing p found with
  | nil =>
    cases h
    exact ⟨.refl _, by simp⟩
  | cons uri rest ih =>
    have hquiet := (quiet_wants c p uri).1
    rw [wanted] at h
    rcases andThen_cases (wants c p uri) _ with ⟨e, -, heq⟩ | ⟨w, hw, heq⟩ <;> rw [heq] at h
    · cases h
    rcases andThen_cases (wanted c (wants c p uri).1 rest) _ with ⟨e, -, heq⟩ | ⟨us, hus, heq⟩ <;>
      rw [heq] at h
    · cases h
    obtain ⟨hsub, hmem⟩ := ih hus
    have hiff := wants_eq_ok hw
    obtain rfl := Except.ok.inj h
    refine ⟨?_, ?_⟩
    · split
      · exact hsub.cons_cons _
      · exact hsub.cons _
    · intro u
      have hu := hmem u
      rw [hquiet.wants] at hu
      by_cases hb : w = true
      · have hthis := hiff.mp hb
        rw [if_pos hb, List.mem_cons, List.mem_cons, hu]
        constructor
        · rintro (rfl | ⟨hr, hw⟩)
          · exact ⟨.inl rfl, hthis⟩
          · exact ⟨.inr hr, hw⟩
        · rintro ⟨rfl | hr, hw⟩
          · exact .inl rfl
          · exact .inr ⟨hr, hw⟩
      · rw [if_neg hb, hu, List.mem_cons]
        constructor
        · rintro ⟨hr, hw⟩
          exact ⟨.inr hr, hw⟩
        · rintro ⟨rfl | hr, hu⟩
          · exact absurd (hiff.mpr hu) hb
          · exact ⟨hr, hu⟩

/-- It can be told whether a referenced document is to be visited. -/
structure Answers (c : Context) (f : FileFilter) (uri : String) : Prop where
  read : ∃ r, c.workspace.read uri = .ok r
  verdict : ∀ d path, c.Reads uri d path → ∃ b, c.verdict f (c.relative path) = .ok b

theorem Answers.congr {c : Context} {f f' : FileFilter} {uri : String} (h : Answers c f uri)
    (hfilter : ∀ rel, c.verdict f' rel = c.verdict f rel) : Answers c f' uri := by
  refine ⟨h.read, fun d path hreads => ?_⟩
  rw [hfilter]
  exact h.verdict d path hreads

theorem fileState_of_unread {c : Context} {g : CodeGraph} {uri : String} {r : Workspace.Reading}
    (h : c.workspace.read uri = .ok r) (hr : ∀ d, r ≠ .text d) :
    (fileState c g uri).result = .ok none := by
  unfold fileState
  rw [h]
  cases r with
  | text d => exact absurd rfl (hr d)
  | absent => rfl
  | unreadable => rfl

theorem wants_of_answers {c : Context} {p : Pass} {uri : String} (h : Answers c p.filter uri) :
    ∃ b, (wants c p uri).2 = .ok b := by
  obtain ⟨r, hr⟩ := h.read
  by_cases htext : ∃ d, r = .text d
  · obtain ⟨d, rfl⟩ := htext
    obtain ⟨path, hreads⟩ := Context.exists_reads hr
    obtain ⟨b, hb⟩ := h.verdict d path hreads
    obtain ⟨⟨accepted, filter⟩, haccepts⟩ :
        ∃ x, p.filter.accepts c.workspace.files c.base.parts (c.relative path) = .ok x := by
      rw [Context.verdict, FileFilter.verdict] at hb
      cases hx : p.filter.accepts c.workspace.files c.base.parts (c.relative path) with
      | error e =>
        rw [hx] at hb
        cases hb
      | ok x => exact ⟨x, rfl⟩
    have haccepts' : (p.report (fileState c p.graph uri).reports).filter.accepts c.workspace.files
        c.base.parts (c.relative path) = .ok (accepted, filter) := haccepts
    unfold wants
    simp only [fileState_of_reads hreads]
    rw [haccepts']
    exact ⟨_, rfl⟩
  · have hnone : (fileState c p.graph uri).result = .ok none :=
      fileState_of_unread hr fun d hd => htext ⟨d, hd⟩
    unfold wants
    simp only [hnone]
    exact ⟨false, rfl⟩

theorem wanted_of_answers {c : Context} {p : Pass} {uris : List String}
    (h : ∀ u ∈ uris, Answers c p.filter u) : ∃ found, (wanted c p uris).2 = .ok found := by
  induction uris generalizing p with
  | nil => exact ⟨[], rfl⟩
  | cons uri rest ih =>
    obtain ⟨b, hb⟩ := wants_of_answers (h uri (by simp))
    have hquiet := (quiet_wants c p uri).1
    obtain ⟨found, hfound⟩ := ih (p := (wants c p uri).1) fun u hu =>
      (h u (List.mem_cons_of_mem _ hu)).congr hquiet.filter
    rw [wanted]
    rcases andThen_cases (wants c p uri) _ with ⟨e, he, -⟩ | ⟨w, -, heq⟩
    · cases hb.symm.trans he
    · rw [heq]
      rcases andThen_cases (wanted c (wants c p uri).1 rest) _ with ⟨e, he, -⟩ | ⟨us, -, heq'⟩
      · cases hfound.symm.trans he
      · rw [heq']
        exact ⟨_, rfl⟩

theorem answers_of_wants {c : Context} {p : Pass} {uri : String} {b : Bool}
    (h : (wants c p uri).2 = .ok b) : Answers c p.filter uri := by
  unfold wants at h
  dsimp only at h
  refine ⟨?_, fun d path hreads => ?_⟩
  · cases hr : c.workspace.read uri with
    | error e =>
      have hstate : (fileState c p.graph uri).result = .error (.uri e) := by
        unfold fileState
        rw [hr]
        rfl
      rw [hstate] at h
      cases h
    | ok r => exact ⟨r, rfl⟩
  · rw [fileState_of_reads hreads] at h
    dsimp only at h
    split at h
    · cases h
    · rename_i accepted filter haccepts
      have haccepts : p.filter.accepts c.workspace.files c.base.parts (c.relative path) =
          .ok (accepted, filter) := haccepts
      refine ⟨accepted, ?_⟩
      rw [Context.verdict, FileFilter.verdict, haccepts]
      rfl

theorem answers_of_wanted {c : Context} {p : Pass} {uris found : List String}
    (h : (wanted c p uris).2 = .ok found) : ∀ u ∈ uris, Answers c p.filter u := by
  induction uris generalizing p found with
  | nil => simp
  | cons uri rest ih =>
    have hquiet := (quiet_wants c p uri).1
    rw [wanted] at h
    rcases andThen_cases (wants c p uri) _ with ⟨e, -, heq⟩ | ⟨w, hw, heq⟩ <;> rw [heq] at h
    · cases h
    rcases andThen_cases (wanted c (wants c p uri).1 rest) _ with ⟨e, -, heq⟩ | ⟨us, hus, heq⟩ <;>
      rw [heq] at h
    · cases h
    intro u hu
    rcases List.mem_cons.mp hu with rfl | hu
    · exact answers_of_wants hw
    · exact (ih hus u hu).congr fun rel => (hquiet.filter rel).symm

/-- Nothing stands in the way of entering a document: it has nodes, their identifiers have relative
forms, and it can be told which of the documents it refers to are to be visited. -/
def Enterable (c : Context) (f : FileFilter) (uri : String) : Prop := ∃ d path m ids,
  c.Reads uri d path ∧ CodeMap.ofDocument c.backend c.workspace d = .ok m ∧ m.nodes.entries ≠ [] ∧
    (∀ u ∈ foreignUris uri m, Answers c f u) ∧
    ((ownNodes uri m).mapM fun n => c.relativeId n.id) = .ok ids

theorem Enterable.congr {c : Context} {f f' : FileFilter} {uri : String} (h : Enterable c f uri)
    (hfilter : ∀ rel, c.verdict f' rel = c.verdict f rel) : Enterable c f' uri := by
  obtain ⟨d, path, m, ids, hreads, hm, hnodes, hanswers, hids⟩ := h
  exact ⟨d, path, m, ids, hreads, hm, hnodes, fun u hu => (hanswers u hu).congr hfilter, hids⟩

/-- There is nothing to enter of a document: it is no program, or has no nodes. -/
def Blank (c : Context) (uri : String) : Prop := ∃ d path, c.Reads uri d path ∧
  ((∃ e, CodeMap.ofDocument c.backend c.workspace d = .error e ∧ (Failure.source e).isParseError = true) ∨
    ∃ m, CodeMap.ofDocument c.backend c.workspace d = .ok m ∧ m.nodes.entries = [])

/-- What a visit can come to. It fails only where the document is stale and cannot be entered, or
where its URI leads nowhere. -/
inductive Outcome (c : Context) (p : Pass) (uri : String) : Pass → Except Failure Visit → Prop where
  | idle {p' : Pass} (quiet : Quiet c p p') (parsed : p'.parsed = p.parsed)
      (known : ∀ d path, c.Reads uri d path → p.Known (c.relative path) (Digest.ofText d.text)) :
      Outcome c p uri p' (.ok ⟨[], []⟩)
  | blank {p' : Pass} {d : Document} {path : Path} (quiet : Quiet c p p')
      (parsed : p'.parsed = p.parsed ++ [uri]) (reads : c.Reads uri d path)
      (stale : ¬p.Known (c.relative path) (Digest.ofText d.text))
      (empty : ∀ m, CodeMap.ofDocument c.backend c.workspace d = .ok m → m.nodes.entries = [])
      (blank : Blank c uri) : Outcome c p uri p' (.ok ⟨[], []⟩)
  | entered {p' : Pass} {d : Document} {path : Path} {m : CodeMap} {found ids : List String}
      (quiet : Quiet c p p') (parsed : p'.parsed = p.parsed ++ [uri]) (reads : c.Reads uri d path)
      (stale : ¬p.Known (c.relative path) (Digest.ofText d.text))
      (map : CodeMap.ofDocument c.backend c.workspace d = .ok m) (nodes : m.nodes.entries ≠ [])
      (found_sublist : found.Sublist (foreignUris uri m))
      (mem_found : ∀ u, u ∈ found ↔ u ∈ foreignUris uri m ∧ Wants c p u)
      (ids_eq : ((ownNodes uri m).mapM fun n => c.relativeId n.id) = .ok ids)
      (answers : ∀ u ∈ foreignUris uri m, Answers c p.filter u) :
      Outcome c p uri (enter c p' ⟨p.graph.entry? (c.relative path), c.relative path,
        Digest.ofText d.text, d⟩ (.ofList ids) m) (.ok ⟨found, ownNodes uri m⟩)
  | failed {p' : Pass} {e : Failure} (quiet : Quiet c p p')
      (parsed : p'.parsed = p.parsed ∨ p'.parsed = p.parsed ++ [uri])
      (barred : ∀ d path, c.Reads uri d path →
        ¬p.Known (c.relative path) (Digest.ofText d.text) ∧ ¬Enterable c p.filter uri)
      (solid : ¬Blank c uri)
      (cause : (∃ d path, c.Reads uri d path) ∨ ∃ e, c.workspace.read uri = .error e) :
      Outcome c p uri p' (.error e)

theorem outcome_refresh {c : Context} {p : Pass} {uri : String} {d : Document} {path : Path}
    (hreads : c.Reads uri d path) (hstale : ¬p.Known (c.relative path) (Digest.ofText d.text))
    {p₀ : Pass} (hquiet : Quiet c p p₀) (hparsed : p₀.parsed = p.parsed) {s : FileState}
    (hs : s = ⟨p.graph.entry? (c.relative path), c.relative path, Digest.ofText d.text, d⟩) :
    Outcome c p uri (refresh c p₀ uri s).1 (refresh c p₀ uri s).2 := by
  obtain ⟨hnotify, hsame⟩ := quiet_notify c c.listener p₀ s.path
  unfold refresh
  dsimp only
  generalize hp₁ : ({ notify c.listener p₀ s.path with
    parsed := (notify c.listener p₀ s.path).parsed ++ [uri] } : Pass) = p₁
  have hquiet₁ : Quiet c p p₁ := by
    subst hp₁
    exact hquiet.trans ⟨hnotify.graph, hnotify.store, hnotify.digests, hnotify.visited, hnotify.calls,
      hnotify.filter⟩
  have hparsed₁ : p₁.parsed = p.parsed ++ [uri] := by
    subst hp₁
    exact congrArg (· ++ [uri]) (hsame.trans hparsed)
  have hdocument : s.document = d := by rw [hs]
  -- whatever fails is a part of what it takes to enter the document
  have hfailed : ∀ {p' e}, Quiet c p p' → p'.parsed = p.parsed ++ [uri] → ¬Enterable c p.filter uri →
      ¬Blank c uri → Outcome c p uri p' (.error e) := by
    intro p' e hquiet' hparsed' hnot hsolid
    refine .failed hquiet' (.inr hparsed') (fun d' path' hreads' => ?_) hsolid (.inl ⟨d, path, hreads⟩)
    obtain ⟨rfl, rfl⟩ := hreads.unique hreads'
    exact ⟨hstale, hnot⟩
  have hsolid : ∀ m, CodeMap.ofDocument c.backend c.workspace d = .ok m → m.nodes.entries ≠ [] →
      ¬Blank c uri := by
    intro m hm hnodes ⟨d', path', hreads', hblank⟩
    obtain ⟨rfl, rfl⟩ := hreads.unique hreads'
    rcases hblank with ⟨e, he, _⟩ | ⟨m', hm', hempty⟩
    · cases hm.symm.trans he
    · cases hm.symm.trans hm'
      exact hnodes hempty
  rw [hdocument]
  cases hmap : CodeMap.ofDocument c.backend c.workspace d with
  | error e =>
    dsimp only
    split
    · rename_i hparse
      exact .blank (hquiet₁.trans (quiet_report c p₁ _)) hparsed₁ hreads hstale (by simp [hmap])
        ⟨d, path, hreads, .inl ⟨e, hmap, hparse⟩⟩
    · rename_i hparse
      apply hfailed hquiet₁ hparsed₁
      · intro ⟨d', path', m, ids, hreads', hm, _⟩
        obtain ⟨rfl, rfl⟩ := hreads.unique hreads'
        cases hmap.symm.trans hm
      · intro ⟨d', path', hreads', hblank⟩
        obtain ⟨rfl, rfl⟩ := hreads.unique hreads'
        rcases hblank with ⟨e', he', hparse'⟩ | ⟨m, hm, _⟩
        · cases hmap.symm.trans he'
          exact hparse hparse'
        · cases hmap.symm.trans hm
  | ok m =>
    dsimp only
    split
    · rename_i hempty
      have hnil : m.nodes.entries = [] := by simpa using hempty
      refine .blank hquiet₁ hparsed₁ hreads hstale (fun m' hm' => ?_) ⟨d, path, hreads, .inr ⟨m, hmap, hnil⟩⟩
      cases hmap.symm.trans hm'
      exact hnil
    · rename_i hnodes
      have hne : m.nodes.entries ≠ [] := by simpa using hnodes
      obtain ⟨hwanted, hkept⟩ := quiet_wanted c p₁ (foreignUris uri m)
      rcases andThen_cases (wanted c p₁ (foreignUris uri m)) _ with ⟨e, he, heq⟩ | ⟨found, hfound, heq⟩ <;>
        rw [heq]
      · refine hfailed (hquiet₁.trans hwanted) (hkept.trans hparsed₁) ?_ (hsolid m hmap hne)
        intro ⟨d', path', m', ids, hreads', hm, _, hanswers, _⟩
        obtain ⟨rfl, rfl⟩ := hreads.unique hreads'
        cases hmap.symm.trans hm
        obtain ⟨found, hfound⟩ := wanted_of_answers fun u hu => (hanswers u hu).congr hquiet₁.filter
        cases he.symm.trans hfound
      · obtain ⟨hsub, hmem⟩ := wanted_eq_ok hfound
        cases hids : (ownNodes uri m).mapM fun n => c.relativeId n.id with
        | error e =>
          refine hfailed (hquiet₁.trans hwanted) (hkept.trans hparsed₁) ?_ (hsolid m hmap hne)
          intro ⟨d', path', m', ids, hreads', hm, _, _, hids'⟩
          obtain ⟨rfl, rfl⟩ := hreads.unique hreads'
          cases hmap.symm.trans hm
          cases hids.symm.trans hids'
        | ok ids =>
          rw [hs]
          refine .entered (hquiet₁.trans hwanted) (hkept.trans hparsed₁) hreads hstale hmap
            hne hsub (fun u => ?_) hids fun u hu => ?_
          · rw [hmem u, hquiet₁.wants]
          · exact (answers_of_wanted hfound u hu).congr fun rel => (hquiet₁.filter rel).symm

theorem outcome_visit (c : Context) (p : Pass) (uri : String) :
    Outcome c p uri (visit c p uri).1 (visit c p uri).2 := by
  have hquiet := quiet_report c p (fileState c p.graph uri).reports
  have hnone : (fileState c p.graph uri).result = .ok none → ∀ d path, ¬c.Reads uri d path := by
    intro h d path hreads
    cases (fileState_of_reads hreads).symm.trans h
  unfold visit
  dsimp only
  split
  · rename_i h
    have hunread : ∀ d path, ¬c.Reads uri d path := by
      intro d path hreads
      cases (fileState_of_reads hreads).symm.trans h
    refine .failed hquiet (.inl rfl) (fun d path hreads => absurd hreads (hunread d path)) ?_ (.inr ?_)
    · intro ⟨d, path, hreads, _⟩
      exact hunread d path hreads
    · cases hread : c.workspace.read uri with
      | error e => exact ⟨e, rfl⟩
      | ok r =>
        have hnot : ∀ d, r ≠ .text d := by
          intro d hd
          subst hd
          obtain ⟨path, hreads⟩ := Context.exists_reads hread
          exact hunread d path hreads
        cases (fileState_of_unread hread hnot).symm.trans h
  · rename_i h
    exact .idle hquiet rfl fun d path hreads => absurd hreads (hnone h d path)
  · rename_i s h
    obtain ⟨d, path, hreads, hs⟩ := reads_of_fileState h
    have hcurrent : (p.report (fileState c p.graph uri).reports).isCurrent s = true ↔
        p.Known (c.relative path) (Digest.ofText d.text) := by
      rw [hs]
      exact isCurrent_iff
    split
    · rename_i hknown
      refine .idle hquiet rfl fun d' path' hreads' => ?_
      obtain ⟨rfl, rfl⟩ := hreads.unique hreads'
      exact hcurrent.mp hknown
    · rename_i hstale
      exact outcome_refresh hreads (fun h => hstale (hcurrent.mpr h)) hquiet rfl hs

theorem outcome_of_visit {c : Context} {p p' : Pass} {uri : String} {r : Except Failure Visit}
    (h : visit c p uri = (p', r)) : Outcome c p uri p' r := by
  have houtcome := outcome_visit c p uri
  rwa [h] at houtcome

/-- A visit succeeds where reading does, if the document is known, can be entered, or is blank. -/
theorem visit_isOk {c : Context} {p : Pass} {uri : String} {r : Workspace.Reading}
    (hread : c.workspace.read uri = .ok r)
    (h : ∀ d path, c.Reads uri d path → p.Known (c.relative path) (Digest.ofText d.text) ∨
      Enterable c p.filter uri ∨ Blank c uri) : (visit c p uri).2.isOk = true := by
  generalize hvisit : visit c p uri = x
  obtain ⟨p', r⟩ := x
  cases outcome_of_visit hvisit with
  | idle => rfl
  | blank => rfl
  | entered => rfl
  | failed _ _ barred solid cause =>
    rcases cause with ⟨d, path, hreads⟩ | ⟨e, he⟩
    · obtain ⟨hstale, hbarred⟩ := barred d path hreads
      rcases h d path hreads with hknown | henterable | hblank
      · exact absurd hknown hstale
      · exact absurd henterable hbarred
      · exact absurd hblank solid
    · cases hread.symm.trans he

theorem visited_of_visit {c : Context} {p p' : Pass} {uri : String} {r : Except Failure Visit}
    (h : visit c p uri = (p', r)) : p'.visited = p.visited := by
  cases outcome_of_visit h with
  | idle quiet => exact quiet.visited
  | blank quiet => exact quiet.visited
  | entered quiet => exact quiet.visited
  | failed quiet => exact quiet.visited

end Pass

end OutlineIndex
