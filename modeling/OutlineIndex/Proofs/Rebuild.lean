import Mathlib.Data.Set.Function
import OutlineIndex.Proofs.Alone
import OutlineIndex.Proofs.Repetition

namespace OutlineIndex

namespace Context

/-- The file that a path relative to the workspace stands for. -/
def place (c : Context) (rel : String) : Path := Path.resolve c.base (c.base ++ Path.ofString rel)

/-- Something is at a relative path. -/
def Exists (c : Context) (rel : String) : Prop := c.present (c.place rel) = .ok true

instance (c : Context) (rel : String) : Decidable (c.Exists rel) :=
  inferInstanceAs (Decidable (c.present (c.place rel) = .ok true))

theorem place_relative {c : Context} {q : Path} (hq : Path.Canonical c.workspace.cwd q) :
    c.place (c.relative q) = q := by
  rw [place, relative, Uri.resolve_relativePath c.resolved_base (hq.plain_resolve _), hq.resolve_eq]

/-- All texts that can be read are among some. -/
def HoldsOnly (c : Context) (T : Set String) : Prop := ∀ uri d path, c.Reads uri d path → d.text ∈ T

end Context

/-- The file and the relative identifier determine the identifier. -/
theorem Placed.id_eq {cwd base : Path} {id id' path rel : String} (hb : base.Resolved)
    (h : Placed cwd base id path rel) (h' : Placed cwd base id' path rel) : id = id' := by
  obtain ⟨q, f, hq, hf, rfl, rfl, rfl⟩ := h
  obtain ⟨q', f', hq', hf', rfl, hpath, hrel⟩ := h'
  have heq := Uri.resolve_eq_of_relativePath_eq hb (hq.plain_resolve cwd) (hq'.plain_resolve cwd) hpath
  rw [hq.resolve_eq, hq'.resolve_eq] at heq
  rw [heq, NodeId.withFragment_inj hrel]

namespace Pass

variable {c : Context} {full : Bool} {f : FileFilter} {p p' : Pass} {q : Path}

/-- A pass does not touch the entry of a file that is not there, unless the batch has the file. -/
theorem invariant_untouched (full : Bool) (hq : Path.Canonical c.workspace.cwd q)
    (hgone : c.present q ≠ .ok true) (e : Option FileEntry) :
    Invariant c full (fun u => c.IsCanonical u ∧ u ≠ Uri.ofResolved q) c.Visitable
      fun p => p.graph.entry? (c.relative q) = e where
  batch _ hu hpresent := Context.visitable_of_canonical hu.1 hpresent
  found _ _ _ hq hreads := Context.visitable_of_reads hq.resolved hreads
  visit p uri p' r huri _ hvisit h := by
    cases outcome_of_visit hvisit with
    | idle quiet => rw [quiet.graph]; exact h
    | blank quiet => rw [quiet.graph]; exact h
    | failed quiet => rw [quiet.graph]; exact h
    | @entered p₁ d path m found ids quiet parsed reads =>
      obtain ⟨q', hq', rfl⟩ := huri.resolved
      have hne : c.relative q ≠ c.relative path := fun heq =>
        hgone (Context.present_of_relative_eq hq hq' reads heq.symm)
      refine (CodeGraph.entry?_update p₁.graph _ _ m.imports m.exports m.nodes.values _).trans ?_
      rw [if_neg hne, quiet.graph]
      exact h
  finish _ _ _ _ _ hfinish h := by
    rw [(alike_finish hfinish).graph]
    exact h
  drop p uri path p' r huri hpath _ hdrop h := by
    have hdropped := dropped_of_drop hdrop
    obtain ⟨⟨q', hq', rfl⟩, hother⟩ := huri
    obtain rfl : q' = path := Except.ok.inj (hq'.toPath.symm.trans hpath)
    have hne : c.relative q ≠ c.relative q' := fun heq =>
      hother (congrArg _ (Context.eq_of_relative_eq hq' hq heq.symm))
    rw [hdropped.graph]
    refine (CodeGraph.find?_files_remove p.graph _ _).trans ?_
    rw [if_neg hne]
    exact h
  report _ _ h := h

/-- At every point of a pass in which no visit fails, the table has the texts of the documents visited so
far, if these have nodes. -/
structure Caught (c : Context) (f : FileFilter) (p : Pass) : Prop where
  progress : Progress c f p
  carried : ∀ u ∈ p.visited, c.HasNodes u → ∀ d path, c.Reads u d path →
    p.graph.Carries (c.relative path) (Digest.ofText d.text)

namespace Caught

theorem quiet {uri : String} (h : Caught c f p) (hprogress : Progress c f p')
    (hquiet : Quiet c (p.mark uri) p') (huri : c.HasNodes uri → ∀ d path, c.Reads uri d path →
      p.graph.Carries (c.relative path) (Digest.ofText d.text)) : Caught c f p' := by
  refine ⟨hprogress, fun u hu => ?_⟩
  rw [hquiet.visited] at hu
  rw [hquiet.graph]
  rcases List.mem_append.mp hu with hu | hu
  · exact h.carried u hu
  · rw [List.mem_singleton.mp hu]
    exact huri

theorem visit {uri : String} {v : Visit} (h : Caught c f p) (huri : c.Visitable uri)
    (hvisit : visit c (p.mark uri) uri = (p', .ok v)) : Caught c f p' := by
  have hprogress := h.progress.visit huri hvisit
  cases outcome_of_visit hvisit with
  | idle quiet _ known =>
    exact h.quiet hprogress quiet fun _ d path hreads => h.progress.carries (known d path hreads)
  | blank quiet _ reads _ empty =>
    refine h.quiet hprogress quiet fun ⟨d', path', m, hreads', hm, hnodes⟩ => ?_
    obtain ⟨rfl, rfl⟩ := reads.unique hreads'
    exact absurd (empty m hm) hnodes
  | @entered p₁ d path m found ids quiet parsed reads =>
    refine ⟨hprogress, fun u hu hnodes d' path' hreads' => ?_⟩
    obtain ⟨q, hq, rfl⟩ := huri.resolved
    -- a document at the file that is entered has the text that is entered
    have hcarries : (c.relative path' ≠ c.relative path →
        p.graph.Carries (c.relative path') (Digest.ofText d'.text)) →
        CodeGraph.Carries (p₁.graph.update (c.relative path) ⟨.ofList ids, Digest.ofText d.text⟩ m.imports
          m.exports m.nodes.values) (c.relative path') (Digest.ofText d'.text) := by
      intro hother
      obtain ⟨q', hq', rfl⟩ := (hprogress.visited u hu).1.resolved
      rw [CodeGraph.Carries, CodeGraph.entry?_update, quiet.graph]
      split
      · rename_i hfile
        rw [hreads'.text_eq_of_relative hq' hq reads hfile]
        rfl
      · rename_i hfile
        exact hother hfile
    have hseen : u ∈ (p.mark (Uri.ofResolved q)).visited := quiet.visited ▸ hu
    apply hcarries
    rcases List.mem_append.mp hseen with hseen | hnew
    · exact fun _ => h.carried u hseen hnodes d' path' hreads'
    · intro hfile
      rw [List.mem_singleton.mp hnew] at hreads'
      exact absurd (congrArg c.relative (hreads'.unique reads).2) hfile

theorem congr (h : Caught c f p) (ha : Alike p p') : Caught c f p' := by
  refine ⟨h.progress.congr ha, ?_⟩
  rw [ha.visited, ha.graph]
  exact h.carried

theorem drop {r : Except Failure Unit} (h : Caught c f p) (hq : Path.Canonical c.workspace.cwd q)
    (habsent : c.present q = .ok false) (hdrop : drop c p q = (p', r)) : Caught c f p' := by
  refine ⟨h.progress.drop hq habsent hdrop, fun u hu hnodes d path hreads => ?_⟩
  have hdropped := dropped_of_drop hdrop
  rw [hdropped.visited] at hu
  obtain ⟨q', hq', rfl⟩ := (h.progress.visited u hu).1.resolved
  have hne := Context.relative_ne_of_absent hq habsent hq' hreads
  rw [hdropped.graph, CodeGraph.Carries]
  change ((p.graph.remove _).files.find? _).map FileEntry.sha = _
  rw [CodeGraph.find?_files_remove, if_neg hne]
  exact h.carried _ hu hnodes d path hreads

theorem walks {uri : String} {done : Item} (h : Caught c f p) (huri : c.Visitable uri)
    (hwalks : Walks c p (.start uri) [uri] (p', .ok done)) : Caught c f p' := by
  have hend := hwalks.invariant (I := fun p _ queue => (∀ u ∈ queue, c.Visitable u) ∧ Caught c f p) ?_ ?_
    ⟨fun u hu => List.mem_singleton.mp hu ▸ huri, h⟩
  · exact hend.2
  · intro p item u queue _ ⟨hqueue, hcaught⟩
    exact ⟨fun w hw => hqueue w (List.mem_cons_of_mem _ hw), hcaught⟩
  · intro p item u queue p' v _ hvisit ⟨hqueue, hcaught⟩
    refine ⟨fun w hw => ?_, hcaught.visit (hqueue u (by simp)) hvisit⟩
    rcases List.mem_append.mp hw with hw | hw
    · exact hqueue w (List.mem_cons_of_mem _ hw)
    · have hfound := (List.mem_filter.mp hw).1
      obtain ⟨d, path, hreads⟩ := reads_of_mem_found hvisit hfound
      obtain ⟨q, htarget, rfl⟩ := (found_of_visit hvisit).2 w hfound
      exact Context.visitable_of_reads htarget.resolved hreads

theorem item {uri : String} (h : Caught c f p) (huri : c.IsCanonical uri)
    (hitem : item c full p uri = (p', .ok ())) : Caught c f p' := by
  cases worked_of_item hitem with
  | seen => exact h
  | gone hpath habsent hdrop =>
    obtain ⟨q, hq, rfl⟩ := huri
    cases hpath.symm.trans hq.toPath
    exact h.drop hq habsent hdrop
  | blank walks _ present => exact h.walks (Context.visitable_of_canonical huri present) walks
  | finished walks _ hfinish present =>
    exact (h.walks (Context.visitable_of_canonical huri present) walks).congr (alike_finish hfinish)

end Caught

/-- In a batch without failure it is known of every document whether it is there. -/
theorem exists_present_of_clean {uris : List String} (hbatch : ∀ u ∈ uris, c.IsCanonical u)
    (hclean : Clean c full p uris) (hp : Progress c f p) (hq : Path.Canonical c.workspace.cwd q)
    (hmem : Uri.ofResolved q ∈ uris) : ∃ there, c.present q = .ok there := by
  induction uris generalizing p with
  | nil => cases hmem
  | cons uri rest ih =>
    obtain ⟨p', hitem, hattempt, hrest⟩ := hclean.head
    rcases List.mem_cons.mp hmem with rfl | hlater
    · cases worked_of_item hitem with
      | seen hseen => exact ⟨true, (hp.visited _ hseen).1.present q hq.toPath⟩
      | gone hpath habsent =>
        cases hpath.symm.trans hq.toPath
        exact ⟨false, habsent⟩
      | blank _ _ hpresent => exact ⟨true, hpresent q hq.toPath⟩
      | finished _ _ _ hpresent => exact ⟨true, hpresent q hq.toPath⟩
    · have hnext := (invariant_progress c full f).attempt hattempt (hbatch uri (by simp)) hp
      exact ih (fun u hu => hbatch u (List.mem_cons_of_mem _ hu)) hrest hnext hlater

/-- A batch without failure brings the documents in it up to date. -/
theorem carries_of_clean {i : Index} {uris : List String} (hbatch : ∀ u ∈ uris, c.IsCanonical u)
    (hclean : Clean c full (.start i) uris) {u : String} (hu : u ∈ uris) (hnodes : c.HasNodes u) {d : Document}
    {path : Path} (hreads : c.Reads u d path) :
    (items c full (.start i) uris).1.graph.Carries (c.relative path) (Digest.ofText d.text) := by
  have hstart : Caught c i.filter (.start i) := ⟨progress_start c i, by rintro _ ⟨⟩⟩
  obtain ⟨hdone, hcaught⟩ := hclean.keeps (fun p p' u hu hitem h => h.item (hbatch u hu) hitem) hstart
  obtain ⟨q, hq, rfl⟩ := hbatch u hu
  have hvisited := (visited_or_vacant_of_items hbatch hdone (progress_start c i) hq hu).1
  obtain rfl := hreads.path_eq hq
  exact hcaught.carried _ (hvisited (Context.present_of_reads hreads)) hnodes d path hreads

end Pass

namespace Index

/-- The table of files has an entry for a path, or the store has a document of it. -/
def Knows (i : Index) (rel : String) : Prop :=
  (i.graph.entry? rel).isSome ∨ ∃ r ∈ i.store.rows, r.filePath = rel

instance (i : Index) (rel : String) : Decidable (i.Knows rel) :=
  inferInstanceAs (Decidable (_ ∨ _))

/-- An index after calls in which nothing failed, all with one reader of source, over files that are found
again by their URIs and whose texts are among those of `T`. -/
structure Undisturbed (cwd root : Path) (b : Backend) (T : Set String) (i : Index) : Prop where
  session : Session cwd root i
  reachable : Reachable cwd root b (fun u => ∃ q, Path.Canonical cwd q ∧ Uri.ofPath cwd q = .ok u)
    (fun c f => c.Over cwd root f ∧ c.HoldsOnly T) i

section Rows

variable {cwd root : Path} {b : Backend} {T : Set String} {i : Index} {rel : String}

theorem Agrees.mem_ids_iff {base : Path} (hb : base.Resolved) (h : Agrees cwd base i) {id : String} :
    id ∈ (i.store.findByPath [rel]).map (·.id) ↔
      ∃ e, i.graph.entry? rel = some e ∧ ∃ relId ∈ e.nodeIds, Placed cwd base id rel relId := by
  rw [Store.mem_ids_findByPath]
  constructor
  · rintro ⟨r, hr, rfl, rfl⟩
    obtain ⟨e, he, hmem⟩ := Store.Row.isCurrent_iff.mp (h.current r hr)
    exact ⟨e, he, r.relativeId, hmem, h.placed r hr⟩
  · rintro ⟨e, he, relId, hmem, hplaced⟩
    rcases h.held rel e he relId hmem with ⟨r, hr, rfl, rfl⟩ | ⟨_, hwait, -⟩
    · exact ⟨r, hr, rfl, (h.placed r hr).id_eq hb hplaced⟩
    · exact hwait.elim

/-- An entry comes from a text that was read at the path of the entry. -/
theorem Undisturbed.exists_describes (h : i.Undisturbed cwd root b T) {e : FileEntry}
    (he : i.graph.entry? rel = some e) : ∃ q text, Path.Canonical cwd q ∧
      rel = Uri.relativePath cwd (Path.resolve cwd root) q ∧ text ∈ T ∧
      e.Describes cwd root b (Uri.ofResolved q) text := by
  refine (h.reachable.kept (lasting_entries (T := fun rel e => ∃ q text, Path.Canonical cwd q ∧
    rel = Uri.relativePath cwd (Path.resolve cwd root) q ∧ text ∈ T ∧
    e.Describes cwd root b (Uri.ofResolved q) text) ?_)).graph rel e he
  rintro c f uri d path m ids rfl rfl rfl ⟨hover, htexts⟩ hcomes hreads hm hnodes hids
  obtain ⟨q, hq, rfl⟩ : ∃ q, Path.Canonical c.workspace.cwd q ∧ uri = Uri.ofResolved q := by
    rcases hcomes with ⟨q, hq, hu⟩ | ⟨q, hq, rfl⟩
    · exact ⟨q, hq, by rw [Uri.eq_of_ofPath hu, hq.resolve_eq]⟩
    · exact ⟨q, hover.canonical q hq, rfl⟩
  obtain rfl := hreads.path_eq hq
  exact ⟨path, d.text, hq, rfl, htexts _ d path hreads, Context.describes hreads hm hnodes hids⟩

/-- If the table has the digest of the text that a file has now, the store has one document for each of
its nodes, and no other of the file. -/
theorem Undisturbed.perm_of_carries (h : i.Undisturbed cwd root b T) (hT : Set.InjOn Digest.ofText T)
    {c : Context} (hcwd : c.workspace.cwd = cwd) (hroot : c.workspace.root = root) (hbackend : c.backend = b)
    (htexts : c.HoldsOnly T) {q path : Path} {d : Document} {m : CodeMap} (hq : Path.Canonical cwd q)
    (hreads : c.Reads (Uri.ofResolved q) d path) (hm : CodeMap.ofDocument c.backend c.workspace d = .ok m)
    (hcarries : i.graph.Carries (c.relative path) (Digest.ofText d.text)) :
    ((i.store.findByPath [c.relative path]).map (·.id)).Perm
      ((Pass.ownNodes (Uri.ofResolved q) m).map (·.id)) := by
  subst hcwd hroot hbackend
  obtain rfl := hreads.path_eq hq
  obtain ⟨e, he, hsha⟩ := Option.map_eq_some_iff.mp hcarries
  obtain ⟨q', text, hq', hrel, htext, hdescribes⟩ := h.exists_describes he
  obtain rfl : path = q' := Context.eq_of_relative_eq hq hq' hrel
  obtain rfl : text = d.text := hT htext (htexts _ d path hreads) (hdescribes.digest.trans hsha)
  have hagrees := agrees_of_session h.session
  have hcontribution := CodeMap.contribution_ofDocument hm
  rw [hreads.uri_eq] at hcontribution
  have hm' : CodeMap.ofDocument c.backend c.workspace ⟨Uri.ofResolved path, d.text⟩ = .ok m := by
    rw [← hreads.uri_eq]
    exact hm
  have hrows : ((i.store.findByPath [c.relative path]).map (·.id)).Nodup := by
    rw [Store.findByPath, List.map_map]
    exact hagrees.distinct.sublist (List.filter_sublist.map _)
  rw [List.perm_ext_iff_of_nodup hrows (Pass.nodup_ownNodes hcontribution)]
  intro id
  have howned : ∀ n ∈ Pass.ownNodes (Uri.ofResolved path) m, ∃ relId, c.relativeId n.id = .ok relId ∧
      relId ∈ e.nodeIds ∧ Placed c.workspace.cwd c.base n.id (c.relative path) relId := by
    intro n hn
    have hown := ((Pass.mem_ownNodes hreads hm).mp hn).2
    obtain ⟨f, hf, hid⟩ := hown.exists_fragment
    have hrelative : NodeId.toRelative c.workspace.cwd c.base n.id =
        .ok (NodeId.withFragment (c.relative path) f) := by
      rw [hid]
      exact NodeId.toRelative_ofResolved hq.toPath hf.hash_not_mem
    have hrelId : c.relativeId n.id = .ok _ := Results.mapError_eq_ok.mpr hrelative
    exact ⟨_, hrelId, (hdescribes.nodes _ m rfl rfl hm' _).mpr ⟨n, hn, hrelative⟩,
      Context.placed_of_ownedBy hq hown hrelId⟩
  rw [hagrees.mem_ids_iff c.resolved_base, List.mem_map]
  constructor
  · rintro ⟨e', he', relId, hmem, hplaced⟩
    obtain rfl := Option.some.inj (he.symm.trans he')
    obtain ⟨n, hn, hrelId⟩ := (hdescribes.nodes _ m rfl rfl hm' relId).mp hmem
    obtain ⟨relId', hrelId', -, hplaced'⟩ := howned n hn
    obtain rfl : relId' = relId := Except.ok.inj ((Results.mapError_eq_ok.mp hrelId').symm.trans hrelId)
    exact ⟨n, hn, hplaced'.id_eq c.resolved_base hplaced⟩
  · rintro ⟨n, hn, rfl⟩
    obtain ⟨relId, -, hmem, hplaced⟩ := howned n hn
    exact ⟨e, he, relId, hmem, hplaced⟩

end Rows

/-- What a build over the files at `uris` comes to. It leaves those files as they should be. Of a file that
is not there, and is none of them, it keeps all that the index had. -/
structure Rebuilt (c : Context) (uris : List String) (i i' : Index) : Prop where
  current : ∀ u ∈ uris, ∀ d path m, c.Reads u d path →
    CodeMap.ofDocument c.backend c.workspace d = .ok m → m.nodes.entries ≠ [] →
    i'.graph.Carries (c.relative path) (Digest.ofText d.text) ∧
      ((i'.store.findByPath [c.relative path]).map (·.id)).Perm ((Pass.ownNodes u m).map (·.id))
  kept : ∀ rel, ¬c.Exists rel → Uri.ofResolved (c.place rel) ∉ uris →
    i'.graph.entry? rel = i.graph.entry? rel ∧ ∀ id,
      id ∈ (i'.store.findByPath [rel]).map (·.id) ↔ id ∈ (i.store.findByPath [rel]).map (·.id)
  exists_iff : (∀ rel, i'.Knows rel → c.Exists rel) ↔
    ∀ rel, i.Knows rel → c.Exists rel ∨ Uri.ofResolved (c.place rel) ∈ uris

section Build

variable {cwd root : Path} {b : Backend} {T : Set String} {i : Index} {c : Context} {uris : List String}

/-- The documents of a build are files that the filter selects. -/
theorem isCanonical_of_documents (hover : c.Over cwd root i.filter)
    (hdocuments : FileFilter.documents c.workspace.files c.base i.filter.pattern i.filter.exclusion = .ok uris) :
    ∀ u ∈ uris, c.IsCanonical u := by
  obtain ⟨rfl, rfl, hcanonical⟩ := hover
  obtain ⟨found, hfound, huris⟩ := Results.bind_eq_ok.mp hdocuments
  cases huris
  intro u hu
  obtain ⟨rel, hrel, rfl⟩ := List.mem_map.mp hu
  exact ⟨_, hcanonical _ (.inr ⟨found, hfound, rel, hrel, rfl⟩), rfl⟩

theorem build_eq (hdocuments : FileFilter.documents c.workspace.files c.base i.filter.pattern
      i.filter.exclusion = .ok uris) :
    (i.build c).1 = (process c { i with filter := i.filter.forget } uris true).1 ∧
      (i.build c).2.result = (process c { i with filter := i.filter.forget } uris true).2.result.map
        fun _ => uris := by
  unfold build
  dsimp only [FileFilter.forget]
  rw [hdocuments]
  exact ⟨rfl, rfl⟩

theorem Undisturbed.exists_canonical (h : i.Undisturbed cwd root b T) {rel : String} (hknows : i.Knows rel) :
    ∃ e q, i.graph.entry? rel = some e ∧ Path.Canonical cwd q ∧
      rel = Uri.relativePath cwd (Path.resolve cwd root) q := by
  obtain ⟨e, he⟩ : ∃ e, i.graph.entry? rel = some e := by
    rcases hknows with hentry | ⟨r, hr, rfl⟩
    · exact Option.isSome_iff_exists.mp hentry
    · obtain ⟨e, he, -⟩ := Store.Row.isCurrent_iff.mp ((agrees_of_session h.session).current r hr)
      exact ⟨e, he⟩
  obtain ⟨q, text, hq, hrel, -⟩ := h.exists_describes he
  exact ⟨e, q, he, hq, hrel⟩

/-- Only what is there, or is in the batch, can change. -/
theorem entry?_build (hover : c.Over cwd root i.filter)
    (hdocuments : FileFilter.documents c.workspace.files c.base i.filter.pattern i.filter.exclusion = .ok uris)
    {q : Path} (hq : Path.Canonical cwd q) (hgone : c.present q ≠ .ok true) (hout : Uri.ofResolved q ∉ uris) :
    (i.build c).1.graph.entry? (c.relative q) = i.graph.entry? (c.relative q) := by
  have hbatch := isCanonical_of_documents hover hdocuments
  obtain ⟨rfl, rfl, -⟩ := hover
  rw [(build_eq hdocuments).1, (process_eq _ _ _ _).1]
  refine (Pass.invariant_untouched true hq hgone _).items (fun u hu => ⟨hbatch u hu, ?_⟩) rfl
  rintro rfl
  exact hout hu

/-- Of a file that is not there nothing is left if the batch has the file. -/
theorem not_knows_build (hover : c.Over cwd root i.filter)
    (hdocuments : FileFilter.documents c.workspace.files c.base i.filter.pattern i.filter.exclusion = .ok uris)
    (hclean : Pass.Clean c true (.start { i with filter := i.filter.forget }) uris) {q : Path}
    (hq : Path.Canonical cwd q) (hgone : c.present q ≠ .ok true) (hin : Uri.ofResolved q ∈ uris) :
    ¬(i.build c).1.Knows (c.relative q) := by
  have hbatch := isCanonical_of_documents hover hdocuments
  obtain ⟨rfl, rfl, -⟩ := hover
  have hstart := Pass.progress_start c { i with filter := i.filter.forget }
  obtain ⟨there, hthere⟩ := Pass.exists_present_of_clean hbatch hclean hstart hq hin
  have habsent : c.present q = .ok false := by
    cases there with
    | false => exact hthere
    | true => exact absurd hthere hgone
  have hdone := (hclean.keeps (I := fun _ => True) (fun _ _ _ _ _ _ => trivial) trivial).1
  have hvacant := (Pass.visited_or_vacant_of_items hbatch hdone hstart hq hin).2 habsent
  obtain ⟨hgraph, hstore⟩ := process_eq c { i with filter := i.filter.forget } uris true
  rw [(build_eq hdocuments).1, Knows, hgraph, hstore, hvacant.entry]
  rintro (hnone | ⟨r, hr, hpath⟩)
  · cases hnone
  · exact hvacant.rows r hr hpath

section Undisturbed

variable (h : i.Undisturbed cwd root b T) (hover : c.Over cwd root i.filter) (hbackend : c.backend = b)
  (htexts : c.HoldsOnly T)
  (hdocuments : FileFilter.documents c.workspace.files c.base i.filter.pattern i.filter.exclusion = .ok uris)
  (hclean : Pass.Clean c true (.start { i with filter := i.filter.forget }) uris)

include h hover hbackend htexts hdocuments hclean

/-- A build in which nothing fails is one more such call. -/
theorem undisturbed_build : (i.build c).1.Undisturbed cwd root b T := by
  refine ⟨.build h.session hover fun uris' huris' => ?_,
    .build h.reachable hover.cwd_eq hover.root_eq hbackend ⟨hover, htexts⟩⟩
  cases hdocuments.symm.trans huris'
  exact hclean

theorem entry?_build_of_gone {rel : String} (hgone : ¬c.Exists rel) (hout : Uri.ofResolved (c.place rel) ∉ uris) :
    (i.build c).1.graph.entry? rel = i.graph.entry? rel := by
  have h' := undisturbed_build h hover hbackend htexts hdocuments hclean
  obtain ⟨rfl, rfl, -⟩ := id hover
  by_cases hknown : ∃ q, Path.Canonical c.workspace.cwd q ∧ rel = c.relative q
  · obtain ⟨q, hq, rfl⟩ := hknown
    rw [Context.Exists, Context.place_relative hq] at hgone
    rw [Context.place_relative hq] at hout
    exact entry?_build hover hdocuments hq hgone hout
  · -- what is the path of no file has no entry, neither before nor after
    have hnone : ∀ {j : Index}, j.Undisturbed c.workspace.cwd c.workspace.root b T →
        j.graph.entry? rel = none := by
      intro j hj
      by_contra hsome
      obtain ⟨_, q, -, hq, hrel⟩ := hj.exists_canonical (.inl (Option.isSome_iff_ne_none.mpr hsome))
      exact hknown ⟨q, hq, hrel⟩
    rw [hnone h, hnone h']

theorem exists_of_knows_build_iff : (∀ rel, (i.build c).1.Knows rel → c.Exists rel) ↔
    ∀ rel, i.Knows rel → c.Exists rel ∨ Uri.ofResolved (c.place rel) ∈ uris := by
  have h' := undisturbed_build h hover hbackend htexts hdocuments hclean
  have hkept : ∀ {rel}, ¬c.Exists rel → Uri.ofResolved (c.place rel) ∉ uris → _ :=
    entry?_build_of_gone h hover hbackend htexts hdocuments hclean
  constructor
  · intro hall rel hknows
    by_contra hnot
    rw [not_or] at hnot
    obtain ⟨e, -, he, -⟩ := h.exists_canonical hknows
    refine hnot.1 (hall rel (.inl ?_))
    rw [hkept hnot.1 hnot.2, he]
    rfl
  · intro hall rel hknows
    by_contra hgone
    obtain ⟨e, q, he, hq, hrel⟩ := h'.exists_canonical hknows
    by_cases hin : Uri.ofResolved (c.place rel) ∈ uris
    · obtain ⟨rfl, rfl, -⟩ := id hover
      obtain rfl : rel = c.relative q := hrel
      rw [Context.Exists, Context.place_relative hq] at hgone
      rw [Context.place_relative hq] at hin
      exact not_knows_build hover hdocuments hclean hq hgone hin hknows
    · rw [hkept hgone hin] at he
      rcases hall rel (.inl (by rw [he]; rfl)) with hthere | hbatched
      · exact hgone hthere
      · exact hin hbatched

end Undisturbed

/-- A build in which nothing fails, after calls in which nothing failed and any changes of the files. The
files that the filter selects are up to date afterwards. What the index has of a file that is not there is
as before; so it has nothing of such files only if it had nothing before. -/
theorem rebuilt_build (hT : Set.InjOn Digest.ofText T) (h : i.Undisturbed cwd root b T)
    (hover : c.Over cwd root i.filter) (hbackend : c.backend = b) (htexts : c.HoldsOnly T)
    (hdocuments : FileFilter.documents c.workspace.files c.base i.filter.pattern i.filter.exclusion = .ok uris)
    (hclean : Pass.Clean c true (.start { i with filter := i.filter.forget }) uris) :
    (i.build c).2.result = .ok uris ∧ Rebuilt c uris i (i.build c).1 := by
  have h' := undisturbed_build h hover hbackend htexts hdocuments hclean
  have hbatch := isCanonical_of_documents hover hdocuments
  have hkept : ∀ rel, ¬c.Exists rel → Uri.ofResolved (c.place rel) ∉ uris → _ := fun _ =>
    entry?_build_of_gone h hover hbackend htexts hdocuments hclean
  have hiff := exists_of_knows_build_iff h hover hbackend htexts hdocuments hclean
  have hdone := (hclean.keeps (I := fun _ => True) (fun _ _ _ _ _ _ => trivial) trivial).1
  obtain ⟨rfl, rfl, -⟩ := id hover
  refine ⟨?_, fun u hu d path m hreads hm hnodes => ?_, fun rel hgone hout => ⟨hkept rel hgone hout, fun id => ?_⟩, hiff⟩
  · rw [(build_eq hdocuments).2, process]
    dsimp only
    rw [hdone]
    rfl
  · have hcarries := Pass.carries_of_clean hbatch hclean hu ⟨d, path, m, hreads, hm, hnodes⟩ hreads
    rw [← (process_eq _ _ _ _).1, ← (build_eq hdocuments).1] at hcarries
    obtain ⟨q, hq, rfl⟩ := hbatch u hu
    exact ⟨hcarries, h'.perm_of_carries hT rfl rfl hbackend htexts hq hreads hm hcarries⟩
  · rw [(agrees_of_session h'.session).mem_ids_iff c.resolved_base, hkept rel hgone hout,
      (agrees_of_session h.session).mem_ids_iff c.resolved_base]

end Build

theorem holdsOnly_sampleContext {files : List (String × String)} {failing : String} {T : Set String}
    (h : ∀ f ∈ files, FileTree.textOf (Utf8.encode f.2.toList) ∈ T) :
    (sampleContext files failing).HoldsOnly T := by
  intro uri d path hreads
  obtain ⟨path', bytes, -, -, hbytes, rfl⟩ := Workspace.read_eq_text hreads.text
  obtain ⟨f, hf, -, rfl⟩ := mem_sampleFiles (FileTree.mem_entries_of_file (Workspace.entry?_of_status hbytes))
  exact h f hf

/-- `a.py` is indexed and edited, and a build brings it up to date. -/
theorem rebuilt_build_edited :
    let uri := "file:///tmp/w/ws/a.py"
    let before := sampleContext [("a.py", "x\n")] ""
    let after := sampleContext [("a.py", "y\n")] ""
    let i := ((make before.base (.empty "graph.json" 4) "a.py" []).build before).1
    (i.build after).2.result = .ok [uri] ∧ Rebuilt after [uri] i (i.build after).1 := by
  intro uri before after i
  let start := make before.base (.empty "graph.json" 4) "a.py" []
  have hT : Set.InjOn Digest.ofText {"x\n", "y\n"} := by
    have hne : Digest.ofText "x\n" ≠ Digest.ofText "y\n" := by decide +kernel
    rintro _ (rfl | rfl) _ (rfl | rfl) heq
    · rfl
    · exact absurd heq hne
    · exact absurd heq.symm hne
    · rfl
  have hbefore : before.HoldsOnly {"x\n", "y\n"} := holdsOnly_sampleContext (by decide +kernel)
  have hafter : after.HoldsOnly {"x\n", "y\n"} := holdsOnly_sampleContext (by decide +kernel)
  have hfirst : FileFilter.documents before.workspace.files before.base start.filter.pattern
        start.filter.exclusion = .ok [uri] ∧
      Pass.Clean before true (.start { start with filter := start.filter.forget }) [uri] := by decide +kernel
  have hsecond : FileFilter.select after.workspace.files ["tmp", "w", "ws"] i.filter.pattern
        i.filter.exclusion = .ok (.ofList ["a.py"]) ∧
      FileFilter.documents after.workspace.files after.base i.filter.pattern i.filter.exclusion = .ok [uri] ∧
      Pass.Clean after true (.start { i with filter := i.filter.forget }) [uri] := by decide +kernel
  have hi : i.Undisturbed ⟨.root, ["tmp", "w"]⟩ ⟨.root, ["tmp", "w", "ws"]⟩ .tolerant {"x\n", "y\n"} :=
    undisturbed_build ⟨.start _ _ _ _, .start _ _ _ _⟩ (over_sampleContext (by decide +kernel)) rfl hbefore
      hfirst.1 hfirst.2
  have hover : after.Over ⟨.root, ["tmp", "w"]⟩ ⟨.root, ["tmp", "w", "ws"]⟩ i.filter :=
    over_sampleContext hsecond.1
  have hbackend : after.backend = .tolerant := rfl
  clear_value after i
  exact rebuilt_build hT hi hover hbackend hafter hsecond.2.1 hsecond.2.2

/-- `a.py` is indexed and deleted. A build finds no file, and keeps what the index has of `a.py`. -/
theorem knows_build_deleted :
    let before := sampleContext [("a.py", "x\n")] ""
    let after := sampleContext [] ""
    let start := make before.base (.empty "graph.json" 256) "*.py" []
    let i := (start.build before).1
    (start.build before).2.result = .ok ["file:///tmp/w/ws/a.py"] ∧
      Pass.Clean before true (.start start) ["file:///tmp/w/ws/a.py"] ∧
      (i.build after).2.result = .ok [] ∧ (i.build after).1.Knows "a.py" ∧ ¬after.Exists "a.py" := by
  decide +kernel

end Index

end OutlineIndex
