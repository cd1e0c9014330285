import OutlineIndex.Index.Visit
import OutlineIndex.Proofs.Lookup
import OutlineIndex.Proofs.NodeId
import OutlineIndex.Proofs.Places
import OutlineIndex.Proofs.Source.Spans

namespace OutlineIndex

namespace Definition

/-- A definition that stands in no other one, or in one that starts before it. -/
def Placed (x : Definition) : Prop :=
  0 ≤ x.span.start.line ∧ (x.parent = none ∨ ∃ r, x.parent = some r ∧ r.start.Precedes x.span.start)

mutual

theorem placed_of_mem_ofLocated {text : List Char} {parent : Option Span} (x : Source.Located)
    (hx : x.Laid text) (hp : ∀ r, parent = some r → r.start.Precedes (positionOf text x.start))
    {y : Definition} (hy : y ∈ ofLocated text parent x) : y.Placed := by
  match x with
  | .mk kind name start stop inner =>
    obtain ⟨-, hinner, hall⟩ := hx
    rcases List.mem_cons.mp hy with rfl | hy
    · refine ⟨?_, ?_⟩
      · change 0 ≤ (positionOf text start).line
        rw [line_positionOf]
        omega
      · cases parent with
        | none => exact .inl rfl
        | some r => exact .inr ⟨r, rfl, hp r rfl⟩
    · refine placed_of_mem_ofLocatedAll inner hall (fun z hz r hr => ?_) hy
      cases hr
      exact precedes_positionOf (hinner z hz).1

theorem placed_of_mem_ofLocatedAll {text : List Char} {parent : Option Span} (xs : List Source.Located)
    (hxs : Source.Located.LaidAll text xs)
    (hp : ∀ x ∈ xs, ∀ r, parent = some r → r.start.Precedes (positionOf text x.start))
    {y : Definition} (hy : y ∈ ofLocatedAll text parent xs) : y.Placed := by
  match xs with
  | [] => cases hy
  | x :: xs =>
    obtain ⟨hx, -, hrest⟩ := hxs
    rcases List.mem_append.mp hy with hy | hy
    · exact placed_of_mem_ofLocated x hx (hp x List.mem_cons_self) hy
    · exact placed_of_mem_ofLocatedAll xs hrest (fun z hz => hp z (List.mem_cons_of_mem _ hz)) hy

end

end Definition

/-- A node of the document at `uri`: its module, or a definition under the module or under one that
starts before it. -/
inductive Node.OwnedBy (uri : String) (n : Node) : Prop
  | module (hu : n.uri = uri) (hid : n.id = uri) (hp : n.parent = none)
  | definition (hu : n.uri = uri) (hid : n.id = NodeId.make uri n.span) (hl : 0 ≤ n.span.start.line)
      (hp : n.parent = some uri ∨
        ∃ r, n.parent = some (NodeId.make uri r) ∧ r.start.Precedes n.span.start)

namespace Node.OwnedBy

variable {uri : String} {n : Node}

theorem uri_eq (h : n.OwnedBy uri) : n.uri = uri := by
  cases h with
  | module hu => exact hu
  | definition hu => exact hu

/-- The identifier is the URI with a fragment, which is empty for the module. -/
theorem id_eq (h : n.OwnedBy uri) : ∃ f, n.id = NodeId.withFragment uri f ∧ '#' ∉ f.toList := by
  cases h with
  | module _ hid => exact ⟨"", by rw [hid]; rfl, by simp⟩
  | definition _ hid =>
    exact ⟨NodeId.fragment n.span, by rw [hid, NodeId.make_eq], NodeId.not_mem_fragment _⟩

end Node.OwnedBy

theorem ownedBy_definitionNode (uri : String) {x : Definition} (hx : x.Placed) :
    (CodeMap.definitionNode uri x).OwnedBy uri := by
  refine .definition rfl rfl hx.1 ?_
  rcases hx.2 with h | ⟨r, h, hlt⟩
  · exact .inl (by simp [CodeMap.definitionNode, h])
  · exact .inr ⟨r, by simp [CodeMap.definitionNode, h], hlt⟩

namespace CodeMap

theorem make_ne (uri : String) (r : Span) : NodeId.make uri r ≠ uri := by
  intro h
  have hlen := congrArg (fun s => s.toList.length) h
  rw [NodeId.make_eq, NodeId.withFragment, if_neg (NodeId.fragment_ne_empty r)] at hlen
  simp at hlen

/-- The module of a document. -/
def moduleNode (d : Document) (path : Path) : Node := ⟨d.uri, d.uri, d.fullSpan, none, .module, path.stem⟩

theorem find?_ownNodes {d : Document} {path : Path} {xs : List Source.Located}
    (hxs : Source.Located.LaidAll d.text.toList xs) {k : String} {n : Node}
    (h : (ownNodes d path xs).find? k = some n) : n.id = k ∧ n.OwnedBy d.uri := by
  have hmodule : (moduleNode d path).OwnedBy d.uri := .module rfl rfl rfl
  rcases Table.find?_foldl_put_cases h with ⟨x, hx, hk, rfl⟩ | ⟨h, -⟩
  · exact ⟨hk, ownedBy_definitionNode d.uri
      (Definition.placed_of_mem_ofLocatedAll xs hxs (by simp) hx)⟩
  · rw [Table.find?_put] at h
    split at h
    · rename_i hk
      obtain rfl := Option.some.inj h
      exact ⟨hk.symm, hmodule⟩
    · simp at h

/-- No definition takes the place of the module. -/
theorem find?_ownNodes_uri (d : Document) (path : Path) (xs : List Source.Located) :
    (ownNodes d path xs).find? d.uri = some (moduleNode d path) := by
  have hno : ∀ x : Definition, (definitionNode d.uri x).id ≠ d.uri := fun x => make_ne d.uri x.span
  rw [ownNodes, Table.find?_foldl_put]
  have hnone : (Definition.ofLocatedAll d.text.toList none xs).reverse.find?
      (fun x => (definitionNode d.uri x).id == d.uri) = none := by
    refine List.find?_eq_none.mpr fun x _ => ?_
    simpa using hno x
  rw [hnone, Table.find?_put, if_pos rfl]
  rfl

section Link

variable {uri : String} {m : CodeMap}

theorem link_self {f : Node} (h : f.id = uri) : link uri m f = m := by rw [link, if_pos h]

theorem find?_nodes_link {f : Node} (h : f.id ≠ uri) (k : String) :
    (link uri m f).nodes.find? k =
      if k = f.id then some ((m.nodes.find? k).getD f) else m.nodes.find? k := by
  rw [link, if_neg h]
  dsimp only
  by_cases hc : m.nodes.contains f.id = true
  · rw [if_pos hc]
    by_cases hk : k = f.id
    · obtain ⟨n, hn⟩ := Option.isSome_iff_exists.mp (Table.contains_iff.mp hc)
      simp [hk, hn]
    · simp [hk]
  · rw [if_neg hc, Table.find?_put]
    by_cases hk : k = f.id
    · have hnone : m.nodes.find? f.id = none := by
        rw [← Option.not_isSome_iff_eq_none, ← Table.contains_iff]
        exact hc
      simp [hk, hnone]
    · simp [hk]

/-- A node after linking was there before or is one of the linked ones. -/
theorem find?_nodes_foldl_link {foreign : List Node} {k : String} {n : Node}
    (h : (foreign.foldl (link uri) m).nodes.find? k = some n) :
    m.nodes.find? k = some n ∨ (n ∈ foreign ∧ n.id = k ∧ n.id ≠ uri) := by
  induction foreign generalizing m with
  | nil => exact .inl h
  | cons f fs ih =>
    rcases ih h with h | ⟨hn, hk, hne⟩
    · by_cases hf : f.id = uri
      · rw [link_self hf] at h
        exact .inl h
      · rw [find?_nodes_link hf] at h
        split at h
        · rename_i hk
          cases hm : m.nodes.find? k with
          | some n' =>
            rw [hm] at h
            exact .inl h
          | none =>
            rw [hm] at h
            obtain rfl : f = n := by simpa using h
            exact .inr ⟨by simp, hk.symm, hf⟩
        · exact .inl h
    · exact .inr ⟨List.mem_cons_of_mem _ hn, hk, hne⟩

theorem isSome_find?_nodes_foldl_link {foreign : List Node} {k : String}
    (h : (m.nodes.find? k).isSome ∨ ∃ f ∈ foreign, f.id = k ∧ f.id ≠ uri) :
    ((foreign.foldl (link uri) m).nodes.find? k).isSome := by
  induction foreign generalizing m with
  | nil => simpa using h
  | cons f fs ih =>
    have hstep : ∀ f', (m.nodes.find? k).isSome → ((link uri m f').nodes.find? k).isSome := by
      intro f' hk
      by_cases hf : f'.id = uri
      · rwa [link_self hf]
      · rw [find?_nodes_link hf]
        split
        · rfl
        · exact hk
    rw [List.foldl_cons]
    rcases h with h | ⟨g, hg, hk, hne⟩
    · exact ih (.inl (hstep f h))
    · rcases List.mem_cons.mp hg with rfl | hg
      · refine ih (.inl ?_)
        rw [find?_nodes_link hne, if_pos hk.symm]
        rfl
      · exact ih (.inr ⟨g, hg, hk, hne⟩)

theorem find?_foldl_link_of_find? {foreign : List Node} {k : String} {n : Node}
    (h : m.nodes.find? k = some n) : (foreign.foldl (link uri) m).nodes.find? k = some n := by
  induction foreign generalizing m with
  | nil => exact h
  | cons f fs ih =>
    rw [List.foldl_cons]
    refine ih ?_
    by_cases hf : f.id = uri
    · rwa [link_self hf]
    · rw [find?_nodes_link hf, h]
      simp

/-- The identifiers of linked modules. -/
def linkedIds (uri : String) (foreign : List Node) : IdSet :=
  .ofList ((foreign.map (·.id)).filter (· ≠ uri))

theorem linkedIds_concat (uri : String) (fs : List Node) (f : Node) :
    linkedIds uri (fs ++ [f]) = if f.id = uri then linkedIds uri fs else (linkedIds uri fs).insert f.id := by
  apply IdSet.ext
  intro a
  by_cases hf : f.id = uri
  · simp [linkedIds, hf]
  · simp only [linkedIds, IdSet.mem_ofList, List.map_append, List.filter_append, List.mem_append, if_neg hf,
      IdSet.mem_insert]
    simp [hf, or_comm]

/-- The document imports the linked modules, if any. -/
theorem find?_imports_foldl_link (nodes : Table Node) (foreign : List Node) (k : String) :
    (foreign.foldl (link uri) ⟨nodes, .empty, .empty⟩).imports.find? k =
      if k = uri ∧ linkedIds uri foreign ≠ .empty then some (linkedIds uri foreign) else none := by
  induction foreign using List.reverseRecOn with
  | nil => simp [linkedIds, IdSet.ofList]
  | append_singleton fs f ih =>
    rw [List.foldl_append, linkedIds_concat]
    simp only [List.foldl_cons, List.foldl_nil]
    by_cases hf : f.id = uri
    · rw [link_self hf, if_pos hf, ih]
    · have hne : (linkedIds uri fs).insert f.id ≠ .empty := by
        rw [Ne, IdSet.eq_empty_iff]
        exact fun h => h f.id (by simp)
      rw [if_neg hf, link, if_neg hf]
      simp only [Table.find?_put]
      by_cases hk : k = uri
      · subst hk
        rw [if_pos rfl, if_pos ⟨rfl, hne⟩, ih]
        by_cases he : linkedIds k fs = .empty
        · simp [he]
        · simp [he]
      · rw [if_neg hk, ih, if_neg (fun h => hk h.1), if_neg (fun h => hk h.1)]

/-- Each linked module is exported to the document only. -/
theorem find?_exports_foldl_link (nodes : Table Node) (foreign : List Node) (k : String) :
    (foreign.foldl (link uri) ⟨nodes, .empty, .empty⟩).exports.find? k =
      if k ∈ linkedIds uri foreign then some (.ofList [uri]) else none := by
  induction foreign using List.reverseRecOn with
  | nil => simp [linkedIds, IdSet.ofList]
  | append_singleton fs f ih =>
    rw [List.foldl_append, linkedIds_concat]
    simp only [List.foldl_cons, List.foldl_nil]
    by_cases hf : f.id = uri
    · rw [link_self hf, if_pos hf, ih]
    · rw [if_neg hf, link, if_neg hf]
      simp only [Table.find?_put, IdSet.mem_insert]
      by_cases hk : k = f.id
      · subst hk
        rw [if_pos rfl, if_pos (.inl rfl), ih]
        split
        · exact congrArg some (IdSet.ext fun a => by simp)
        · rfl
      · rw [if_neg hk, ih]
        simp [hk]

end Link

/-- The modules linked to a document are those of the files that its imports resolve to. -/
def Linked (w : Workspace) (path : Path) (refs : List Source.ImportRef) (foreign : List Node) : Prop :=
  ∃ found nodes, refs.mapM (targets w path) = .ok found ∧
    found.flatten.eraseDups.mapM (foreignNode? w) = .ok nodes ∧ foreign = nodes.filterMap id

/-- How the contribution of a document comes about, unless it is empty. -/
theorem ofDocument_cases {b : Backend} {w : Workspace} {d : Document} {m : CodeMap}
    (h : ofDocument b w d = .ok m) : m = empty ∨ ∃ path o foreign,
      Uri.toPath d.uri = .ok path ∧ supports path = true ∧ outline b d = .ok o ∧
      Linked w path o.refs foreign ∧
      m = foreign.foldl (link d.uri) ⟨ownNodes d path o.definitions, .empty, .empty⟩ := by
  obtain ⟨path, hpath, h⟩ := Results.bind_eq_ok.mp h
  have hpath := Results.mapError_eq_ok.mp hpath
  split at h
  · cases h
    exact .inl rfl
  rename_i hsupports
  obtain ⟨o, ho, h⟩ := Results.bind_eq_ok.mp h
  obtain ⟨found, hfound, h⟩ := Results.bind_eq_ok.mp h
  obtain ⟨nodes, hnodes, h⟩ := Results.bind_eq_ok.mp h
  cases h
  refine .inr ⟨path, o, _, hpath, ?_, ho, ⟨found, nodes, hfound, hnodes, rfl⟩, rfl⟩
  simp only [Bool.not_eq_true, Bool.or_eq_false_iff, Bool.not_eq_false'] at hsupports
  exact hsupports.1

/-- What becomes of a document of a kind that is supported. -/
theorem ofDocument_of_supports {b : Backend} {w : Workspace} {d : Document} {path : Path}
    (hpath : Uri.toPath d.uri = .ok path) (hs : supports path = true) :
    ofDocument b w d = if Text.blank d.text.toList then .ok empty else
      outline b d >>= fun o => o.refs.mapM (targets w path) >>= fun found =>
        found.flatten.eraseDups.mapM (foreignNode? w) >>= fun nodes =>
          .ok ((nodes.filterMap id).foldl (link d.uri) ⟨ownNodes d path o.definitions, .empty, .empty⟩) := by
  unfold ofDocument
  rw [hpath]
  change (if !supports path || Text.blank d.text.toList then _ else _) = _
  rw [hs]
  rfl

/-- How the contribution of a document of a supported kind that is not blank comes about. -/
theorem ofDocument_eq_ok_iff {b : Backend} {w : Workspace} {d : Document} {path : Path} {m : CodeMap}
    (hpath : Uri.toPath d.uri = .ok path) (hs : supports path = true)
    (hblank : Text.blank d.text.toList = false) :
    ofDocument b w d = .ok m ↔ ∃ o foreign, outline b d = .ok o ∧ Linked w path o.refs foreign ∧
      m = foreign.foldl (link d.uri) ⟨ownNodes d path o.definitions, .empty, .empty⟩ := by
  rw [ofDocument_of_supports hpath hs, hblank]
  constructor
  · intro h
    obtain ⟨o, ho, h⟩ := Results.bind_eq_ok.mp h
    obtain ⟨found, hfound, h⟩ := Results.bind_eq_ok.mp h
    obtain ⟨nodes, hnodes, h⟩ := Results.bind_eq_ok.mp h
    exact ⟨o, _, ho, ⟨found, nodes, hfound, hnodes, rfl⟩, (Except.ok.inj h).symm⟩
  · rintro ⟨o, _, ho, ⟨found, nodes, hfound, hnodes, rfl⟩, rfl⟩
    exact Results.bind_eq_ok.mpr ⟨o, ho, Results.bind_eq_ok.mpr ⟨found, hfound,
      Results.bind_eq_ok.mpr ⟨nodes, hnodes, rfl⟩⟩⟩

/-- Modules are linked where every reference can be followed and every file that is found asked for. -/
theorem exists_linked_iff {w : Workspace} {path : Path} {refs : List Source.ImportRef} :
    (∃ foreign, Linked w path refs foreign) ↔ (∀ ref ∈ refs, ∃ ps, targets w path ref = .ok ps) ∧
      ∀ ref ∈ refs, ∀ ps, targets w path ref = .ok ps → ∀ p ∈ ps, ∃ n, foreignNode? w p = .ok n := by
  constructor
  · rintro ⟨_, found, nodes, hfound, hnodes, rfl⟩
    refine ⟨fun ref href => ?_, fun ref href ps hps p hp => ?_⟩
    · obtain ⟨ps, -, hps⟩ := Results.exists_mem_of_mapM hfound href
      exact ⟨ps, hps⟩
    · obtain ⟨ps', hmem, hps'⟩ := Results.exists_mem_of_mapM hfound href
      cases hps.symm.trans hps'
      obtain ⟨n, -, hn⟩ := Results.exists_mem_of_mapM hnodes
        (List.mem_eraseDups.mpr (List.mem_flatten.mpr ⟨_, hmem, hp⟩))
      exact ⟨n, hn⟩
  · rintro ⟨hrefs, hfiles⟩
    obtain ⟨found, hfound⟩ := Results.exists_mapM_eq_ok hrefs
    obtain ⟨nodes, hnodes⟩ : ∃ nodes, found.flatten.eraseDups.mapM (foreignNode? w) = .ok nodes := by
      refine Results.exists_mapM_eq_ok fun p hp => ?_
      obtain ⟨ps, hps, hp⟩ := List.mem_flatten.mp (List.mem_eraseDups.mp hp)
      obtain ⟨ref, href, htargets⟩ := Results.exists_of_mem_mapM hfound hps
      exact hfiles ref href ps htargets p hp
    exact ⟨_, found, nodes, hfound, hnodes, rfl⟩

/-- A document with an outline comes to a code map just if its modules are linked. -/
theorem exists_ofDocument_iff {b : Backend} {w : Workspace} {d : Document} {path : Path} {o : Source.Outline}
    (hpath : Uri.toPath d.uri = .ok path) (hs : supports path = true)
    (hblank : Text.blank d.text.toList = false) (ho : outline b d = .ok o) :
    (∃ m, ofDocument b w d = .ok m) ↔ ∃ foreign, Linked w path o.refs foreign := by
  simp only [ofDocument_eq_ok_iff hpath hs hblank, ho]
  constructor
  · rintro ⟨m, _, foreign, ⟨⟩, hlinked, -⟩
    exact ⟨foreign, hlinked⟩
  · rintro ⟨foreign, hlinked⟩
    exact ⟨_, o, foreign, rfl, hlinked, rfl⟩

/-- A file of the workspace. -/
structure IsTarget (w : Workspace) (p : Path) : Prop where
  resolved : p.Resolved
  isFile : w.files.isFile p.parts = true
  within : Path.within w.base p = true

theorem existing?_eq_some {w : Workspace} {p q : Path} (h : existing? w p = .ok (some q)) :
    q.Resolved ∧ w.files.isFile q.parts = true := by
  obtain ⟨there, hthere, h⟩ := Results.bind_eq_ok.mp h
  cases there with
  | false => cases h
  | true =>
    cases h
    exact ⟨Path.resolved_resolve _ _, Workspace.isFile_resolve (Results.mapError_eq_ok.mp hthere)⟩

theorem moduleFile?_eq_some {w : Workspace} {base p : Path} (h : moduleFile? w base = .ok (some p)) :
    p.Resolved ∧ w.files.isFile p.parts = true := by
  unfold moduleFile? at h
  split at h
  · cases h
  obtain ⟨r, hr, h⟩ := Results.bind_eq_ok.mp h
  cases r with
  | none => exact existing?_eq_some h
  | some q =>
    cases h
    exact existing?_eq_some hr

theorem isTarget_of_mem_targets {w : Workspace} {file : Path} {ref : Source.ImportRef} {ps : List Path}
    (h : targets w file ref = .ok ps) {p : Path} (hp : p ∈ ps) : IsTarget w p := by
  obtain ⟨found, hfound, h⟩ := Results.bind_eq_ok.mp h
  cases h
  obtain ⟨hp, hwithin⟩ := List.mem_filter.mp hp
  suffices hfile : p.Resolved ∧ w.files.isFile p.parts = true from ⟨hfile.1, hfile.2, hwithin⟩
  generalize searchRoots w file ref = roots at hfound
  induction roots with
  | nil =>
    cases hfound
    cases hp
  | cons root roots ih =>
    obtain ⟨below, hbelow, hfound⟩ := Results.bind_eq_ok.mp hfound
    split at hfound
    · exact ih hfound
    · cases hfound
      obtain ⟨own, hown, hbelow⟩ := Results.bind_eq_ok.mp hbelow
      obtain ⟨named, hnamed, hbelow⟩ := Results.bind_eq_ok.mp hbelow
      cases hbelow
      rcases List.mem_append.mp hp with hp | hp
      · obtain rfl := Option.mem_toList.mp hp
        exact moduleFile?_eq_some hown
      · obtain ⟨o, ho, e⟩ := List.mem_filterMap.mp hp
        obtain ⟨n, -, hn⟩ := Results.exists_of_mem_mapM hnamed ho
        cases e
        exact moduleFile?_eq_some hn

/-- The module of another file, named by the URI of the file. -/
structure IsForeign (w : Workspace) (n : Node) : Prop where
  id_eq : n.id = n.uri
  target : ∃ p, IsTarget w p ∧ n.uri = Uri.ofResolved p
  readable : ∃ d, w.read n.uri = .ok (.text d)

theorem foreignNode?_of_read {w : Workspace} {p : Path} {d : Document}
    (h : w.read (Uri.ofResolved p) = .ok (.text d)) : foreignNode? w p =
      .ok (some ⟨Uri.ofResolved p, Uri.ofResolved p, d.fullSpan, none, .module, p.stem⟩) := by
  unfold foreignNode?
  rw [h]
  obtain ⟨_, _, _, _, _, rfl⟩ := Workspace.read_eq_text h
  rfl

theorem foreignNode?_eq_some {w : Workspace} {p : Path} {n : Node} (h : foreignNode? w p = .ok (some n)) :
    n.id = Uri.ofResolved p ∧ n.uri = Uri.ofResolved p ∧
      ∃ d, w.read (Uri.ofResolved p) = .ok (.text d) := by
  have hread : ∃ d, w.read (Uri.ofResolved p) = .ok (.text d) := by
    obtain ⟨reading, hreading, h⟩ := Results.bind_eq_ok.mp h
    have hreading := Results.mapError_eq_ok.mp hreading
    cases reading with
    | text d => exact ⟨d, hreading⟩
    | absent => cases h
    | unreadable path e => cases h
  obtain ⟨d, hread⟩ := hread
  rw [foreignNode?_of_read hread] at h
  cases h
  exact ⟨rfl, rfl, d, hread⟩

theorem isForeign_of_foreignNode? {w : Workspace} {p : Path} (hp : IsTarget w p) {n : Node}
    (h : foreignNode? w p = .ok (some n)) : IsForeign w n := by
  obtain ⟨hid, huri, d, hread⟩ := foreignNode?_eq_some h
  exact ⟨hid.trans huri.symm, ⟨p, hp, huri⟩, ⟨d, by rw [huri, hread]⟩⟩

theorem Linked.mem_iff {w : Workspace} {path : Path} {refs : List Source.ImportRef} {foreign : List Node}
    (h : Linked w path refs foreign) {f : Node} : f ∈ foreign ↔ ∃ ref ∈ refs, ∃ ps p,
      targets w path ref = .ok ps ∧ p ∈ ps ∧ foreignNode? w p = .ok (some f) := by
  obtain ⟨found, nodes, hfound, hnodes, rfl⟩ := h
  constructor
  · intro hf
    obtain ⟨o, ho, rfl⟩ := List.mem_filterMap.mp hf
    obtain ⟨p, hp, hnode⟩ := Results.exists_of_mem_mapM hnodes ho
    obtain ⟨ps, hps, hp⟩ := List.mem_flatten.mp (List.mem_eraseDups.mp hp)
    obtain ⟨ref, href, htargets⟩ := Results.exists_of_mem_mapM hfound hps
    exact ⟨ref, href, ps, p, htargets, hp, hnode⟩
  · rintro ⟨ref, href, ps, p, htargets, hp, hnode⟩
    obtain ⟨ps', hps', htargets'⟩ := Results.exists_mem_of_mapM hfound href
    cases htargets.symm.trans htargets'
    have hmem : p ∈ found.flatten.eraseDups := List.mem_eraseDups.mpr (List.mem_flatten.mpr ⟨_, hps', hp⟩)
    obtain ⟨o, ho, hnode'⟩ := Results.exists_mem_of_mapM hnodes hmem
    cases hnode.symm.trans hnode'
    exact List.mem_filterMap.mpr ⟨_, ho, rfl⟩

theorem Linked.isForeign {w : Workspace} {path : Path} {refs : List Source.ImportRef} {foreign : List Node}
    (h : Linked w path refs foreign) : ∀ f ∈ foreign, IsForeign w f := by
  intro f hf
  obtain ⟨ref, -, ps, p, htargets, hp, hnode⟩ := h.mem_iff.mp hf
  exact isForeign_of_foreignNode? (isTarget_of_mem_targets htargets hp) hnode

theorem IsForeign.hash_not_mem {w : Workspace} {n : Node} (h : IsForeign w n) : '#' ∉ n.id.toList := by
  obtain ⟨p, -, hp⟩ := h.target
  rw [h.id_eq, hp]
  exact NodeId.hash_not_mem_ofResolved p

/-- The other documents that a code map has nodes of. -/
def foreignSet (uri : String) (m : CodeMap) : IdSet :=
  .ofList ((m.nodes.values.map (·.uri)).filter (· ≠ uri))

theorem mem_foreignSet {uri a : String} {m : CodeMap} :
    a ∈ foreignSet uri m ↔ a ≠ uri ∧ ∃ k n, m.nodes.find? k = some n ∧ n.uri = a := by
  simp only [foreignSet, IdSet.mem_ofList, List.mem_filter, List.mem_map, Table.mem_values_iff,
    decide_eq_true_eq]
  constructor
  · rintro ⟨⟨n, ⟨k, hk⟩, e⟩, hne⟩
    exact ⟨hne, k, n, hk, e⟩
  · rintro ⟨hne, k, n, hk, e⟩
    exact ⟨⟨n, ⟨k, hk⟩, e⟩, hne⟩

/-- What is true of the contribution of the document at `uri`. -/
structure Contribution (w : Workspace) (uri : String) (m : CodeMap) : Prop where
  keyed : ∀ k n, m.nodes.find? k = some n → n.id = k
  nodes : ∀ k n, m.nodes.find? k = some n → n.OwnedBy uri ∨ (n.uri ≠ uri ∧ IsForeign w n)
  module : m.nodes.entries ≠ [] → ∃ n, m.nodes.find? uri = some n ∧ n.OwnedBy uri
  imports : ∀ k, m.imports.find? k =
    if k = uri ∧ foreignSet uri m ≠ .empty then some (foreignSet uri m) else none
  exports : ∀ k, m.exports.find? k = if k ∈ foreignSet uri m then some (.ofList [uri]) else none

theorem contribution_empty (w : Workspace) (uri : String) : Contribution w uri empty where
  keyed _ _ h := by cases h
  nodes _ _ h := by cases h
  module h := absurd rfl h
  imports _ := (if_neg fun h => h.2 rfl).symm
  exports _ := rfl

section Linked

variable {w : Workspace} {d : Document} {path : Path} {xs : List Source.Located}
  (hxs : Source.Located.LaidAll d.text.toList xs)
include hxs

/-- A node of a contribution is the document's own or that of a linked module. -/
theorem find?_nodes_linked {foreign : List Node}
    (hf : ∀ f ∈ foreign, IsForeign w f) {k : String} {n : Node}
    (h : (foreign.foldl (link d.uri) ⟨ownNodes d path xs, .empty, .empty⟩).nodes.find? k = some n) :
    n.id = k ∧ (n.OwnedBy d.uri ∨ (n.uri ≠ d.uri ∧ n ∈ foreign)) := by
  rcases find?_nodes_foldl_link h with h | ⟨hn, hk, hne⟩
  · exact ⟨(find?_ownNodes hxs h).1, .inl (find?_ownNodes hxs h).2⟩
  · exact ⟨hk, .inr ⟨(hf n hn).id_eq ▸ hne, hn⟩⟩

theorem linkedIds_eq_foreignSet {foreign : List Node}
    (hf : ∀ f ∈ foreign, IsForeign w f) : linkedIds d.uri foreign =
      foreignSet d.uri (foreign.foldl (link d.uri) ⟨ownNodes d path xs, .empty, .empty⟩) := by
  apply IdSet.ext
  intro a
  rw [mem_foreignSet]
  simp only [linkedIds, IdSet.mem_ofList, List.mem_filter, List.mem_map, decide_eq_true_eq]
  constructor
  · rintro ⟨⟨f, hmem, rfl⟩, hne⟩
    have hsome := isSome_find?_nodes_foldl_link (m := ⟨ownNodes d path xs, .empty, .empty⟩)
      (.inr ⟨f, hmem, rfl, hne⟩)
    obtain ⟨n, hn⟩ := Option.isSome_iff_exists.mp hsome
    obtain ⟨hid, hcase⟩ := find?_nodes_linked hxs hf hn
    refine ⟨hne, f.id, n, hn, ?_⟩
    rcases hcase with hown | ⟨-, hmem'⟩
    · -- a definition has a fragment, which no URI of a file has
      cases hown with
      | module _ hid' => exact absurd (hid.symm.trans hid') hne
      | definition _ hid' =>
        have hhash := (hf f hmem).hash_not_mem
        rw [← hid, hid', NodeId.make_eq, NodeId.withFragment, if_neg (NodeId.fragment_ne_empty _)] at hhash
        simp at hhash
    · exact (hf n hmem').id_eq.symm.trans hid
  · rintro ⟨hne, k, n, hn, rfl⟩
    rcases (find?_nodes_linked hxs hf hn).2 with hown | ⟨-, hmem⟩
    · exact absurd hown.uri_eq hne
    · exact ⟨⟨n, hmem, (hf n hmem).id_eq⟩, hne⟩

theorem contribution_link {foreign : List Node}
    (hf : ∀ f ∈ foreign, IsForeign w f) :
    Contribution w d.uri (foreign.foldl (link d.uri) ⟨ownNodes d path xs, .empty, .empty⟩) := by
  refine ⟨fun k n h => (find?_nodes_linked hxs hf h).1, ?_, ?_, ?_, ?_⟩
  · intro k n h
    exact (find?_nodes_linked hxs hf h).2.imp_right fun ⟨hne, hmem⟩ => ⟨hne, hf n hmem⟩
  · intro _
    exact ⟨_, find?_foldl_link_of_find? (find?_ownNodes_uri d path xs), .module rfl rfl rfl⟩
  · intro k
    rw [find?_imports_foldl_link, linkedIds_eq_foreignSet hxs hf]
  · intro k
    rw [find?_exports_foldl_link, linkedIds_eq_foreignSet hxs hf]

end Linked

/-- The definitions that a backend finds are nested and disjoint pieces of the text. -/
theorem laidAll_outline {b : Backend} {d : Document} {o : Source.Outline} (h : outline b d = .ok o) :
    Source.Located.LaidAll d.text.toList o.definitions := by
  unfold outline at h
  cases b with
  | unavailable => cases h
  | program p =>
    dsimp only at h
    split at h
    · cases h
    cases hparse : p.parse d.text.toList with
    | none =>
      rw [hparse] at h
      cases h
    | some ss =>
      rw [hparse] at h
      cases h
      exact Source.Program.Statement.laidAll_locatedAll ss (p.laid _ ss hparse)
  | tree p stack =>
    dsimp only at h
    split at h
    · cases h
    · cases h
      exact p.laid d.text.toList

theorem contribution_ofDocument {b : Backend} {w : Workspace} {d : Document} {m : CodeMap}
    (h : ofDocument b w d = .ok m) : Contribution w d.uri m := by
  rcases ofDocument_cases h with rfl | ⟨path, o, foreign, -, -, ho, hlinked, rfl⟩
  · exact contribution_empty w d.uri
  · exact contribution_link (laidAll_outline ho) hlinked.isForeign

theorem Contribution.mem_ownNodes {w : Workspace} {uri : String} {m : CodeMap} (h : Contribution w uri m)
    {n : Node} : n ∈ Pass.ownNodes uri m ↔ m.nodes.find? n.id = some n ∧ n.OwnedBy uri := by
  rw [Pass.ownNodes, List.mem_filter, Table.mem_values_iff]
  constructor
  · intro ⟨⟨k, hk⟩, huri⟩
    refine ⟨(h.keyed k n hk).symm ▸ hk, ?_⟩
    rcases h.nodes k n hk with hown | ⟨hne, -⟩
    · exact hown
    · exact absurd (by simpa using huri) hne
  · intro ⟨hfind, hown⟩
    exact ⟨⟨_, hfind⟩, by simpa using hown.uri_eq⟩

/-- The module is among the nodes of a document that has any. -/
theorem Contribution.exists_module {w : Workspace} {uri : String} {m : CodeMap} (h : Contribution w uri m)
    (hnodes : m.nodes.entries ≠ []) : ∃ n ∈ Pass.ownNodes uri m, n.id = uri := by
  obtain ⟨n, hn, hown⟩ := h.module hnodes
  have hid := h.keyed _ n hn
  exact ⟨n, h.mem_ownNodes.mpr ⟨hid.symm ▸ hn, hown⟩, hid⟩

/-- Each other document that a contribution has nodes of comes with its module. -/
theorem Contribution.find?_of_mem_foreignSet {w : Workspace} {uri : String} {m : CodeMap}
    (h : Contribution w uri m) {a : String} (ha : a ∈ foreignSet uri m) : ∃ n, m.nodes.find? a = some n := by
  obtain ⟨hne, k, n, hk, huri⟩ := mem_foreignSet.mp ha
  rcases h.nodes k n hk with hown | ⟨-, hforeign⟩
  · exact absurd (huri.symm.trans hown.uri_eq) hne
  · have hkey : k = a := (h.keyed k n hk).symm.trans (hforeign.id_eq.trans huri)
    exact ⟨n, hkey ▸ hk⟩

/-- One of the imports of a document resolves to a file. -/
def Refers (b : Backend) (w : Workspace) (d : Document) (q : Path) : Prop :=
  ∃ path o ref ps, Uri.toPath d.uri = .ok path ∧ outline b d = .ok o ∧
    ref ∈ o.refs ∧ targets w path ref = .ok ps ∧ q ∈ ps

/-- The other documents that a contribution has nodes of are those of the files that its imports
resolve to, where they can be read. -/
theorem mem_foreignSet_ofDocument {b : Backend} {w : Workspace} {d : Document} {m : CodeMap}
    (h : ofDocument b w d = .ok m) (hnodes : m.nodes.entries ≠ []) {a : String} :
    a ∈ foreignSet d.uri m ↔ a ≠ d.uri ∧ (∃ d', w.read a = .ok (.text d')) ∧
      ∃ q, Refers b w d q ∧ a = Uri.ofResolved q := by
  rcases ofDocument_cases h with rfl | ⟨path, o, foreign, hpath, -, ho, hlinked, rfl⟩
  · exact absurd rfl hnodes
  rw [← linkedIds_eq_foreignSet (laidAll_outline ho) hlinked.isForeign]
  simp only [linkedIds, IdSet.mem_ofList, List.mem_filter, List.mem_map, decide_eq_true_eq]
  rw [and_comm]
  refine and_congr_right fun hne => ?_
  constructor
  · rintro ⟨f, hf, rfl⟩
    obtain ⟨ref, href, ps, q, htargets, hq, hnode⟩ := hlinked.mem_iff.mp hf
    obtain ⟨hid, -, hread⟩ := foreignNode?_eq_some hnode
    rw [hid]
    exact ⟨hread, q, ⟨path, o, ref, ps, hpath, ho, href, htargets, hq⟩, rfl⟩
  · rintro ⟨⟨d', hread⟩, q, ⟨path', o', ref, ps, hpath', ho', href, htargets, hq⟩, rfl⟩
    cases hpath.symm.trans hpath'
    cases ho.symm.trans ho'
    exact ⟨_, hlinked.mem_iff.mpr ⟨ref, href, ps, q, htargets, hq, foreignNode?_of_read hread⟩, rfl⟩

end CodeMap

end OutlineIndex
