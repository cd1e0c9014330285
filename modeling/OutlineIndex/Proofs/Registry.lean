import OutlineIndex.Proofs.Alone
import OutlineIndex.Proofs.Converse
import OutlineIndex.Proofs.Targets

namespace OutlineIndex

namespace CodeGraph

/-- A document is entered as it was parsed, and its identifiers are found again from their relative
forms. -/
inductive Change.Faithful (cwd base : Path) : Change → Prop
  | enter {b : Backend} {w : Workspace} {file : Path} {uri text path sha : String} {m : CodeMap}
      {ids : List String} (file_eq : Uri.toPath uri = .ok file)
      (path_eq : Uri.relativePath cwd base file = path)
      (parsed : CodeMap.ofDocument b w ⟨uri, text⟩ = .ok m)
      (ids_eq : ((Pass.ownNodes uri m).mapM fun n => NodeId.toRelative cwd base n.id) = .ok ids)
      (back : ∀ n ∈ Pass.ownNodes uri m,
        (NodeId.toRelative cwd base n.id).map (NodeId.absolute base) = .ok n.id) :
      Faithful cwd base (.enter uri path ⟨.ofList ids, sha⟩ m)
  | remove (path : String) : Faithful cwd base (.remove path)

/-- What is entered has nodes, and the URI of the document has no fragment. -/
def Change.HasModule : Change → Prop
  | .enter uri _ _ m => '#' ∉ uri.toList ∧ m.nodes.entries ≠ []
  | .remove _ => True

instance : ∀ c : Change, Decidable c.HasModule
  | .enter uri _ _ m => inferInstanceAs (Decidable ('#' ∉ uri.toList ∧ m.nodes.entries ≠ []))
  | .remove _ => inferInstanceAs (Decidable True)

/-- A file that listed an identifier was entered without it, and since then nothing was entered that has
it among its nodes. -/
def Dropped (g : CodeGraph) (x : String) : List Change → Prop
  | [] => False
  | .enter _ path _ m :: h => m.nodes.find? x = none ∧ (x ∈ (g.after h).listed path ∨ g.Dropped x h)
  | .remove _ :: h => g.Dropped x h

theorem node?_apply_remove (g : CodeGraph) (path k : String) :
    (g.apply (.remove path)).node? k = if k ∈ g.listed path then none else g.node? k := by
  rw [apply, remove]
  split
  · rename_i hentry
    have hout : k ∉ g.listed path := listed_eq_empty (by rw [hentry]; rfl) k
    rw [if_neg hout]
  · rename_i e hentry
    have hlisted : g.absoluteSet e.nodeIds = g.listed path := by
      rw [listed, hentry]
      rfl
    rw [hlisted]
    change (g.nodes.filter fun k _ => !(g.listed path).contains k).find? k = _
    rw [Table.find?_filter, node?]
    by_cases hk : k ∈ g.listed path <;> cases g.nodes.find? k <;> simp [hk, Option.filter]

/-- The edges after a document is entered are its own and some that were there. -/
theorem imports_enter_cases {g : CodeGraph} {w : Workspace} {uri path a x : String} {e : FileEntry}
    {m : CodeMap} (hm : CodeMap.Contribution w uri m)
    (hedge : (g.apply (.enter uri path e m)).Imports a x) :
    x ∈ CodeMap.foreignSet uri m ∨ g.Imports a x := by
  rw [Imports, apply, imports_update, hasEdge_replaced] at hedge
  refine hedge.imp ?_ And.left
  rintro ⟨s, hs, hx⟩
  rw [hm.imports] at hs
  split at hs
  · obtain rfl := Option.some.inj hs
    exact hx
  · cases hs

/-- Under an identifier the graph knows only the node that has it. -/
def Keyed (g : CodeGraph) : Prop := ∀ x n, g.node? x = some n → n.id = x

/-- What an edge leads to is known, unless it was dropped. -/
structure Registered (g : CodeGraph) (h : List Change) : Prop where
  keyed : (g.after h).Keyed
  dropped : ∀ a x, (g.after h).Imports a x → ((g.after h).node? x = none ↔ g.Dropped x h)

namespace Registered

variable {g : CodeGraph} {h : List Change}

theorem enter {w : Workspace} {uri path : String} {e : FileEntry} {m : CodeMap} (hr : g.Registered h)
    (hm : CodeMap.Contribution w uri m) : g.Registered (.enter uri path e m :: h) := by
  have hnode : ∀ x, (g.after (.enter uri path e m :: h)).node? x = (m.nodes.find? x).or
      (if x ∈ (g.after h).listed path then none else (g.after h).node? x) := node?_apply_enter _ hm
  refine ⟨fun x n hn => ?_, fun a x hedge => ?_⟩
  · rw [hnode, Option.or_eq_some_iff] at hn
    rcases hn with hn | ⟨-, hn⟩
    · exact hm.keyed x n hn
    · split at hn
      · cases hn
      · exact hr.keyed x n hn
  · rw [hnode, Option.or_eq_none_iff, Dropped]
    refine and_congr_right fun hnone => ?_
    rcases imports_enter_cases hm hedge with hnew | hold
    · obtain ⟨n, hn⟩ := hm.find?_of_mem_foreignSet hnew
      cases hnone.symm.trans hn
    · by_cases hlisted : x ∈ (g.after h).listed path
      · simp [hlisted]
      · simpa [hlisted] using hr.dropped a x hold

theorem remove (hr : g.Registered h) (path : String) : g.Registered (.remove path :: h) := by
  have hnode : ∀ x, (g.after (.remove path :: h)).node? x =
      if x ∈ (g.after h).listed path then none else (g.after h).node? x := node?_apply_remove _ path
  refine ⟨fun x n hn => ?_, fun a x hedge => ?_⟩
  · rw [hnode] at hn
    split at hn
    · cases hn
    · exact hr.keyed x n hn
  · obtain ⟨hold, -, hout⟩ := imports_remove_iff.mp hedge
    rw [hnode, if_neg hout]
    exact hr.dropped a x hold

end Registered

theorem registered_empty {cwd base : Path} {h : List Change} (hfaithful : ∀ c ∈ h, c.Faithful cwd base) :
    (empty base).Registered h := by
  induction h with
  | nil =>
    refine ⟨fun x n hn => ?_, fun a x hedge => ?_⟩
    · cases hn
    · obtain ⟨s, hs, -⟩ := hedge
      cases hs
  | cons c h ih =>
    have hr := ih fun c' hc' => hfaithful c' (List.mem_cons_of_mem c hc')
    have hc := hfaithful c List.mem_cons_self
    cases hc with
    | enter _ _ hm => exact hr.enter (CodeMap.contribution_ofDocument hm)
    | remove path => exact hr.remove path

section Faithful

variable {cwd base : Path} {uri path : String} {e : FileEntry} {m : CodeMap}

/-- A URI that is found again from its relative form is found from the path of its file. -/
theorem absolute_relativePath_of_back {file : Path} (hfile : Uri.toPath uri = .ok file)
    (hash : '#' ∉ uri.toList)
    (hback : (NodeId.toRelative cwd base uri).map (NodeId.absolute base) = .ok uri) :
    NodeId.absolute base (Uri.relativePath cwd base file) = uri := by
  have hsplit : NodeId.split uri = (uri, "") := by
    rw [NodeId.split, NodeId.splitChars_of_not_mem hash]
    exact congrArg (·, "") String.ofList_toList
  have habs : NodeId.isAbsolute uri = true := by
    by_contra hrelative
    rw [NodeId.toRelative, if_neg hrelative] at hback
    have hself : NodeId.absolute base uri = uri := Except.ok.inj hback
    rw [NodeId.absolute, if_neg hrelative] at hself
    -- what has been made absolute is recognised as such
    have hmade := NodeId.isAbsolute_ofResolved (Path.resolve base (base ++ Path.ofString (NodeId.split uri).1))
      (NodeId.split uri).2
    exact hrelative (hself ▸ hmade)
  have hto : NodeId.toRelative cwd base uri = .ok (Uri.relativePath cwd base file) := by
    rw [NodeId.toRelative, if_pos habs, hsplit]
    simp only [hfile]
    rfl
  rw [hto] at hback
  exact Except.ok.inj hback

/-- A document with nodes lists its module under the path of its file, and all its other identifiers
have fragments. -/
theorem Change.Faithful.eq_uri (hc : (Change.enter uri path e m).Faithful cwd base)
    (hmodule : (Change.enter uri path e m).HasModule) :
    NodeId.absolute base path = uri ∧
      ∀ x ∈ (Change.enter uri path e m).ids base, '#' ∉ x.toList → x = uri := by
  obtain ⟨hfragment, hnodes⟩ := hmodule
  cases hc with
  | enter hfile hpath hm hids hback =>
    have hcontribution : CodeMap.Contribution _ uri m := CodeMap.contribution_ofDocument hm
    constructor
    · obtain ⟨n, hn, hid⟩ := hcontribution.exists_module hnodes
      rw [← hpath]
      exact absolute_relativePath_of_back hfile hfragment (hid ▸ hback n hn)
    · intro x hx hash
      rw [Change.ids, IdSet.mem_ofList, List.mem_map] at hx
      obtain ⟨id, hid, rfl⟩ := hx
      obtain ⟨n, hn, hrelative⟩ := Results.exists_of_mem_mapM hids (IdSet.mem_ofList.mp hid)
      have hfound := hback n hn
      rw [hrelative] at hfound
      have habs : NodeId.absolute base id = n.id := Except.ok.inj hfound
      rw [habs] at hash ⊢
      cases (hcontribution.mem_ownNodes.mp hn).2 with
      | module _ hid => exact hid
      | definition _ hid =>
        rw [hid, NodeId.make_eq, NodeId.withFragment, if_neg (NodeId.fragment_ne_empty _)] at hash
        simp at hash

end Faithful

/-- The modules that a graph lists stand each under its own path, edges lead to modules only, and none
that they lead to was dropped. -/
structure Grounded (base : Path) (h : List Change) : Prop where
  listed : ∀ path x, x ∈ ((empty base).after h).listed path → '#' ∉ x.toList → x = NodeId.absolute base path
  targets : ∀ a x, ((empty base).after h).Imports a x → '#' ∉ x.toList
  kept : ∀ a x, ((empty base).after h).Imports a x → ¬(empty base).Dropped x h

namespace Grounded

variable {cwd base : Path} {h : List Change}

theorem enter {uri path : String} {e : FileEntry} {m : CodeMap} (hg : Grounded base h)
    (hc : (Change.enter uri path e m).Faithful cwd base)
    (hmodule : (Change.enter uri path e m).HasModule) : Grounded base (.enter uri path e m :: h) := by
  obtain ⟨habs, hids⟩ := hc.eq_uri hmodule
  obtain ⟨w, hm⟩ : ∃ w, CodeMap.Contribution w uri m := by
    cases hc with
    | enter _ _ hm => exact ⟨_, CodeMap.contribution_ofDocument hm⟩
  refine ⟨fun path' x hx hash => ?_, fun a x hedge => ?_, fun a x hedge hdropped => ?_⟩
  · rw [after, mem_listed_enter, workspace_after] at hx
    split at hx
    · rename_i hpath
      rw [hpath, habs]
      exact hids x hx hash
    · exact hg.listed path' x hx hash
  · rcases imports_enter_cases hm hedge with hnew | hold
    · obtain ⟨hne, k, n, hk, rfl⟩ := CodeMap.mem_foreignSet.mp hnew
      rcases hm.nodes k n hk with hown | ⟨-, hforeign⟩
      · exact absurd hown.uri_eq hne
      · exact hforeign.id_eq ▸ hforeign.hash_not_mem
    · exact hg.targets a x hold
  · obtain ⟨hnone, hearlier⟩ := hdropped
    rcases imports_enter_cases hm hedge with hnew | hold
    · obtain ⟨n, hn⟩ := hm.find?_of_mem_foreignSet hnew
      cases hnone.symm.trans hn
    · rcases hearlier with hlisted | hdropped
      · -- the only module that the file can have listed is the one that it brings again
        have hx := hg.listed path x hlisted (hg.targets a x hold)
        obtain ⟨n, hn, -⟩ := hm.module hmodule.2
        rw [hx, habs, hn] at hnone
        cases hnone
      · exact hg.kept a x hold hdropped

theorem remove (hg : Grounded base h) (path : String) : Grounded base (.remove path :: h) := by
  refine ⟨fun path' x hx hash => ?_, fun a x hedge => ?_, fun a x hedge hdropped => ?_⟩
  · rw [after, mem_listed_remove] at hx
    exact hg.listed path' x hx.2 hash
  · exact hg.targets a x (imports_remove_iff.mp hedge).1
  · exact hg.kept a x (imports_remove_iff.mp hedge).1 hdropped

end Grounded

theorem grounded_of_hasModule {cwd base : Path} {h : List Change} (hfaithful : ∀ c ∈ h, c.Faithful cwd base)
    (hmodule : ∀ c ∈ h, c.HasModule) : Grounded base h := by
  induction h with
  | nil =>
    have hnone : ∀ a x, ¬(empty base).Imports a x := by
      rintro a x ⟨s, hs, -⟩
      cases hs
    refine ⟨fun path x hx _ => ?_, fun a x hedge => absurd hedge (hnone a x), fun a x _ => id⟩
    obtain ⟨e, he, -⟩ := mem_listed.mp hx
    cases he
  | cons c h ih =>
    have hg := ih (fun c' hc' => hfaithful c' (List.mem_cons_of_mem c hc')) fun c' hc' =>
      hmodule c' (List.mem_cons_of_mem c hc')
    cases c with
    | enter uri path e m => exact hg.enter (hfaithful _ List.mem_cons_self) (hmodule _ List.mem_cons_self)
    | remove path => exact hg.remove path

/-- If the graph knows all that a node imports, none of it is left out of what the node is related to. -/
theorem map_id_related {g : CodeGraph} (hkeyed : g.Keyed) {n : Node}
    (hknown : ∀ x, g.Imports n.id x → (g.node? x).isSome) :
    (Skeleton.related g n).map (·.id) = ((g.importsOf? n.id).getD .empty).toList := by
  have hall : ∀ x ∈ ((g.importsOf? n.id).getD .empty).toList, (g.node? x).map (·.id) = some x := by
    intro x hx
    cases hfind : g.importsOf? n.id with
    | none =>
      rw [hfind] at hx
      cases hx
    | some s =>
      rw [hfind] at hx
      obtain ⟨n', hn'⟩ := Option.isSome_iff_exists.mp (hknown x ⟨s, hfind, hx⟩)
      rw [hn', Option.map_some, hkeyed x n' hn']
  rw [Skeleton.related, List.map_filterMap]
  exact (List.filterMap_congr hall).trans List.filterMap_some

/-- Which import edges lead to nodes that the graph knows, after documents have been entered and removed
in any order. An edge leads to an unknown one exactly if a file that listed it was entered without it,
and nothing that brings it since. That does not happen as long as the documents that are entered have
nodes; then nothing that a node imports is left out of what it is related to. -/
theorem known_unless_dropped {cwd base : Path} {h : List Change}
    (hfaithful : ∀ c ∈ h, c.Faithful cwd base) :
    let g := (empty base).after h
    (∀ a x, g.Imports a x → (g.node? x = none ↔ (empty base).Dropped x h)) ∧
      ((∀ c ∈ h, c.HasModule) → (∀ a x, g.Imports a x → (g.node? x).isSome) ∧
        ∀ n, (Skeleton.related g n).map (·.id) = ((g.importsOf? n.id).getD .empty).toList) := by
  intro g
  have hr := registered_empty hfaithful
  refine ⟨hr.dropped, fun hmodule => ?_⟩
  have hknown : ∀ a x, g.Imports a x → (g.node? x).isSome := by
    intro a x hedge
    rw [Option.isSome_iff_ne_none]
    exact fun hnone => (grounded_of_hasModule hfaithful hmodule).kept a x hedge ((hr.dropped a x hedge).mp hnone)
  exact ⟨hknown, fun n => map_id_related hr.keyed (hknown n.id)⟩

section Sample

theorem Change.Parsed.faithful {cwd base : Path} {uri path : String} {e : FileEntry} {m : CodeMap}
    (hc : (Change.enter uri path e m).Parsed cwd base)
    (hback : ∀ n ∈ Pass.ownNodes uri m,
      (NodeId.toRelative cwd base n.id).map (NodeId.absolute base) = .ok n.id) :
    (Change.enter uri path e m).Faithful cwd base := by
  cases hc with
  | enter hq huri hpath hm hids => exact .enter (huri ▸ hq.toPath) hpath hm hids hback

theorem faithful_sampleEnter_import : (sampleEnter "a" (some "b")).Faithful sampleCwd sampleBase :=
  parsed_sampleEnter_import.faithful (by decide +kernel)

theorem faithful_sampleEnter_none : (sampleEnter "b" none).Faithful sampleCwd sampleBase :=
  Change.Parsed.faithful (parsed_sampleEnter_none (by decide)) (by decide +kernel)

/-- The module `b`, which `a` imports, is entered again. -/
theorem known_unless_dropped_reentered :
    let g := (empty sampleBase).after
      [sampleEnter "b" none, sampleEnter "b" none, sampleEnter "a" (some "b")]
    g.Imports (sampleUri "a") (sampleUri "b") ∧ ∀ a x, g.Imports a x → (g.node? x).isSome := by
  have hfaithful : ∀ c ∈ [sampleEnter "b" none, sampleEnter "b" none, sampleEnter "a" (some "b")],
      c.Faithful sampleCwd sampleBase := by
    simp [faithful_sampleEnter_import, faithful_sampleEnter_none]
  have hmodule : ∀ c ∈ [sampleEnter "b" none, sampleEnter "b" none, sampleEnter "a" (some "b")],
      c.HasModule := by decide +kernel
  exact ⟨by decide +kernel, ((known_unless_dropped hfaithful).2 hmodule).1⟩

/-- The module `b`, which `a` imports, is entered once more as a blank text: the edge to it stays, and
leads to nothing. -/
theorem unknown_after_blank :
    let h := [Change.enter (sampleUri "b") "b.py" ⟨.ofList [], ""⟩ .empty, sampleEnter "b" none,
      sampleEnter "a" (some "b")]
    (∀ c ∈ h, c.Faithful sampleCwd sampleBase) ∧
      ((empty sampleBase).after h).Imports (sampleUri "a") (sampleUri "b") ∧
      ((empty sampleBase).after h).node? (sampleUri "b") = none := by
  have hfile : Uri.toPath (sampleUri "b") = .ok ⟨.root, ["tmp", "w", "ws", "b.py"]⟩ := by decide +kernel
  have hblank : CodeMap.ofDocument .tolerant (Index.sampleWorkspace []) ⟨sampleUri "b", "\n"⟩ = .ok .empty := by
    decide +kernel
  have hentered : (Change.enter (sampleUri "b") "b.py" ⟨.ofList [], ""⟩ .empty).Faithful sampleCwd sampleBase :=
    .enter hfile (by decide +kernel) hblank (by decide +kernel) (by decide +kernel)
  refine ⟨?_, by decide +kernel⟩
  simp [hentered, faithful_sampleEnter_import, faithful_sampleEnter_none]

end Sample

end CodeGraph

end OutlineIndex
