import OutlineIndex.Proofs.Changes

namespace OutlineIndex

namespace CodeGraph

/-- The document of a file is entered as it was parsed: with its contribution, the relative identifiers
of its own nodes, and any digest. -/
inductive Change.Parsed (cwd base : Path) : Change → Prop
  | enter {b : Backend} {w : Workspace} {q : Path} {uri text path sha : String} {m : CodeMap}
      {ids : List String} (canonical : Path.Canonical cwd q) (uri_eq : Uri.ofResolved q = uri)
      (path_eq : Uri.relativePath cwd base q = path)
      (parsed : CodeMap.ofDocument b w ⟨uri, text⟩ = .ok m)
      (ids_eq : ((Pass.ownNodes uri m).mapM fun n => NodeId.toRelative cwd base n.id) = .ok ids) :
      Parsed cwd base (.enter uri path ⟨.ofList ids, sha⟩ m)
  | remove (path : String) : Parsed cwd base (.remove path)

/-- A change decides whether `a` imports `b`: it enters `a`, and with the import, or so that all edges
of `a` are replaced. They are not when the path of `a`, read as an identifier, is not that of `a`. -/
def Change.Decides (base : Path) (a b : String) : Change → Prop
  | .enter uri path _ m => uri = a ∧ (b ∈ CodeMap.foreignSet uri m ∨ NodeId.absolute base path = uri)
  | .remove _ => False

instance (base : Path) (a b : String) : ∀ x : Change, Decidable (x.Decides base a b)
  | .enter uri path _ m => inferInstanceAs
      (Decidable (uri = a ∧ (b ∈ CodeMap.foreignSet uri m ∨ NodeId.absolute base path = uri)))
  | .remove _ => inferInstanceAs (Decidable False)

/-- The last change that decides whether `a` imports `b` enters it with the import. -/
def LastImports (base : Path) (a b : String) : List Change → Prop
  | [] => False
  | .enter uri path e m :: h =>
    if (Change.enter uri path e m).Decides base a b then b ∈ CodeMap.foreignSet uri m
    else LastImports base a b h
  | .remove _ :: h => LastImports base a b h

/-- Since the last change that decides whether `a` imports `b`, a file was removed that listed `a` or `b`. -/
def Removed (g : CodeGraph) (a b : String) : List Change → Prop
  | [] => False
  | .enter uri path e m :: h =>
    ¬(Change.enter uri path e m).Decides g.workspace a b ∧ g.Removed a b h
  | .remove path :: h => (a ∈ (g.after h).listed path ∨ b ∈ (g.after h).listed path) ∨ g.Removed a b h

/-- Since the last change that decides whether `a` imports `b`, the document `b` was entered while the
graph listed it already. -/
def Reentered (g : CodeGraph) (a b : String) : List Change → Prop
  | [] => False
  | .enter uri path e m :: h => ¬(Change.enter uri path e m).Decides g.workspace a b ∧
      ((uri = b ∧ b ∈ (g.after h).listed path) ∨ g.Reentered a b h)
  | .remove _ :: h => g.Reentered a b h

instance decidableLastImports (base : Path) (a b : String) : ∀ h, Decidable (LastImports base a b h)
  | [] => inferInstanceAs (Decidable False)
  | .enter uri path e m :: h =>
    have := decidableLastImports base a b h
    inferInstanceAs (Decidable (if (Change.enter uri path e m).Decides base a b
      then b ∈ CodeMap.foreignSet uri m else LastImports base a b h))
  | .remove _ :: h => decidableLastImports base a b h

instance decidableRemoved (g : CodeGraph) (a b : String) : ∀ h, Decidable (g.Removed a b h)
  | [] => inferInstanceAs (Decidable False)
  | .enter uri path e m :: h =>
    have := decidableRemoved g a b h
    inferInstanceAs (Decidable (¬(Change.enter uri path e m).Decides g.workspace a b ∧ g.Removed a b h))
  | .remove path :: h =>
    have := decidableRemoved g a b h
    inferInstanceAs (Decidable ((a ∈ (g.after h).listed path ∨ b ∈ (g.after h).listed path) ∨ g.Removed a b h))

instance decidableReentered (g : CodeGraph) (a b : String) : ∀ h, Decidable (g.Reentered a b h)
  | [] => inferInstanceAs (Decidable False)
  | .enter uri path e m :: h =>
    have := decidableReentered g a b h
    inferInstanceAs (Decidable (¬(Change.enter uri path e m).Decides g.workspace a b ∧
      ((uri = b ∧ b ∈ (g.after h).listed path) ∨ g.Reentered a b h)))
  | .remove _ :: h => decidableReentered g a b h

/-- What the law of the edges needs of a document that is entered. -/
structure Enters (cwd base : Path) (uri path : String) (e : FileEntry) (m : CodeMap) : Prop
    extends Proper base uri path e m where
  canonical : ∃ q, Path.Canonical cwd q ∧ Uri.ofResolved q = uri ∧ Uri.relativePath cwd base q = path
  listed : ∀ b, b ∈ CodeMap.foreignSet uri m → path ∈ e.nodeIds

theorem Change.Parsed.enters {cwd base : Path} {uri path : String} {e : FileEntry} {m : CodeMap}
    (hbase : base.Resolved) (h : Change.Parsed cwd base (.enter uri path e m)) :
    Enters cwd base uri path e m := by
  cases h with
  | enter hq huri hpath hm hids =>
    rename_i q _ _ _
    subst huri hpath
    refine ⟨.of_parsed hbase hq hm fun id hid => Results.exists_of_mem_mapM hids hid, ⟨q, hq, rfl, rfl⟩,
      fun b hb => ?_⟩
    obtain ⟨-, k, n, hk, -⟩ := CodeMap.mem_foreignSet.mp hb
    have hnodes : m.nodes.entries ≠ [] := by
      intro hnil
      rw [Table.find?, hnil] at hk
      cases hk
    exact IdSet.mem_ofList.mpr (path_mem_of_parsed hq.toPath hm hnodes hids)

/-- What holds of the graph that a history of parsed documents and removals leads to. -/
structure Follows (cwd base : Path) (g : CodeGraph) (h : List Change) : Prop where
  start : g.workspace = base
  tidy : (g.after h).IsTidy base
  ends : ∀ a b, (g.after h).Imports a b ∨ (g.after h).Exports b a →
    '#' ∉ a.toList ∧ '#' ∉ b.toList ∧ a ≠ b
  owner : ∀ q b, Path.Canonical cwd q →
    NodeId.absolute base (Uri.relativePath cwd base q) = Uri.ofResolved q →
    (g.after h).Imports (Uri.ofResolved q) b →
    Uri.ofResolved q ∈ (g.after h).listed (Uri.relativePath cwd base q)
  imports : ∀ a b, (g.after h).Imports a b ↔ LastImports base a b h ∧ ¬g.Removed a b h
  forward : ∀ a b, (g.after h).Imports a b → ¬g.Reentered a b h → (g.after h).Exports b a
  backward : ∀ a b, (g.after h).Exports b a →
    ¬g.Reentered a b h ∧ (LastImports base a b h → (g.after h).Imports a b)

namespace Follows

variable {cwd base : Path} {g : CodeGraph} {h : List Change}

section Enter

variable {uri path : String} {e : FileEntry} {m : CodeMap}

/-- Entering a document replaces what its module imports, if its path stands for it. -/
theorem imports_enter (hf : Follows cwd base g h) (hx : Enters cwd base uri path e m) (a b : String) :
    ((g.after h).apply (.enter uri path e m)).Imports a b ↔
      (a = uri ∧ b ∈ CodeMap.foreignSet uri m) ∨
        ((g.after h).Imports a b ∧ ¬(a = uri ∧ NodeId.absolute base path = uri)) := by
  rw [Imports, apply, imports_update, hasEdge_replaced, hx.hasEdge_imports]
  refine or_congr_right ?_
  constructor
  · intro ⟨hedge, hout, _⟩
    refine ⟨hedge, fun ⟨ha, hback⟩ => hout ?_⟩
    -- the edges of a module that its path stands for are under an entry: the one that is replaced
    obtain ⟨q, hq, rfl, rfl⟩ := hx.canonical
    subst ha
    exact hf.owner q b hq hback hedge
  · intro ⟨hedge, hnot⟩
    obtain ⟨hasha, hashb, -⟩ := hf.ends a b (.inl hedge)
    refine ⟨hedge, fun hlisted => hnot ?_, ?_⟩
    · obtain ⟨ha, hback⟩ := hf.tidy.eq_home hlisted hasha
      rw [hx.home_eq] at ha hback
      exact ⟨ha, hback⟩
    by_cases ha : a = uri
    · have hback : NodeId.absolute base path ≠ uri := fun hback => hnot ⟨ha, hback⟩
      refine .inr ⟨fun hown => hback ?_, fun hlisted => hback ?_⟩
      · rw [absoluteSet, IdSet.mem_ofList, List.mem_map] at hown
        obtain ⟨id, hid, habs⟩ := hown
        rw [absolute, hf.tidy.workspace] at habs
        subst habs
        exact (hx.tidy.eq_home hid hasha).2.trans hx.home_eq
      · exact (hf.tidy.eq_home hlisted hashb).2.trans hx.home_eq
    · exact .inl (hx.find?_imports_of_ne ha)

/-- Entering a document adds it to the exports of what it imports, and drops its own exports if it
was listed. -/
theorem exports_enter (hf : Follows cwd base g h) (hx : Enters cwd base uri path e m) (a b : String) :
    ((g.after h).apply (.enter uri path e m)).Exports b a ↔
      (a = uri ∧ b ∈ CodeMap.foreignSet uri m) ∨
        ((g.after h).Exports b a ∧ b ∉ (g.after h).listed path) := by
  rw [Exports, apply, exports_update, hasEdge_replaced, hx.hasEdge_exports]
  constructor
  · intro hedge
    exact hedge.imp_right fun ⟨hedge, hout, _⟩ => ⟨hedge, hout⟩
  · intro hedge
    rcases hedge with hnew | ⟨hedge, hout⟩
    · exact .inl hnew
    by_cases hb : b ∈ CodeMap.foreignSet uri m
    · by_cases ha : a = uri
      · exact .inl ⟨ha, hb⟩
      obtain ⟨hash, hne⟩ := hx.targets b hb
      refine .inr ⟨hedge, hout, .inr ⟨fun hown => hne ?_, fun hlisted => ha ?_⟩⟩
      · rw [absoluteSet, IdSet.mem_ofList, List.mem_map] at hown
        obtain ⟨id, hid, habs⟩ := hown
        rw [absolute, hf.tidy.workspace] at habs
        subst habs
        obtain ⟨rfl, hhome⟩ := hx.tidy.eq_home hid hash
        exact hhome.trans hx.home_eq
      · exact (hf.tidy.eq_home hlisted (hf.ends a b (.inr hedge)).1).1.trans hx.home_eq
    · refine .inr ⟨hedge, hout, .inl ?_⟩
      rw [hx.exports, if_neg hb]

theorem enter (hf : Follows cwd base g h) (hx : Enters cwd base uri path e m) :
    Follows cwd base g (.enter uri path e m :: h) := by
  have hends : ∀ b, b ∈ CodeMap.foreignSet uri m → '#' ∉ uri.toList ∧ '#' ∉ b.toList ∧ uri ≠ b :=
    fun b hb => ⟨hx.home_eq ▸ hash_not_mem_home base path, (hx.targets b hb).1, (hx.targets b hb).2.symm⟩
  have hworkspace : (g.after (.enter uri path e m :: h)).workspace = base := hf.tidy.workspace
  have hentry : ∀ k, CodeGraph.entry? (g.after (.enter uri path e m :: h)) k =
      if k = path then some e else CodeGraph.entry? (g.after h) k := entry?_apply_enter _ uri path e m
  refine ⟨hf.start, hf.tidy.enter hx.tidy, ?_, ?_, ?_, ?_, ?_⟩
  · intro a b hedge
    rw [after, imports_enter hf hx, exports_enter hf hx] at hedge
    rcases hedge with (⟨rfl, hb⟩ | ⟨hedge, _⟩) | (⟨rfl, hb⟩ | ⟨hedge, _⟩)
    · exact hends b hb
    · exact hf.ends a b (.inl hedge)
    · exact hends b hb
    · exact hf.ends a b (.inr hedge)
  · intro q b hq hback hedge
    rw [after, imports_enter hf hx] at hedge
    rcases hedge with ⟨huri, hb⟩ | ⟨hedge, hnot⟩
    · obtain ⟨q', hq', huri', rfl⟩ := hx.canonical
      have heq : q = q' := by
        have htoPath := hq.toPath
        rw [huri, ← huri', hq'.toPath] at htoPath
        exact (Except.ok.inj htoPath).symm
      subst heq
      refine mem_listed.mpr ⟨e, (hentry _).trans (if_pos rfl), _, hx.listed b hb, ?_⟩
      rw [absolute, hworkspace, hback]
    · have hlisted := hf.owner q b hq hback hedge
      have hpath : Uri.relativePath cwd base q ≠ path := by
        intro hpath
        rw [hpath] at hback hlisted
        have huri := (hf.tidy.eq_home hlisted (hf.ends _ b (.inl hedge)).1).1.trans hx.home_eq
        exact hnot ⟨huri, hback.trans huri⟩
      obtain ⟨e', he', id, hid, habs⟩ := mem_listed.mp hlisted
      refine mem_listed.mpr ⟨e', ?_, id, hid, habs⟩
      rw [hentry, if_neg hpath, he']
  · intro a b
    rw [after, imports_enter hf hx, hf.imports, LastImports, Removed, hf.start]
    by_cases hdecides : (Change.enter uri path e m).Decides base a b
    · rw [if_pos hdecides]
      obtain ⟨ha, hb⟩ := hdecides
      refine ⟨fun hedge => ⟨?_, fun hremoved => hremoved.1 ⟨ha, hb⟩⟩, fun hlast => .inl ⟨ha.symm, hlast.1⟩⟩
      rcases hedge with hnew | ⟨-, hnot⟩
      · exact hnew.2
      · exact hb.resolve_right fun hback => hnot ⟨ha.symm, hback⟩
    · have hnew : ¬(a = uri ∧ b ∈ CodeMap.foreignSet uri m) :=
        fun hnew => hdecides ⟨hnew.1.symm, .inl hnew.2⟩
      have hold : ¬(a = uri ∧ NodeId.absolute base path = uri) :=
        fun hback => hdecides ⟨hback.1.symm, .inr hback.2⟩
      simp [hdecides, hnew, hold]
  · intro a b hedge hnot
    rw [after, imports_enter hf hx] at hedge
    rw [after, exports_enter hf hx]
    rw [Reentered, hf.start] at hnot
    rcases hedge with hnew | ⟨hedge, hold⟩
    · exact .inl hnew
    by_cases hdecides : (Change.enter uri path e m).Decides base a b
    · obtain ⟨ha, hb⟩ := hdecides
      exact .inl ⟨ha.symm, hb.resolve_right fun hback => hold ⟨ha.symm, hback⟩⟩
    · refine .inr ⟨hf.forward a b hedge fun hre => hnot ⟨hdecides, .inr hre⟩, fun hlisted => ?_⟩
      have hb := (hf.tidy.eq_home hlisted (hf.ends a b (.inl hedge)).2.1).1.trans hx.home_eq
      exact hnot ⟨hdecides, .inl ⟨hb.symm, hlisted⟩⟩
  · intro a b hedge
    rw [after, exports_enter hf hx] at hedge
    rw [after, imports_enter hf hx, LastImports, Reentered, hf.start]
    by_cases hdecides : (Change.enter uri path e m).Decides base a b
    · rw [if_pos hdecides]
      exact ⟨fun hre => hre.1 hdecides, fun hb => .inl ⟨hdecides.1.symm, hb⟩⟩
    · rw [if_neg hdecides]
      rcases hedge with hnew | ⟨hedge, hout⟩
      · exact absurd ⟨hnew.1.symm, .inl hnew.2⟩ hdecides
      obtain ⟨hnot, himports⟩ := hf.backward a b hedge
      refine ⟨fun hre => hre.2.elim (fun hb => hout hb.2) hnot, fun hlast => .inr ⟨himports hlast, ?_⟩⟩
      exact fun hback => hdecides ⟨hback.1.symm, .inr hback.2⟩

end Enter

theorem remove (hf : Follows cwd base g h) (path : String) : Follows cwd base g (.remove path :: h) := by
  have hworkspace : (g.after (.remove path :: h)).workspace = base :=
    (workspace_remove _ path).trans hf.tidy.workspace
  have hentry : ∀ k, CodeGraph.entry? (g.after (.remove path :: h)) k =
      if k = path then none else CodeGraph.entry? (g.after h) k := entry?_apply_remove _ path
  refine ⟨hf.start, hf.tidy.remove path, ?_, ?_, ?_, ?_, ?_⟩
  · intro a b hedge
    rw [after, apply, imports_remove_iff, exports_remove_iff] at hedge
    exact hf.ends a b (hedge.imp And.left And.left)
  · intro q b hq hback hedge
    rw [after, apply, imports_remove_iff] at hedge
    obtain ⟨hedge, hout, _⟩ := hedge
    have hlisted := hf.owner q b hq hback hedge
    have hpath : Uri.relativePath cwd base q ≠ path := fun heq => hout (heq ▸ hlisted)
    obtain ⟨e, he, id, hid, habs⟩ := mem_listed.mp hlisted
    refine mem_listed.mpr ⟨e, ?_, id, hid, ?_⟩
    · rw [hentry, if_neg hpath, he]
    · rw [absolute, hworkspace, ← hf.tidy.workspace]
      exact habs
  · intro a b
    rw [after, apply, imports_remove_iff, hf.imports, LastImports, Removed]
    tauto
  · intro a b hedge hnot
    rw [after, apply, imports_remove_iff] at hedge
    rw [after, apply, exports_remove_iff]
    obtain ⟨hedge, ha, hb⟩ := hedge
    exact ⟨hf.forward a b hedge hnot, hb, ha⟩
  · intro a b hedge
    rw [after, apply, exports_remove_iff] at hedge
    rw [after, apply, imports_remove_iff]
    obtain ⟨hedge, hb, ha⟩ := hedge
    obtain ⟨hnot, himports⟩ := hf.backward a b hedge
    exact ⟨hnot, fun hlast => ⟨himports hlast, ha, hb⟩⟩

end Follows

theorem follows_empty {cwd base : Path} (hbase : base.Resolved) {h : List Change}
    (hparsed : ∀ x ∈ h, x.Parsed cwd base) : Follows cwd base (.empty base) h := by
  induction h with
  | nil =>
    have hnone : ∀ a b, ¬HasEdge .empty a b := by
      intro a b ⟨s, hs, _⟩
      cases hs
    refine ⟨rfl, ⟨rfl, fun _ _ he => by cases he⟩, ?_, ?_, ?_, ?_, ?_⟩
    · intro a b hedge
      exact (hedge.elim (hnone a b) (hnone b a)).elim
    · intro q b _ _ hedge
      exact (hnone _ b hedge).elim
    · intro a b
      exact iff_of_false (hnone a b) fun hlast => hlast.1
    · intro a b hedge
      exact (hnone a b hedge).elim
    · intro a b hedge
      exact (hnone b a hedge).elim
  | cons x h ih =>
    have hrest := ih fun y hy => hparsed y (List.mem_cons_of_mem _ hy)
    cases x with
    | enter uri path e m => exact hrest.enter ((hparsed _ List.mem_cons_self).enters hbase)
    | remove path => exact hrest.remove path

/-- The edges after documents have been entered and removed, in any order and with any texts. What a
module imports is what it imported when it was last entered, but for files removed since. Export
edges are the converse, but for two cases: what imports a module is among its exports exactly if the
module has not been entered again since the importer was last entered; and what a module is exported
to imports it exactly if it did so when it was last entered. -/
theorem converse_up_to_reentry {cwd base : Path} (hbase : base.Resolved) {h : List Change}
    (hparsed : ∀ x ∈ h, x.Parsed cwd base) (a b : String) :
    let g := (empty base).after h
    (g.Imports a b ↔ LastImports base a b h ∧ ¬(empty base).Removed a b h) ∧
      (g.Imports a b → (g.Exports b a ↔ ¬(empty base).Reentered a b h)) ∧
      (g.Exports b a → (g.Imports a b ↔ LastImports base a b h)) := by
  intro g
  have hf := follows_empty hbase hparsed
  refine ⟨hf.imports a b, fun himports => ⟨fun hexports => ?_, ?_⟩, fun hexports => ⟨fun himports => ?_, ?_⟩⟩
  · exact (hf.backward a b hexports).1
  · exact hf.forward a b himports
  · exact ((hf.imports a b).mp himports).1
  · exact (hf.backward a b hexports).2

section Sample

def sampleUri (name : String) : String := "file:///tmp/w/ws/" ++ name ++ ".py"

/-- What a module of one line contributes that may import another such module. -/
def sampleMap (name : String) (imported : Option String) : CodeMap :=
  let module := fun x => Node.mk (sampleUri x) (sampleUri x) ⟨⟨0, 0⟩, ⟨1, 0⟩⟩ none .module x
  (imported.toList.map module).foldl (CodeMap.link (sampleUri name))
    ⟨Table.empty.put (sampleUri name) (module name), .empty, .empty⟩

def sampleEnter (name : String) (imported : Option String) : Change :=
  .enter (sampleUri name) (name ++ ".py") ⟨.ofList [name ++ ".py"], ""⟩ (sampleMap name imported)

def sampleCwd : Path := ⟨.root, ["tmp", "w"]⟩

def sampleBase : Path := ⟨.root, ["tmp", "w", "ws"]⟩

theorem parsed_sampleEnter {name : String} (hname : name ∈ ["a", "b"]) {imported : Option String}
    {files : List (String × String)} {text : String}
    (hm : CodeMap.ofDocument .tolerant (Index.sampleWorkspace files) ⟨sampleUri name, text⟩ =
      .ok (sampleMap name imported))
    (hids : ((Pass.ownNodes (sampleUri name) (sampleMap name imported)).mapM fun n =>
      NodeId.toRelative sampleCwd sampleBase n.id) = .ok [name ++ ".py"]) :
    (sampleEnter name imported).Parsed sampleCwd sampleBase := by
  have hplaces : ∀ x ∈ ["a", "b"],
      Uri.ofPath sampleCwd ⟨.root, ["tmp", "w", "ws", x ++ ".py"]⟩ = .ok (sampleUri x) ∧
      Uri.toPath (sampleUri x) = .ok ⟨.root, ["tmp", "w", "ws", x ++ ".py"]⟩ ∧
      Uri.ofResolved ⟨.root, ["tmp", "w", "ws", x ++ ".py"]⟩ = sampleUri x ∧
      Uri.relativePath sampleCwd sampleBase ⟨.root, ["tmp", "w", "ws", x ++ ".py"]⟩ = x ++ ".py" := by
    decide +kernel
  obtain ⟨hof, hto, huri, hpath⟩ := hplaces name hname
  exact .enter ⟨sampleUri name, hof, hto⟩ huri hpath hm hids

theorem parsed_sampleEnter_import : (sampleEnter "a" (some "b")).Parsed sampleCwd sampleBase := by
  have hm : CodeMap.ofDocument .tolerant (Index.sampleWorkspace [("b.py", "x\n")])
      ⟨sampleUri "a", "import b\n"⟩ = .ok (sampleMap "a" (some "b")) := by decide +kernel
  exact parsed_sampleEnter (by decide) hm (by decide +kernel)

theorem parsed_sampleEnter_none {name : String} (hname : name ∈ ["a", "b"]) :
    (sampleEnter name none).Parsed sampleCwd sampleBase := by
  have hmaps : ∀ x ∈ ["a", "b"], CodeMap.ofDocument .tolerant (Index.sampleWorkspace [])
      ⟨sampleUri x, "x\n"⟩ = .ok (sampleMap x none) := by decide +kernel
  have hids : ∀ x ∈ ["a", "b"], ((Pass.ownNodes (sampleUri x) (sampleMap x none)).mapM fun n =>
      NodeId.toRelative sampleCwd sampleBase n.id) = .ok [x ++ ".py"] := by decide +kernel
  exact parsed_sampleEnter hname (hmaps name hname) (hids name hname)

/-- The module `b`, which `a` imports, is entered twice after `a`. -/
theorem converse_up_to_reentry_lost :
    let h := [sampleEnter "b" none, sampleEnter "b" none, sampleEnter "a" (some "b")]
    let g := (empty sampleBase).after h
    g.Imports (sampleUri "a") (sampleUri "b") ∧ ¬g.Exports (sampleUri "b") (sampleUri "a") := by
  intro h g
  have hparsed : ∀ x ∈ h, x.Parsed sampleCwd sampleBase := by
    intro x hx
    have hb : (sampleEnter "b" none).Parsed sampleCwd sampleBase := parsed_sampleEnter_none (by decide)
    simp only [h, List.mem_cons, List.not_mem_nil, or_false] at hx
    rcases hx with rfl | rfl | rfl
    · exact hb
    · exact hb
    · exact parsed_sampleEnter_import
  obtain ⟨himports, hexports, -⟩ :=
    converse_up_to_reentry ⟨rfl, by decide⟩ hparsed (sampleUri "a") (sampleUri "b")
  have hedge : g.Imports (sampleUri "a") (sampleUri "b") :=
    himports.mpr ⟨by decide +kernel, by decide +kernel⟩
  refine ⟨hedge, fun hexport => (hexports hedge).mp hexport ?_⟩
  decide +kernel

/-- The edges are not converse to each other: one is lost when the imported module is entered again,
and one is left over when the importer is entered without the import. -/
theorem not_converse : ∃ h h' : List Change,
    ((∀ x ∈ h, x.Parsed sampleCwd sampleBase) ∧
      ((empty sampleBase).after h).Imports (sampleUri "a") (sampleUri "b") ∧
      ¬((empty sampleBase).after h).Exports (sampleUri "b") (sampleUri "a")) ∧
    ((∀ x ∈ h', x.Parsed sampleCwd sampleBase) ∧
      ((empty sampleBase).after h').Exports (sampleUri "b") (sampleUri "a") ∧
      ¬((empty sampleBase).after h').Imports (sampleUri "a") (sampleUri "b")) := by
  have ha := parsed_sampleEnter_import
  have hnone : ∀ x ∈ ["a", "b"], (sampleEnter x none).Parsed sampleCwd sampleBase :=
    fun x => parsed_sampleEnter_none
  refine ⟨[sampleEnter "b" none, sampleEnter "b" none, sampleEnter "a" (some "b")],
    [sampleEnter "a" none, sampleEnter "a" (some "b")], ⟨?_, by decide +kernel⟩, ⟨?_, by decide +kernel⟩⟩
  · simp [ha, hnone]
  · simp [ha, hnone]

end Sample

end CodeGraph

end OutlineIndex
