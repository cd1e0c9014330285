import OutlineIndex.Proofs.Changes
import OutlineIndex.Proofs.Frontier
import OutlineIndex.Proofs.Reachable

namespace OutlineIndex

namespace CodeGraph

/-- Two graphs over one workspace have the same files and import edges. -/
structure Agrees (g g' : CodeGraph) : Prop where
  workspace : g.workspace = g'.workspace
  entry : ∀ k, g.entry? k = g'.entry? k
  imports : ∀ k, g.imports.find? k = g'.imports.find? k

namespace Agrees

variable {g g' g'' : CodeGraph}

theorem refl (g : CodeGraph) : g.Agrees g := ⟨rfl, fun _ => rfl, fun _ => rfl⟩

theorem trans (h : g.Agrees g') (h' : g'.Agrees g'') : g.Agrees g'' :=
  ⟨h.workspace.trans h'.workspace, fun k => (h.entry k).trans (h'.entry k),
    fun k => (h.imports k).trans (h'.imports k)⟩

theorem listed (h : g.Agrees g') (path : String) : g.listed path = g'.listed path := by
  apply IdSet.ext
  intro x
  rw [mem_listed, mem_listed, h.entry]
  unfold absolute
  rw [h.workspace]

/-- What a change does to files and import edges depends on these alone. -/
theorem apply (h : g.Agrees g') (x : Change) : (g.apply x).Agrees (g'.apply x) := by
  refine ⟨?_, ?_, ?_⟩
  · rw [workspace_apply, workspace_apply, h.workspace]
  · intro k
    cases x with
    | enter uri path e m => rw [entry?_apply_enter, entry?_apply_enter, h.entry]
    | remove path => rw [entry?_apply_remove, entry?_apply_remove, h.entry]
  · intro k
    cases x with
    | enter uri path e m =>
      have hown : g.absoluteSet e.nodeIds = g'.absoluteSet e.nodeIds := by
        unfold absoluteSet absolute
        rw [h.workspace]
      unfold CodeGraph.apply
      rw [imports_update, imports_update, find?_replaced, find?_replaced, h.listed, hown, h.imports]
    | remove path =>
      unfold CodeGraph.apply
      rw [imports_remove, imports_remove, h.entry]
      split
      · rw [find?_withoutTargets, find?_withoutTargets, find?_filter_contains, find?_filter_contains,
          h.listed, h.imports]
      · exact h.imports k

end Agrees

section Commute

/-- A key of a table of edges has a set of targets. -/
def HasKey (t : Table IdSet) (k : String) : Prop := t.find? k ≠ none

theorem find?_eq_of_edges {t t' : Table IdSet} {k : String} (hkey : HasKey t k ↔ HasKey t' k)
    (hedge : ∀ x, HasEdge t k x ↔ HasEdge t' k x) : t.find? k = t'.find? k := by
  unfold HasKey HasEdge at *
  cases ht : t.find? k with
  | none =>
    have hnone : t'.find? k = none := by
      rw [ht] at hkey
      simpa using hkey
    rw [hnone]
  | some s =>
    cases ht' : t'.find? k with
    | none =>
      rw [ht, ht'] at hkey
      simp at hkey
    | some s' =>
      rw [ht, ht'] at hedge
      have hset : s = s' := IdSet.ext fun x => by simpa using hedge x
      rw [hset]

variable {base : Path} {g : CodeGraph}

theorem hasKey_replaced {own previous : IdSet} {t edges : Table IdSet} {k : String} :
    HasKey (writeEdges own previous (t.filter fun k _ => !previous.contains k) edges) k ↔
      HasKey edges k ∨ (HasKey t k ∧ k ∉ previous) := by
  unfold HasKey
  rw [find?_replaced]
  cases edges.find? k with
  | none => by_cases hk : k ∈ previous <;> simp [hk]
  | some s => simp

theorem hasKey_enter (g : CodeGraph) (uri path : String) (e : FileEntry) (m : CodeMap) (k : String) :
    HasKey (g.apply (.enter uri path e m)).imports k ↔
      HasKey m.imports k ∨ (HasKey g.imports k ∧ k ∉ g.listed path) := hasKey_replaced

theorem hasEdge_enter (g : CodeGraph) (uri path : String) (e : FileEntry) (m : CodeMap) (k x : String) :
    HasEdge (g.apply (.enter uri path e m)).imports k x ↔ HasEdge m.imports k x ∨
      (HasEdge g.imports k x ∧ k ∉ g.listed path ∧
        (m.imports.find? k = none ∨ k ∉ g.absoluteSet e.nodeIds ∧ x ∉ g.listed path)) :=
  hasEdge_replaced

theorem remove_of_none {path : String} (h : g.entry? path = none) : g.remove path = g := by
  unfold remove
  rw [h]

theorem hasKey_remove {path : String} (h : g.entry? path ≠ none) (k : String) :
    HasKey (g.remove path).imports k ↔
      ∃ x, HasEdge g.imports k x ∧ k ∉ g.listed path ∧ x ∉ g.listed path := by
  have hedges : ∀ x, HasEdge (g.remove path).imports k x ↔
      HasEdge g.imports k x ∧ k ∉ g.listed path ∧ x ∉ g.listed path := fun x => imports_remove_iff
  simp only [← hedges]
  unfold HasKey HasEdge
  rw [imports_remove, if_pos (Option.isSome_iff_ne_none.mpr h), find?_withoutTargets]
  constructor
  · intro hkey
    obtain ⟨s, hs⟩ := Option.ne_none_iff_exists'.mp hkey
    obtain ⟨-, hne⟩ := Option.filter_eq_some_iff.mp hs
    by_contra hnone
    rw [Bool.not_eq_true', ← Bool.not_eq_true, IdSet.isEmpty_iff] at hne
    exact hne fun x hx => hnone ⟨x, s, hs, hx⟩
  · intro ⟨x, s, hs, _⟩ hnone
    rw [hs] at hnone
    cases hnone

/-- A change of another file leaves what the table lists for a path. -/
theorem listed_apply_of_ne {x : Change} {path : String} (h : x.path ≠ path) :
    (g.apply x).listed path = g.listed path := by
  have hentry : CodeGraph.entry? (g.apply x) path = g.entry? path := by
    cases x with
    | enter uri k e m => exact (entry?_apply_enter g uri k e m path).trans (if_neg (Ne.symm h))
    | remove k => exact (entry?_apply_remove g k path).trans (if_neg (Ne.symm h))
  apply IdSet.ext
  intro y
  rw [mem_listed, mem_listed, hentry]
  unfold absolute
  rw [workspace_apply]

theorem absoluteSet_apply (g : CodeGraph) (x : Change) (s : IdSet) :
    (g.apply x).absoluteSet s = g.absoluteSet s := by
  unfold absoluteSet absolute
  rw [workspace_apply]

namespace Change

/-- The modules that a change gives the one entered as imports. -/
def targets : Change → IdSet
  | .enter uri _ _ m => CodeMap.foreignSet uri m
  | .remove _ => .empty

def isRemoval : Change → Bool
  | .enter .. => false
  | .remove _ => true

def IsProper (base : Path) : Change → Prop
  | .enter uri path e m => Proper base uri path e m
  | .remove _ => True

/-- Two changes are of different files, and neither removes one that the other imports. -/
structure Independent (base : Path) (x y : Change) : Prop where
  path_ne : x.path ≠ y.path
  home_ne : home base x.path ≠ home base y.path
  right : y.isRemoval = true → home base y.path ∉ x.targets
  left : x.isRemoval = true → home base x.path ∉ y.targets

theorem Independent.symm {base : Path} {x y : Change} (h : Independent base x y) : Independent base y x :=
  ⟨h.path_ne.symm, h.home_ne.symm, h.left, h.right⟩

end Change

theorem IsTidy.apply (h : g.IsTidy base) {x : Change} (hx : x.IsProper base) : (g.apply x).IsTidy base := by
  cases x with
  | enter uri path e m => exact h.enter hx.tidy
  | remove path => exact h.remove path

/-- The entry of another file does not list a module that is entered. -/
theorem IsTidy.not_mem_listed (h : g.IsTidy base) {uri path other : String} {e : FileEntry} {m : CodeMap}
    (hx : Proper base uri path e m) (hne : home base path ≠ home base other) : uri ∉ g.listed other := by
  intro hmem
  rw [← hx.home_eq] at hmem
  exact hne (h.eq_home hmem (hash_not_mem_home base path)).1

theorem find?_imports_enter (g : CodeGraph) (uri path : String) (e : FileEntry) (m : CodeMap) (k : String) :
    (g.apply (.enter uri path e m)).imports.find? k = match m.imports.find? k with
      | none => if k ∈ g.listed path then none else g.imports.find? k
      | some targets => some (if k ∈ g.absoluteSet e.nodeIds then targets
          else ((if k ∈ g.listed path then none else g.imports.find? k).map fun old =>
            (old.sdiff (g.listed path)).union targets).getD targets) :=
  find?_replaced _ _ _ _ _

/-- Under the key of another module, a document that is entered drops what its entry listed. -/
theorem find?_imports_enter_of_ne {uri path : String} {e : FileEntry} {m : CodeMap}
    (hx : Proper base uri path e m) {k : String} (hk : k ≠ uri) :
    (g.apply (.enter uri path e m)).imports.find? k =
      if k ∈ g.listed path then none else g.imports.find? k := by
  rw [find?_imports_enter, hx.find?_imports_of_ne hk]

/-- The imports of a module do not depend on whether another document was entered before. -/
theorem find?_imports_enter_self (h : g.IsTidy base) {u u' k k' : String} {e e' : FileEntry} {m m' : CodeMap}
    (hx : Proper base u k e m) (hy : Proper base u' k' e' m')
    (hi : Change.Independent base (.enter u k e m) (.enter u' k' e' m')) :
    ((g.apply (.enter u k e m)).apply (.enter u' k' e' m')).imports.find? u =
      ((g.apply (.enter u' k' e' m')).apply (.enter u k e m)).imports.find? u := by
  have hne : u ≠ u' := by
    rw [← hx.home_eq, ← hy.home_eq]
    exact hi.home_ne
  have hother : ∀ g : CodeGraph, g.IsTidy base →
      (g.apply (.enter u' k' e' m')).imports.find? u = g.imports.find? u := by
    intro g h
    have hout : u ∉ g.listed k' := h.not_mem_listed hx hi.home_ne
    rw [find?_imports_enter_of_ne hy hne, if_neg hout]
  have hlist : (g.apply (.enter u' k' e' m')).listed k = g.listed k := listed_apply_of_ne hi.path_ne.symm
  rw [hother _ (h.enter hx.tidy), find?_imports_enter, find?_imports_enter (g.apply _), hlist, hother g h,
    absoluteSet_apply]

theorem find?_imports_enter_enter (h : g.IsTidy base) {u u' k k' : String} {e e' : FileEntry}
    {m m' : CodeMap} (hx : Proper base u k e m) (hy : Proper base u' k' e' m')
    (hi : Change.Independent base (.enter u k e m) (.enter u' k' e' m')) (a : String) :
    ((g.apply (.enter u k e m)).apply (.enter u' k' e' m')).imports.find? a =
      ((g.apply (.enter u' k' e' m')).apply (.enter u k e m)).imports.find? a := by
  by_cases ha : a = u
  · rw [ha]
    exact find?_imports_enter_self h hx hy hi
  by_cases ha' : a = u'
  · rw [ha']
    exact (find?_imports_enter_self h hy hx hi.symm).symm
  -- under any other key both only drop
  have hlist : (g.apply (.enter u k e m)).listed k' = g.listed k' := listed_apply_of_ne hi.path_ne
  have hlist' : (g.apply (.enter u' k' e' m')).listed k = g.listed k := listed_apply_of_ne hi.path_ne.symm
  rw [find?_imports_enter_of_ne hy ha', find?_imports_enter_of_ne hx ha, find?_imports_enter_of_ne hx ha,
    find?_imports_enter_of_ne hy ha', hlist, hlist']
  by_cases hk : a ∈ g.listed k <;> by_cases hk' : a ∈ g.listed k' <;> simp [hk, hk']

theorem find?_imports_enter_remove (h : g.IsTidy base) {u k k' : String} {e : FileEntry} {m : CodeMap}
    (hx : Proper base u k e m) (hi : Change.Independent base (.enter u k e m) (.remove k')) (a : String) :
    ((g.apply (.enter u k e m)).apply (.remove k')).imports.find? a =
      ((g.apply (.remove k')).apply (.enter u k e m)).imports.find? a := by
  have happly : ∀ g : CodeGraph, g.apply (.remove k') = g.remove k' := fun _ => rfl
  have hlist : (g.apply (.enter u k e m)).listed k' = g.listed k' := listed_apply_of_ne hi.path_ne
  have hlist' : (g.remove k').listed k = g.listed k := listed_apply_of_ne (x := .remove k') hi.path_ne.symm
  have hown : (g.remove k').absoluteSet e.nodeIds = g.absoluteSet e.nodeIds :=
    absoluteSet_apply g (.remove k') e.nodeIds
  have hentry : CodeGraph.entry? (g.apply (.enter u k e m)) k' = g.entry? k' :=
    (entry?_apply_enter g u k e m k').trans (if_neg hi.path_ne.symm)
  rw [happly, happly]
  by_cases hnone : g.entry? k' = none
  · rw [remove_of_none hnone, remove_of_none (hentry.trans hnone)]
  have hsome : CodeGraph.entry? (g.apply (.enter u k e m)) k' ≠ none := by
    rw [hentry]
    exact hnone
  -- the removed file lists neither the module nor what it imports
  have hkept : ∀ b, HasEdge m.imports a b → a ∉ g.listed k' ∧ b ∉ g.listed k' := by
    intro b hedge
    obtain ⟨rfl, hb⟩ := hx.hasEdge_imports.mp hedge
    refine ⟨h.not_mem_listed hx hi.home_ne, fun hmem => hi.right rfl ?_⟩
    have hhome := (h.eq_home hmem (hx.targets b hb).1).1
    exact hhome ▸ hb
  have hremoved : ∀ (g : CodeGraph) b, HasEdge (g.remove k').imports a b ↔
      HasEdge g.imports a b ∧ a ∉ g.listed k' ∧ b ∉ g.listed k' := fun _ _ => imports_remove_iff
  apply find?_eq_of_edges
  · rw [hasKey_remove hsome, hasKey_enter, hasKey_remove hnone, hlist, hlist']
    by_cases hkey : HasKey m.imports a
    · obtain ⟨b, hb⟩ := hx.exists_edge hkey
      exact iff_of_true ⟨b, (hasEdge_enter ..).mpr (.inl hb), hkept b hb⟩ (.inl hkey)
    · have hno : m.imports.find? a = none := not_not.mp hkey
      have hnot : ∀ b, ¬HasEdge m.imports a b := fun b ⟨s, hs, _⟩ => by rw [hno] at hs; cases hs
      simp only [hasEdge_enter, hnot, hkey, hno, false_or, true_or, and_true]
      constructor
      · intro ⟨b, ⟨hedge, hk⟩, hk'⟩
        exact ⟨⟨b, hedge, hk'⟩, hk⟩
      · intro ⟨⟨b, hedge, hk'⟩, hk⟩
        exact ⟨b, ⟨hedge, hk⟩, hk'⟩
  · intro b
    rw [hremoved, hasEdge_enter, hasEdge_enter, hremoved, hlist, hlist', hown]
    constructor
    · intro ⟨hedge, hk'⟩
      exact hedge.imp_right fun ⟨hedge, hk⟩ => ⟨⟨hedge, hk'⟩, hk⟩
    · intro hedge
      rcases hedge with hedge | ⟨⟨hedge, hk'⟩, hk⟩
      · exact ⟨.inl hedge, hkept b hedge⟩
      · exact ⟨.inr ⟨hedge, hk⟩, hk'⟩

theorem find?_imports_remove_remove {k k' : String} (hne : k ≠ k') (a : String) :
    ((g.remove k).remove k').imports.find? a = ((g.remove k').remove k).imports.find? a := by
  have hlist : (g.remove k).listed k' = g.listed k' := listed_apply_of_ne (x := .remove k) hne
  have hlist' : (g.remove k').listed k = g.listed k := listed_apply_of_ne (x := .remove k') hne.symm
  have hentry : CodeGraph.entry? (g.remove k) k' = g.entry? k' :=
    (find?_files_remove g k k').trans (if_neg hne.symm)
  have hentry' : CodeGraph.entry? (g.remove k') k = g.entry? k := (find?_files_remove g k' k).trans (if_neg hne)
  by_cases hnone : g.entry? k = none
  · rw [remove_of_none hnone, remove_of_none (hentry'.trans hnone)]
  by_cases hnone' : g.entry? k' = none
  · rw [remove_of_none hnone', remove_of_none (hentry.trans hnone')]
  have hremoved : ∀ (g : CodeGraph) k b, HasEdge (g.remove k).imports a b ↔
      HasEdge g.imports a b ∧ a ∉ g.listed k ∧ b ∉ g.listed k := fun _ _ _ => imports_remove_iff
  have hedges : ∀ b, HasEdge ((g.remove k).remove k').imports a b ↔
      HasEdge ((g.remove k').remove k).imports a b := by
    intro b
    rw [hremoved, hremoved, hremoved, hremoved, hlist, hlist']
    exact and_right_comm
  refine find?_eq_of_edges ?_ hedges
  rw [hasKey_remove (by rw [hentry]; exact hnone'), hasKey_remove (by rw [hentry']; exact hnone)]
  simpa only [hremoved] using exists_congr hedges

/-- Independent changes commute. -/
theorem agrees_swap (h : g.IsTidy base) {x y : Change} (hx : x.IsProper base) (hy : y.IsProper base)
    (hi : Change.Independent base x y) : ((g.apply x).apply y).Agrees ((g.apply y).apply x) := by
  refine ⟨by simp only [workspace_apply], fun k => ?_, fun k => ?_⟩
  · have hne := hi.path_ne
    cases x <;> cases y <;>
      simp only [entry?_apply_enter, entry?_apply_remove, Change.path] at hne ⊢ <;>
      split <;> split <;> simp_all
  · cases x with
    | enter u p e m =>
      cases y with
      | enter u' p' e' m' => exact find?_imports_enter_enter h hx hy hi k
      | remove p' => exact find?_imports_enter_remove h hx hi k
    | remove p =>
      cases y with
      | enter u' p' e' m' => exact (find?_imports_enter_remove h hy hi.symm k).symm
      | remove p' => exact find?_imports_remove_remove hi.path_ne k

theorem isTidy_after (h : g.IsTidy base) {l : List Change} (hl : ∀ x ∈ l, x.IsProper base) :
    (g.after l).IsTidy base := by
  induction l with
  | nil => exact h
  | cons x l ih =>
    exact (ih fun y hy => hl y (List.mem_cons_of_mem _ hy)).apply (hl x List.mem_cons_self)

/-- Changes that are independent of each other may be made in any order. -/
theorem agrees_of_perm (h : g.IsTidy base) {l l' : List Change} (hperm : l.Perm l')
    (hl : ∀ x ∈ l, x.IsProper base) (hi : l.Pairwise (Change.Independent base)) :
    (g.after l).Agrees (g.after l') := by
  induction hperm with
  | nil => exact .refl _
  | cons x _ ih =>
    have hrest := List.pairwise_cons.mp hi
    exact (ih (fun y hy => hl y (List.mem_cons_of_mem _ hy)) hrest.2).apply x
  | swap x y l =>
    have hy := List.pairwise_cons.mp hi
    have htidy := isTidy_after h fun z hz => hl z (List.mem_cons_of_mem _ (List.mem_cons_of_mem _ hz))
    exact agrees_swap htidy (hl x (by simp)) (hl y (by simp)) (hy.1 x (by simp)).symm
  | trans hperm _ ih ih' =>
    refine (ih hl hi).trans (ih' (fun x hx => hl x (hperm.mem_iff.mpr hx)) ?_)
    exact (hperm.pairwise_iff fun hxy => hxy.symm).mp hi

end Commute

theorem entry?_after_of_ne {g : CodeGraph} {l : List Change} {k : String} (h : ∀ x ∈ l, x.path ≠ k) :
    CodeGraph.entry? (g.after l) k = g.entry? k := by
  induction l with
  | nil => rfl
  | cons x l ih =>
    have hne : k ≠ x.path := (h x List.mem_cons_self).symm
    rw [after, ← ih fun y hy => h y (List.mem_cons_of_mem _ hy)]
    cases x with
    | enter uri path e m => exact (entry?_apply_enter ..).trans (if_neg hne)
    | remove path => exact (entry?_apply_remove ..).trans (if_neg hne)

/-- A file that is removed and never entered has no entry. -/
theorem entry?_after_of_removed {g : CodeGraph} {l : List Change} {k : String}
    (h : ∀ x ∈ l, x.path = k → x = .remove k) (hmem : .remove k ∈ l) :
    CodeGraph.entry? (g.after l) k = none := by
  induction l with
  | nil => cases hmem
  | cons x l ih =>
    rw [after]
    by_cases hx : x.path = k
    · rw [h x List.mem_cons_self hx]
      exact (entry?_apply_remove ..).trans (if_pos rfl)
    · have hrest : .remove k ∈ l := by
        rcases List.mem_cons.mp hmem with rfl | hmem
        · exact absurd rfl hx
        · exact hmem
      have hnone := ih (fun y hy => h y (List.mem_cons_of_mem _ hy)) hrest
      cases x with
      | enter uri path e m => exact (entry?_apply_enter ..).trans ((if_neg (Ne.symm hx)).trans hnone)
      | remove path => exact (entry?_apply_remove ..).trans ((if_neg (Ne.symm hx)).trans hnone)

end CodeGraph

namespace Context

/-- The change by which a document is entered. -/
def Entering (c : Context) (u : String) (x : CodeGraph.Change) : Prop := ∃ d path m ids,
  c.Reads u d path ∧ CodeMap.ofDocument c.backend c.workspace d = .ok m ∧ m.nodes.entries ≠ [] ∧
    ((Pass.ownNodes u m).mapM fun n => c.relativeId n.id) = .ok ids ∧
    x = .enter u (c.relative path) ⟨.ofList ids, Digest.ofText d.text⟩ m

/-- The change by which the file of a document is removed that is gone and in the table of files. -/
def Removing (c : Context) (i : Index) (u : String) (x : CodeGraph.Change) : Prop :=
  ∃ q, Path.Canonical c.workspace.cwd q ∧ u = Uri.ofResolved q ∧ c.present q = .ok false ∧
    i.graph.entry? (c.relative q) ≠ none ∧ x = .remove (c.relative q)

variable {c : Context} {i : Index} {u : String} {x y : CodeGraph.Change}

theorem Entering.unique (h : c.Entering u x) (h' : c.Entering u y) : x = y := by
  obtain ⟨d, path, m, ids, hreads, hm, -, hids, rfl⟩ := h
  obtain ⟨d', path', m', ids', hreads', hm', -, hids', rfl⟩ := h'
  obtain ⟨rfl, rfl⟩ := hreads.unique hreads'
  cases hm.symm.trans hm'
  cases hids.symm.trans hids'
  rfl

/-- The document is that of a change. -/
theorem Entering.uri_eq {v : String} (h : c.Entering u x) (h' : c.Entering v x) : u = v := by
  obtain ⟨_, _, _, _, _, _, _, _, hx⟩ := h
  obtain ⟨_, _, _, _, _, _, _, _, hx'⟩ := h'
  exact (CodeGraph.Change.enter.inj (hx.symm.trans hx')).1

theorem isProper_of_entering (hu : c.IsCanonical u) (h : c.Entering u x) : x.IsProper c.base := by
  obtain ⟨q, hq, rfl⟩ := hu
  obtain ⟨⟨uri, text⟩, path, m, ids, hreads, hm, -, hids, rfl⟩ := h
  obtain rfl := hreads.path_eq hq
  obtain rfl := hreads.uri_eq
  refine CodeGraph.Proper.of_parsed c.resolved_base hq hm fun id hid => ?_
  obtain ⟨n, hn, hrel⟩ := Results.exists_of_mem_mapM hids hid
  exact ⟨n, hn, Results.mapError_eq_ok.mp hrel⟩

/-- The change of the file at a path of its own. -/
structure Concerns (c : Context) (q : Path) (x : CodeGraph.Change) : Prop where
  canonical : Path.Canonical c.workspace.cwd q
  path_eq : x.path = c.relative q
  present : x.isRemoval = true ↔ c.present q = .ok false
  targets : ∀ b ∈ x.targets, ∃ d path, c.Reads b d path

theorem Concerns.home_eq {q : Path} (h : c.Concerns q x) :
    CodeGraph.home c.base x.path = Uri.ofResolved q := by
  rw [h.path_eq]
  exact (CodeGraph.home_relativePath c.resolved_base h.canonical.resolved h.canonical.toPath).trans
    (congrArg _ (h.canonical.resolve_eq _))

theorem concerns_of_entering (hu : c.IsCanonical u) (h : c.Entering u x) :
    ∃ q, u = Uri.ofResolved q ∧ c.Concerns q x := by
  obtain ⟨q, hq, rfl⟩ := hu
  obtain ⟨d, path, m, ids, hreads, hm, hnodes, hids, rfl⟩ := h
  obtain rfl := hreads.path_eq hq
  refine ⟨path, rfl, hq, rfl, ?_, fun b hb => ?_⟩
  · rw [present_of_reads hreads]
    simp [CodeGraph.Change.isRemoval]
  · have hmem : b ∈ Pass.foreignUris (Uri.ofResolved path) m := hb
    exact ((mem_foreignUris hreads hm hnodes).mp hmem).2.1

theorem concerns_of_removing (h : c.Removing i u x) : ∃ q, u = Uri.ofResolved q ∧ c.Concerns q x := by
  obtain ⟨q, hq, rfl, habsent, -, rfl⟩ := h
  exact ⟨q, rfl, hq, rfl, by simp [CodeGraph.Change.isRemoval, habsent], fun b hb =>
    absurd hb IdSet.not_mem_empty⟩

/-- Changes of different files are independent. -/
theorem Concerns.independent {q q' : Path} (h : c.Concerns q x) (h' : c.Concerns q' y) (hne : q ≠ q') :
    CodeGraph.Change.Independent c.base x y := by
  have hgone : ∀ {q q' : Path} {x y}, c.Concerns q x → c.Concerns q' y → y.isRemoval = true →
      CodeGraph.home c.base y.path ∉ x.targets := by
    intro q q' x y h h' hremoval hmem
    rw [h'.home_eq] at hmem
    obtain ⟨d, path, hreads⟩ := h.targets _ hmem
    obtain rfl := hreads.path_eq h'.canonical
    cases (present_of_reads hreads).symm.trans (h'.present.mp hremoval)
  refine ⟨?_, ?_, hgone h h', hgone h' h⟩
  · rw [h.path_eq, h'.path_eq]
    exact fun heq => hne (eq_of_relative_eq h.canonical h'.canonical heq)
  · rw [h.home_eq, h'.home_eq]
    intro heq
    have htoPath := h.canonical.toPath
    rw [heq, h'.canonical.toPath] at htoPath
    exact hne (Except.ok.inj htoPath).symm

end Context

namespace Pass

/-- The changes that lead to a graph: documents that were parsed are entered, and the files are removed
of documents that the pass is done with. -/
structure Makes (c : Context) (i : Index) (parsed done : List String) (g : CodeGraph)
    (l : List CodeGraph.Change) : Prop where
  graph : g = i.graph.after l
  nodup : l.Nodup
  mem : ∀ x, x ∈ l ↔ (∃ u ∈ parsed, c.Entering u x) ∨ ∃ u ∈ done, c.Removing i u x

namespace Makes

variable {c : Context} {i : Index} {done : List String} {p p' : Pass} {l : List CodeGraph.Change}
  {P : Set String} {queue : List String} {q : Path}

theorem start (c : Context) (i : Index) : Makes c i [] [] i.graph [] :=
  ⟨rfl, .nil, fun x => by simp⟩

/-- Every change is that of one file. -/
theorem concerns (h : Makes c i p.parsed done p.graph l) (hf : Frontier c i P p queue)
    {x : CodeGraph.Change} (hx : x ∈ l) : ∃ q, c.Concerns q x ∧
      (c.Entering (Uri.ofResolved q) x ∨ c.Removing i (Uri.ofResolved q) x) := by
  rcases (h.mem x).mp hx with ⟨u, hu, hentering⟩ | ⟨u, _, hremoving⟩
  · obtain ⟨q, rfl, hconcerns⟩ := Context.concerns_of_entering (hf.canonical u hu) hentering
    exact ⟨q, hconcerns, .inl hentering⟩
  · obtain ⟨q, rfl, hconcerns⟩ := Context.concerns_of_removing hremoving
    exact ⟨q, hconcerns, .inr hremoving⟩

/-- A document is parsed that cannot be entered. -/
theorem parse {parsed : List String} {g : CodeGraph} {uri : String} (h : Makes c i parsed done g l)
    (hnot : ∀ x, ¬c.Entering uri x) : Makes c i (parsed ++ [uri]) done g l := by
  refine ⟨h.graph, h.nodup, fun x => ?_⟩
  rw [h.mem]
  simp [or_and_right, exists_or, hnot]

/-- A document is parsed and entered. -/
theorem enter {parsed : List String} {g : CodeGraph} {uri : String} {x : CodeGraph.Change}
    (h : Makes c i parsed done g l) (hx : c.Entering uri x) (hnew : uri ∉ parsed) :
    Makes c i (parsed ++ [uri]) done (g.apply x) (x :: l) := by
  refine ⟨congrArg (CodeGraph.apply · x) h.graph, List.nodup_cons.mpr ⟨fun hmem => ?_, h.nodup⟩, fun y => ?_⟩
  · rcases (h.mem x).mp hmem with ⟨u, hu, hu'⟩ | ⟨_, _, _, _, _, _, _, hremove⟩
    · exact hnew (hu'.uri_eq hx ▸ hu)
    · obtain ⟨_, _, _, _, _, _, _, _, henter⟩ := hx
      cases henter.symm.trans hremove
  · have hiff : y = x ↔ c.Entering uri y := ⟨fun hy => hy ▸ hx, fun hy => hy.unique hx⟩
    rw [List.mem_cons, h.mem, hiff]
    simp only [List.mem_append, List.mem_singleton, or_and_right, exists_or, exists_eq_left]
    exact or_assoc.symm.trans (or_congr_left or_comm)

theorem visit {uri : String} {v : Visit} (h : Makes c i p.parsed done p.graph l)
    (hf : Frontier c i P p (uri :: queue)) (hnew : uri ∉ p.visited)
    (hvisit : Pass.visit c (p.mark uri) uri = (p', .ok v)) :
    ∃ l', Makes c i p'.parsed done p'.graph l' := by
  have hout : uri ∉ p.parsed := fun hmem => hnew (hf.visited uri hmem)
  cases outcome_of_visit hvisit with
  | idle quiet parsed =>
    rw [parsed, quiet.graph]
    exact ⟨l, h⟩
  | blank quiet parsed reads _ empty =>
    rw [parsed, quiet.graph]
    refine ⟨l, h.parse ?_⟩
    intro x ⟨d, path, m, ids, hreads, hm, hnodes, _⟩
    obtain ⟨rfl, rfl⟩ := reads.unique hreads
    exact hnodes (empty m hm)
  | @entered p₁ d path m found ids quiet parsed reads stale map nodes _ _ ids_eq =>
    have hentering : c.Entering uri (.enter uri (c.relative path) ⟨.ofList ids, Digest.ofText d.text⟩ m) :=
      ⟨d, path, m, ids, reads, map, nodes, ids_eq, rfl⟩
    have henter := h.enter hentering hout
    have hgraph : p₁.graph = p.graph := quiet.graph
    have hparsed : p₁.parsed = p.parsed ++ [uri] := parsed
    rw [← hgraph, ← hparsed] at henter
    exact ⟨_, henter⟩

theorem removing_iff (hq : Path.Canonical c.workspace.cwd q) (x : CodeGraph.Change) :
    c.Removing i (Uri.ofResolved q) x ↔
      c.present q = .ok false ∧ i.graph.entry? (c.relative q) ≠ none ∧ x = .remove (c.relative q) := by
  constructor
  · intro ⟨q', hq', heq, hremoving⟩
    have htoPath := hq'.toPath
    rw [← heq, hq.toPath] at htoPath
    obtain rfl := Except.ok.inj htoPath
    exact hremoving
  · intro hremoving
    exact ⟨q, hq, rfl, hremoving⟩

/-- The pass is done with a document whose file it does not remove. -/
theorem keep {parsed : List String} {g : CodeGraph} (h : Makes c i parsed done g l)
    (hnot : ∀ x, c.Removing i (Uri.ofResolved q) x → x ∈ l) :
    Makes c i parsed (done ++ [Uri.ofResolved q]) g l := by
  refine ⟨h.graph, h.nodup, fun x => ?_⟩
  have hin := hnot x
  rw [h.mem] at hin ⊢
  simp only [List.mem_append, List.mem_singleton, or_and_right, exists_or, exists_eq_left]
  rw [← or_assoc]
  exact ⟨.inl, fun hor => hor.elim id hin⟩

/-- A file that is gone is removed if the table has it and it was not removed before. -/
theorem remove (h : Makes c i p.parsed done p.graph l) (hf : Frontier c i P p queue)
    (hq : Path.Canonical c.workspace.cwd q) (habsent : c.present q = .ok false) :
    ∃ l', Makes c i p.parsed (done ++ [Uri.ofResolved q]) (p.graph.remove (c.relative q)) l' := by
  have hremoves : ∀ x ∈ l, x.path = c.relative q → x = .remove (c.relative q) := by
    intro x hx hpath
    obtain ⟨q', hconcerns, -⟩ := h.concerns hf hx
    obtain rfl := Context.eq_of_relative_eq hconcerns.canonical hq (hconcerns.path_eq.symm.trans hpath)
    cases x with
    | enter => cases hconcerns.present.mpr habsent
    | remove path => exact congrArg _ hpath
  -- as long as the file has not been removed, its entry is that of before the pass
  have hentry : .remove (c.relative q) ∉ l →
      p.graph.entry? (c.relative q) = i.graph.entry? (c.relative q) := by
    intro hout
    rw [h.graph]
    exact CodeGraph.entry?_after_of_ne fun y hy hpath => hout (hremoves y hy hpath ▸ hy)
  by_cases hnone : p.graph.entry? (c.relative q) = none
  · rw [CodeGraph.remove_of_none hnone]
    refine ⟨l, h.keep fun x hx => ?_⟩
    obtain ⟨-, hthere, rfl⟩ := (removing_iff hq x).mp hx
    by_contra hout
    exact hthere ((hentry hout).symm.trans hnone)
  · have hout : .remove (c.relative q) ∉ l := by
      intro hmem
      rw [h.graph, CodeGraph.entry?_after_of_removed hremoves hmem] at hnone
      exact hnone rfl
    refine ⟨.remove (c.relative q) :: l, congrArg (CodeGraph.remove · _) h.graph,
      List.nodup_cons.mpr ⟨hout, h.nodup⟩, fun x => ?_⟩
    have hiff : c.Removing i (Uri.ofResolved q) x ↔ x = .remove (c.relative q) := by
      rw [removing_iff hq, ← hentry hout]
      simp [habsent, hnone]
    rw [List.mem_cons, h.mem, ← hiff]
    simp only [List.mem_append, List.mem_singleton, or_and_right, exists_or, exists_eq_left]
    exact or_comm.trans or_assoc

/-- A whole item. -/
theorem attempt (hP : ∀ u ∈ P, ∀ v, c.LeadsTo i u v → v ∈ P)
    (himports : c.CanonicalImports)
    (hq : Path.Canonical c.workspace.cwd q)
    (hbatch : c.Stale i.graph (Uri.ofResolved q) → Uri.ofResolved q ∈ P) (hf : Frontier c i P p [])
    (h : Makes c i p.parsed done p.graph l) (hattempt : Attempted c p q p') :
    ∃ l', Makes c i p'.parsed (done ++ [Uri.ofResolved q]) p'.graph l' := by
  have hthere : ∀ {l : List CodeGraph.Change}, c.present q ≠ .ok false →
      ∀ x, c.Removing i (Uri.ofResolved q) x → x ∈ l := by
    intro l hpresent x hx
    exact absurd ((removing_iff hq x).mp hx).1 hpresent
  cases hattempt with
  | idle alike reason =>
    rw [alike.parsed, alike.graph]
    refine ⟨l, h.keep (hthere fun habsent => ?_)⟩
    rcases reason with hseen | ⟨e, hfault⟩
    · obtain ⟨path, hpath, hpresent⟩ := hf.present _ hseen
      cases hpath.symm.trans hq.toPath
      cases habsent.symm.trans hpresent
    · cases habsent.symm.trans hfault
  | removed alike absent =>
    rw [alike.parsed, alike.graph]
    exact h.remove hf hq absent
  | walked walks present alike =>
    obtain ⟨-, ⟨l', hl'⟩, -⟩ := Frontier.walk hP himports
      (J := fun p => ∃ l, Makes c i p.parsed done p.graph l)
      (fun p u queue p' v hf hnew hvisit ⟨l, hl⟩ => hl.visit hf hnew hvisit) walks
      (hf.push hq present hbatch) ⟨l, h⟩
    rw [alike.parsed, alike.graph]
    exact ⟨l', hl'.keep (hthere (by rw [present]; simp))⟩

end Makes

/-- A visit of a document does not fail: it can be entered, or there is nothing to enter. -/
def Passable (c : Context) (f : FileFilter) (u : String) : Prop := Enterable c f u ∨ Blank c u

theorem Passable.congr {c : Context} {f f' : FileFilter} {u : String} (h : Passable c f u)
    (hfilter : ∀ rel, c.verdict f' rel = c.verdict f rel) : Passable c f' u :=
  h.imp_left fun henterable => henterable.congr hfilter

/-- A visit succeeds where the document is passable or known. -/
theorem visit_isOk_of_passable {c : Context} {p : Pass} {q : Path} (hq : Path.Canonical c.workspace.cwd q)
    (h : ∀ d, c.Reads (Uri.ofResolved q) d q → ¬p.Known (c.relative q) (Digest.ofText d.text) →
      Passable c p.filter (Uri.ofResolved q)) :
    (visit c (p.mark (Uri.ofResolved q)) (Uri.ofResolved q)).2.isOk = true := by
  obtain ⟨r, hr⟩ := Context.exists_read_of_canonical hq
  refine visit_isOk hr fun d path hreads => ?_
  obtain rfl := hreads.path_eq hq
  by_cases hknown : p.Known (c.relative path) (Digest.ofText d.text)
  · exact .inl hknown
  · exact .inr (h d hreads hknown)

namespace Frontier

variable {c : Context} {i : Index} {P : Set String} {full : Bool} {p p' : Pass} {queue : List String} {q : Path}

/-- A property of a pass and the documents it is done with, kept by each item, is kept by a batch. -/
theorem items_keeps {J : List String → Pass → Prop} (done : List String)
    (hP : ∀ u ∈ P, ∀ v, c.LeadsTo i u v → v ∈ P)
    (himports : c.CanonicalImports)
    (hJ : ∀ done p p' q, Path.Canonical c.workspace.cwd q →
      (c.Stale i.graph (Uri.ofResolved q) → Uri.ofResolved q ∈ P) → Frontier c i P p [] →
      Attempted c p q p' → J done p → J (done ++ [Uri.ofResolved q]) p')
    {uris : List String} (hbatch : ∀ u ∈ uris, c.IsCanonical u ∧ (c.Stale i.graph u → u ∈ P))
    (hsteady : Steady c full p uris) (hsaved : (Pass.items c full p uris).2 = .ok ())
    (h : Frontier c i P p []) (hp : J done p) : J (done ++ uris) (Pass.items c full p uris).1 := by
  induction uris generalizing p done with
  | nil =>
    rw [List.append_nil]
    exact hp
  | cons uri rest ih =>
    obtain ⟨p', hattempt, hwalk, hrest, hitems⟩ := hsteady.head hsaved
    obtain ⟨⟨q, hq, rfl⟩, hin⟩ := hbatch uri (by simp)
    have hattempted := attempted hq hwalk hattempt
    obtain ⟨hfrontier, -, -⟩ := h.attempt hP himports hq hin hattempted
    rw [hitems] at hsaved ⊢
    have hend := ih _ (fun u hu => hbatch u (List.mem_cons_of_mem _ hu)) hrest hsaved hfrontier
      (hJ done p p' q hq hin h hattempted hp)
    rwa [List.append_assoc] at hend

theorem passable_visit {uri : String} {v : Visit} (h : Frontier c i P p (uri :: queue))
    (hvisit : Pass.visit c (p.mark uri) uri = (p', .ok v))
    (hp : ∀ u ∈ p.parsed, Passable c i.filter u) : ∀ u ∈ p'.parsed, Passable c i.filter u := by
  have hparse : ∀ {p' : Pass}, p'.parsed = p.parsed ++ [uri] → Passable c p.filter uri →
      ∀ u ∈ p'.parsed, Passable c i.filter u := by
    intro p' hparsed hpassable u hu
    rw [hparsed] at hu
    rcases List.mem_append.mp hu with hu | hu
    · exact hp u hu
    · rw [List.mem_singleton.mp hu]
      exact hpassable.congr fun rel => (h.filter rel).symm
  cases outcome_of_visit hvisit with
  | idle _ parsed =>
    rw [parsed]
    exact hp
  | blank _ parsed _ _ _ blank => exact hparse parsed (.inr blank)
  | @entered p₁ d path m found ids _ parsed reads _ map nodes _ _ ids_eq answers =>
    have hparsed : p₁.parsed = p.parsed ++ [uri] := parsed
    exact hparse hparsed (.inl ⟨d, path, m, ids, reads, map, nodes, answers, ids_eq⟩)

/-- All that a pass without a failed visit parses is passable. -/
theorem passable_items (hP : ∀ u ∈ P, ∀ v, c.LeadsTo i u v → v ∈ P)
    (himports : c.CanonicalImports) {uris : List String}
    (hbatch : ∀ u ∈ uris, c.IsCanonical u ∧ (c.Stale i.graph u → u ∈ P))
    (hsteady : Steady c full (.start i) uris) (hsaved : (Pass.items c full (.start i) uris).2 = .ok ()) :
    ∀ u ∈ (Pass.items c full (.start i) uris).1.parsed, Passable c i.filter u := by
  refine items_keeps (J := fun _ p => ∀ u ∈ p.parsed, Passable c i.filter u) [] hP himports
    ?_ hbatch hsteady hsaved (.start c i P) (by simp [Pass.start])
  intro done p p' q hq hin hfrontier hattempted hp
  cases hattempted with
  | idle alike =>
    rw [alike.parsed]
    exact hp
  | removed alike =>
    rw [alike.parsed]
    exact hp
  | walked walks present alike =>
    obtain ⟨-, hend, -⟩ := walk hP himports (J := fun p => ∀ u ∈ p.parsed, Passable c i.filter u)
      (fun p u queue p' v hf _ hvisit hp => hf.passable_visit hvisit hp) walks (hfrontier.push hq present hin) hp
    rw [alike.parsed]
    exact hend

/-- Where all documents that have to be parsed are passable, no walk fails. -/
theorem walk_isOk (hP : ∀ u ∈ P, ∀ v, c.LeadsTo i u v → v ∈ P)
    (himports : c.CanonicalImports)
    (hpassable : ∀ u ∈ P, Passable c i.filter u) (hq : Path.Canonical c.workspace.cwd q)
    (hin : c.Stale i.graph (Uri.ofResolved q) → Uri.ofResolved q ∈ P) (h : Frontier c i P p []) :
    (Pass.walk c (walkFuel c) p (.start (Uri.ofResolved q)) [Uri.ofResolved q]).2.isOk = true := by
  have hwalks := walks_walk c p (Uri.ofResolved q)
  generalize Pass.walk c (walkFuel c) p (.start (Uri.ofResolved q)) [Uri.ofResolved q] = x at hwalks
  by_cases hpresent : c.present q = .ok true
  · refine hwalks.isOk (I := Underway c i P) (fun _ _ _ _ hseen h => h.skip hseen)
      (fun _ _ _ _ _ _ hnew hvisit h => h.step hP himports hnew hvisit) ?_ (.start (h.push hq hpresent hin))
    intro p item uri queue hnew hunderway
    have hf := hunderway.frontier
    obtain ⟨⟨q, hq, rfl⟩, -, hin⟩ := hf.queued uri (by simp)
    refine visit_isOk_of_passable hq fun d hreads hunknown => ?_
    have hstale := (hf.stale_iff hq hreads fun hmem => hnew (hf.visited _ hmem)).mpr hunknown
    exact (hpassable _ (hin hstale)).congr hf.filter
  · -- nothing can be read, so the visit finds nothing
    have hunread : ∀ d path, ¬c.Reads (Uri.ofResolved q) d path := by
      intro d path hreads
      obtain rfl := hreads.path_eq hq
      exact hpresent (Context.present_of_reads hreads)
    have hok := visit_isOk_of_passable (p := p) hq fun d hreads => absurd hreads (hunread d q)
    cases hwalks with
    | skip _ rest =>
      cases rest
      rfl
    | fail _ visit =>
      rw [visit] at hok
      cases hok
    | step _ visit rest =>
      have hnothing : ∀ {p' v}, Pass.visit c (p.mark (Uri.ofResolved q)) (Uri.ofResolved q) = (p', .ok v) →
          v.found = [] := by
        intro p' v hvisit
        cases outcome_of_visit hvisit with
        | idle => rfl
        | blank => rfl
        | entered _ _ reads => exact absurd reads (hunread _ _)
      rw [Item.fresh, hnothing visit] at rest
      cases rest
      rfl

theorem steady (hP : ∀ u ∈ P, ∀ v, c.LeadsTo i u v → v ∈ P)
    (himports : c.CanonicalImports)
    (hpassable : ∀ u ∈ P, Passable c i.filter u) {uris : List String}
    (hbatch : ∀ u ∈ uris, c.IsCanonical u ∧ (c.Stale i.graph u → u ∈ P)) (h : Frontier c i P p []) :
    Steady c full p uris := by
  induction uris generalizing p with
  | nil => trivial
  | cons uri rest ih =>
    obtain ⟨⟨q, hq, rfl⟩, hin⟩ := hbatch uri (by simp)
    have hwalk := h.walk_isOk hP himports hpassable hq hin
    obtain ⟨hfrontier, -, -⟩ := h.attempt hP himports hq hin (attempted hq hwalk rfl)
    exact ⟨hwalk, ih (fun u hu => hbatch u (List.mem_cons_of_mem _ hu)) hfrontier⟩

end Frontier

/-- The changes of a whole pass. -/
theorem makes_items {c : Context} {i : Index} {full : Bool}
    (himports : c.CanonicalImports) {uris : List String}
    (hbatch : ∀ u ∈ uris, c.IsCanonical u) (hsteady : Steady c full (.start i) uris)
    (hsaved : (items c full (.start i) uris).2 = .ok ()) :
    ∃ l, Makes c i (items c full (.start i) uris).1.parsed uris (items c full (.start i) uris).1.graph l := by
  refine Frontier.items_keeps (P := Set.univ)
    (J := fun done p => ∃ l, Makes c i p.parsed done p.graph l) [] (fun _ _ _ _ => trivial) himports
    ?_ (fun u hu => ⟨hbatch u hu, fun _ => trivial⟩) hsteady hsaved (.start c i _) ⟨[], .start c i⟩
  intro done p p' q hq hin hfrontier hattempted ⟨l, hl⟩
  exact hl.attempt (fun _ _ _ _ => trivial) himports hq hin hfrontier hattempted

/-- Two passes that parse the same documents, over batches with the same members, end with the same files
and import edges. -/
theorem agrees_items {c : Context} {i : Index} {full : Bool} (htidy : i.graph.IsTidy c.base)
    (himports : c.CanonicalImports) {uris uris' : List String}
    (hbatch : ∀ u ∈ uris, c.IsCanonical u) (hsame : ∀ u, u ∈ uris' ↔ u ∈ uris)
    (hsteady : Steady c full (.start i) uris) (hsaved : (items c full (.start i) uris).2 = .ok ())
    (hsteady' : Steady c full (.start i) uris') (hsaved' : (items c full (.start i) uris').2 = .ok ())
    (hparsed : ∀ u, u ∈ (items c full (.start i) uris').1.parsed ↔
      u ∈ (items c full (.start i) uris).1.parsed) :
    (items c full (.start i) uris).1.graph.Agrees (items c full (.start i) uris').1.graph := by
  have hbatch' : ∀ u ∈ uris', c.IsCanonical u := fun u hu => hbatch u ((hsame u).mp hu)
  obtain ⟨l, hl⟩ := makes_items himports hbatch hsteady hsaved
  obtain ⟨l', hl'⟩ := makes_items himports hbatch' hsteady' hsaved'
  have hperm : l.Perm l' := by
    refine (List.perm_ext_iff_of_nodup hl.nodup hl'.nodup).mpr fun x => ?_
    rw [hl.mem, hl'.mem]
    simp only [hparsed, hsame]
  obtain ⟨hfrontier, -, -⟩ := Frontier.items (P := Set.univ) (fun _ _ _ _ => trivial) himports
    (fun u hu => ⟨hbatch u hu, fun _ => trivial⟩) hsteady hsaved (.start c i _)
  rw [hl.graph, hl'.graph]
  refine CodeGraph.agrees_of_perm htidy hperm (fun x hx => ?_) ?_
  · rcases (hl.mem x).mp hx with ⟨u, hu, hentering⟩ | ⟨_, _, _, _, _, _, _, rfl⟩
    · exact Context.isProper_of_entering (hfrontier.canonical u hu) hentering
    · trivial
  · refine hl.nodup.pairwise_of_forall_ne fun x hx y hy hne => ?_
    obtain ⟨q, hconcerns, hchange⟩ := hl.concerns hfrontier hx
    obtain ⟨q', hconcerns', hchange'⟩ := hl.concerns hfrontier hy
    refine hconcerns.independent hconcerns' fun heq => hne ?_
    subst heq
    have hkind : ∀ {x y : CodeGraph.Change}, c.Concerns q x → c.Entering (Uri.ofResolved q) x →
        ¬c.Removing i (Uri.ofResolved q) y := by
      intro x y hx hentering hremoving
      obtain ⟨_, _, _, _, _, _, _, _, rfl⟩ := hentering
      cases hx.present.mpr ((Makes.removing_iff hx.canonical y).mp hremoving).1
    rcases hchange with hentering | hremoving
    · rcases hchange' with hentering' | hremoving'
      · exact hentering.unique hentering'
      · exact absurd hremoving' (hkind hconcerns hentering)
    · rcases hchange' with hentering' | hremoving'
      · exact absurd hremoving (hkind hconcerns' hentering')
      · obtain ⟨-, -, hx⟩ := (Makes.removing_iff hconcerns.canonical x).mp hremoving
        obtain ⟨-, -, hy⟩ := (Makes.removing_iff hconcerns.canonical y).mp hremoving'
        exact hx.trans hy.symm

end Pass

namespace Index

/-- The table of files of a reachable index is tidy. -/
theorem isTidy_of_reachable {cwd root : Path} {b : Backend} {W : Context → FileFilter → Prop} {i : Index}
    (h : Reachable cwd root b (fun u => ∃ file, Uri.ofPath cwd file = .ok u) W i) :
    i.graph.IsTidy (Path.resolve cwd root) := by
  have hkept := h.kept (lasting_entries (T := CodeGraph.Tidy (Path.resolve cwd root)) ?_)
  · exact ⟨hkept.workspace, hkept.graph⟩
  intro c f uri d path m ids hcwd hroot _ _ huri hreads hm hnodes hids
  have hresolved : ∃ q : Path, q.Resolved ∧ uri = Uri.ofResolved q := by
    rcases huri with ⟨file, hfile⟩ | ⟨q, hq, huri⟩
    · exact ⟨_, Path.resolved_resolve _ _, Uri.eq_of_ofPath hfile⟩
    · exact ⟨q, hq.resolved, huri⟩
  obtain ⟨q, hq, rfl⟩ := hresolved
  obtain ⟨uri, text⟩ := d
  obtain rfl := hreads.uri_eq
  subst hcwd hroot
  refine CodeGraph.tidy_of_parsed c.resolved_base hq hreads.path hm fun id hid => ?_
  obtain ⟨n, hn, hrel⟩ := Results.exists_of_mem_mapM hids hid
  exact ⟨n, hn, Results.mapError_eq_ok.mp hrel⟩

/-- What a pass over canonical documents parses, from any reachable index, if no visit and no save
fails. The walks end, however the imports are related. The documents parsed are the least set that
holds the stale ones of the batch and is closed under imports that lead to stale documents which pass
the filter, and each is parsed once. So they, the table of files and the import edges are the same for
every batch with the same members, whatever its order and repetitions. -/
theorem parsed_of_process {cwd root : Path} {b : Backend} {W : Context → FileFilter → Prop} {i : Index}
    (hreachable : Reachable cwd root b (fun u => ∃ file, Uri.ofPath cwd file = .ok u) W i)
    {c : Context} (hcwd : c.workspace.cwd = cwd) (hroot : c.workspace.root = root) {full : Bool}
    (himports : c.CanonicalImports) {uris : List String}
    (hbatch : ∀ u ∈ uris, c.IsCanonical u) (hsteady : Pass.Steady c full (.start i) uris)
    (hsaved : (i.process c uris full).2.result = .ok ()) :
    (∀ p u, Pass.Walks c p (.start u) [u] (Pass.walk c (Pass.walkFuel c) p (.start u) [u])) ∧
    IsLeast {P : Set String | c.Closed i uris P} {u | u ∈ (Pass.items c full (.start i) uris).1.parsed} ∧
    (Pass.items c full (.start i) uris).1.parsed.Nodup ∧
    ∀ uris', (∀ u, u ∈ uris' ↔ u ∈ uris) → Pass.Steady c full (.start i) uris' ∧
      ((i.process c uris' full).2.result = .ok () →
        (∀ u, u ∈ (Pass.items c full (.start i) uris').1.parsed ↔
          u ∈ (Pass.items c full (.start i) uris).1.parsed) ∧
        (i.process c uris full).1.graph.files.Same (i.process c uris' full).1.graph.files ∧
        (i.process c uris full).1.graph.imports.Same (i.process c uris' full).1.graph.imports) := by
  subst hcwd hroot
  obtain ⟨hleast, hnodup⟩ := Pass.isLeast_parsed himports hbatch hsteady hsaved
  refine ⟨Pass.walks_walk c, hleast, hnodup, fun uris' hsame => ?_⟩
  have hbatch' : ∀ u ∈ uris', c.IsCanonical u := fun u hu => hbatch u ((hsame u).mp hu)
  have hclosed : ∀ P, c.Closed i uris' P ↔ c.Closed i uris P := by
    intro P
    constructor
    · intro hP
      exact ⟨fun u hu => hP.batch u ((hsame u).mpr hu), hP.leads⟩
    · intro hP
      exact ⟨fun u hu => hP.batch u ((hsame u).mp hu), hP.leads⟩
  have hparses := hleast.1
  have hsteady' : Pass.Steady c full (.start i) uris' := by
    refine Pass.Frontier.steady hparses.leads himports ?_
      (fun u hu => ⟨hbatch' u hu, hparses.batch u ((hsame u).mp hu)⟩) (.start c i _)
    exact Pass.Frontier.passable_items hparses.leads himports
      (fun u hu => ⟨hbatch u hu, hparses.batch u hu⟩) hsteady hsaved
  refine ⟨hsteady', fun hsaved' => ?_⟩
  obtain ⟨hleast', -⟩ := Pass.isLeast_parsed himports hbatch' hsteady' hsaved'
  simp only [hclosed] at hleast'
  have hparsed : ∀ u, u ∈ (Pass.items c full (.start i) uris').1.parsed ↔
      u ∈ (Pass.items c full (.start i) uris).1.parsed := by
    intro u
    exact Set.ext_iff.mp (hleast'.unique hleast) u
  have hagrees := Pass.agrees_items (isTidy_of_reachable hreachable) himports hbatch hsame hsteady hsaved
    hsteady' hsaved' hparsed
  rw [(process_eq c i uris full).1, (process_eq c i uris' full).1]
  exact ⟨hparsed, hagrees.entry, hagrees.imports⟩

/-- `a.py` and `b.py` import each other, and the skeleton of `a.py` cannot be made. -/
theorem parsed_of_process_cyclic :
    let cwd : Path := ⟨.root, ["tmp", "w"]⟩
    let root : Path := ⟨.root, ["tmp", "w", "ws"]⟩
    let c := sampleContext [("a.py", "import b\n"), ("b.py", "import a\n")] "a"
    let i := make (Path.resolve cwd root) (.empty "graph.json" 4) "b.py" []
    let a := "file:///tmp/w/ws/a.py"
    let b := "file:///tmp/w/ws/b.py"
    (Pass.items c false (.start i) [b, a, b]).1.parsed.Nodup ∧
      (i.process c [b, a, b] false).1.graph.files.Same (i.process c [a, b] false).1.graph.files ∧
      (i.process c [b, a, b] false).1.graph.imports.Same (i.process c [a, b] false).1.graph.imports := by
  intro cwd root c i a b
  have hbatch : ∀ u ∈ [b, a, b], c.IsCanonical u := by
    have ha : c.IsCanonical a := ⟨⟨.root, ["tmp", "w", "ws", "a.py"]⟩,
      ⟨a, by decide +kernel, by decide +kernel⟩, by decide +kernel⟩
    have hb : c.IsCanonical b := ⟨⟨.root, ["tmp", "w", "ws", "b.py"]⟩,
      ⟨b, by decide +kernel, by decide +kernel⟩, by decide +kernel⟩
    simp [ha, hb]
  have himports : c.CanonicalImports := by
    apply Context.canonicalImports_of_percent_not_mem
    unfold Path.Plain
    decide
  have hsteady : Pass.Steady c false (.start i) [b, a, b] := by decide +kernel
  have hsaved : (i.process c [b, a, b] false).2.result = .ok () := by decide +kernel
  have hsaved' : (i.process c [a, b] false).2.result = .ok () := by decide +kernel
  have hreachable : Reachable cwd root .tolerant (fun u => ∃ file, Uri.ofPath cwd file = .ok u)
      (fun _ _ => True) i := .start _ _ _ _
  have hcwd : c.workspace.cwd = cwd := rfl
  have hroot : c.workspace.root = root := rfl
  clear_value c i
  obtain ⟨-, -, hnodup, hsame⟩ := parsed_of_process hreachable hcwd hroot himports hbatch hsteady hsaved
  obtain ⟨-, hother⟩ := hsame [a, b] (by simp [or_comm])
  exact ⟨hnodup, (hother hsaved').2⟩

/-- Names in brackets that go on behind a comment are taken as they are written, so an import leads to a
file with an escape in its name. The file is there, new and accepted, but its URI leads elsewhere: it is
not parsed. -/
theorem not_mem_parsed_of_escape :
    let text := "from . import (b#%41\n.c, d#x\n.e)\n"
    let c := sampleContext [("a.py", text), ("b#%41\n.c.py", "x\n"), ("d#x\n.e.py", "x\n")] ""
    let i := make c.base (.empty "graph.json" 4) "b#%41\n.c.py" []
    let a := "file:///tmp/w/ws/a.py"
    let q : Path := ⟨.root, ["tmp", "w", "ws", "b#%41\n.c.py"]⟩
    (c.IsCanonical a ∧ Pass.Steady c false (.start i) [a] ∧ (i.process c [a] false).2.result = .ok ()) ∧
      (CodeMap.Refers c.backend c.workspace ⟨a, text⟩ q ∧ c.workspace.isFile q = .ok true ∧
        c.verdict i.filter (c.relative q) = .ok true ∧ i.graph.entry? (c.relative q) = none) ∧
      (i.process c [a] false).1.graph.Carries "a.py" (Digest.ofText text) ∧
      (Pass.items c false (.start i) [a]).1.parsed = [a] := by
  intro text c i a q
  have hcanonical : c.IsCanonical a := ⟨⟨.root, ["tmp", "w", "ws", "a.py"]⟩,
    ⟨a, by decide +kernel, by decide +kernel⟩, by decide +kernel⟩
  have hrefs : (CodeMap.outline c.backend ⟨a, text⟩).map (·.refs) =
      .ok [⟨"", 1, ["b#%41\n.c", "d#x\n.e"]⟩] := by decide +kernel
  have hrefers : CodeMap.Refers c.backend c.workspace ⟨a, text⟩ q := by
    cases ho : CodeMap.outline c.backend ⟨a, text⟩ with
    | error e =>
      rw [ho] at hrefs
      cases hrefs
    | ok o =>
      rw [ho] at hrefs
      have hall : o.refs = [⟨"", 1, ["b#%41\n.c", "d#x\n.e"]⟩] := Except.ok.inj hrefs
      exact ⟨⟨.root, ["tmp", "w", "ws", "a.py"]⟩, o, ⟨"", 1, ["b#%41\n.c", "d#x\n.e"]⟩,
        [q, ⟨.root, ["tmp", "w", "ws", "d#x\n.e.py"]⟩], by decide +kernel, ho, by simp [hall],
        by decide +kernel, List.mem_cons_self⟩
  exact ⟨⟨hcanonical, by decide +kernel⟩, ⟨hrefers, by decide +kernel⟩, by decide +kernel⟩

end Index

end OutlineIndex
