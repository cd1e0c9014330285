import Mathlib.Algebra.BigOperators.Group.List.Basic
import Mathlib.Data.List.Nodup
import OutlineIndex.Proofs.CodeMap
import OutlineIndex.Skeleton.Compose

namespace OutlineIndex.Skeleton

namespace Tree

mutual

/-- The nodes of a tree, those below a node before it. -/
def nodes : Tree → List Node
  | .mk n ts => nodesAll ts ++ [n]

def nodesAll : List Tree → List Node
  | [] => []
  | t :: ts => nodes t ++ nodesAll ts

end

theorem nodesAll_eq_flatMap (ts : List Tree) : nodesAll ts = ts.flatMap nodes := by
  induction ts with
  | nil => rfl
  | cons t ts ih => rw [nodesAll, ih, List.flatMap_cons]

theorem count_flatMap_of_forall {l : List Node} {f : Node → List Node} {m : Node} {g : Node → Nat}
    (h : ∀ c ∈ l, (f c).count m = (if c = m then 1 else 0) + g c) :
    (l.flatMap f).count m = l.count m + (l.map g).sum := by
  induction l with
  | nil => rfl
  | cons c l ih =>
    have hc := h c (by simp)
    have hl := ih fun x hx => h x (by simp [hx])
    rw [List.flatMap_cons, List.count_append, hc, hl, List.count_cons, List.map_cons, List.sum_cons]
    by_cases e : c = m
    · simp [e]
      omega
    · simp [e]
      omega

variable {nodes : List Node}

def childrenOf (nodes : List Node) (n : Node) : List Node := nodes.filter (·.parent == some n.id)

theorem mem_childrenOf {n c : Node} : c ∈ childrenOf nodes n ↔ c ∈ nodes ∧ c.parent = some n.id := by
  simp [childrenOf]

theorem nodes_grow_succ (depth : Nat) (n : Node) : (grow nodes (depth + 1) n).nodes =
    (childrenOf nodes n).flatMap (fun c => (grow nodes depth c).nodes) ++ [n] := by
  rw [grow, Tree.nodes, nodesAll_eq_flatMap, List.flatMap_map]
  rfl

/-- A list of nodes in which a parent ranks below its children. -/
structure Ranked (nodes : List Node) (rank : Node → Int) : Prop where
  distinct : (nodes.map (·.id)).Nodup
  named : ∀ n ∈ nodes, n.id ≠ ""
  parent_lt : ∀ c ∈ nodes, ∀ p ∈ nodes, c.parent = some p.id → rank p < rank c

namespace Ranked

variable {rank : Node → Int}

theorem nodup (h : Ranked nodes rank) : nodes.Nodup := List.Nodup.of_map _ h.distinct

theorem eq_of_id (h : Ranked nodes rank) {m n : Node} (hm : m ∈ nodes) (hn : n ∈ nodes)
    (e : m.id = n.id) : m = n := List.inj_on_of_nodup_map h.distinct hm hn e

/-- How many nodes rank above a node: more than the depth of the tree under it. -/
def above (nodes : List Node) (rank : Node → Int) (n : Node) : Nat :=
  nodes.countP fun m => decide (rank n < rank m)

theorem above_lt (h : Ranked nodes rank) {n c : Node} (hn : n ∈ nodes) (hc : c ∈ childrenOf nodes n) :
    above nodes rank c < above nodes rank n := by
  obtain ⟨hmem, hparent⟩ := mem_childrenOf.mp hc
  have hlt := h.parent_lt c hmem n hn hparent
  unfold above
  obtain ⟨a, b, rfl⟩ := List.append_of_mem hmem
  have hmono : ∀ l : List Node, (l.countP fun m => decide (rank c < rank m)) ≤
      l.countP fun m => decide (rank n < rank m) := by
    intro l
    refine List.countP_mono_left fun x _ hx => ?_
    simp only [decide_eq_true_eq] at hx ⊢
    exact Int.lt_trans hlt hx
  have ha := hmono a
  have hb := hmono b
  simp only [List.countP_append, List.countP_cons, decide_eq_true hlt, lt_self_iff_false, decide_false,
    Bool.false_eq_true, if_false, if_true]
  omega

theorem mem_nodes_grow (depth : Nat) {n m : Node} (hn : n ∈ nodes)
    (hm : m ∈ (grow nodes depth n).nodes) : m ∈ nodes := by
  induction depth generalizing n with
  | zero =>
    obtain rfl : m = n := by simpa [grow, Tree.nodes, nodesAll] using hm
    exact hn
  | succ depth ih =>
    rw [nodes_grow_succ, List.mem_append, List.mem_flatMap, List.mem_singleton] at hm
    rcases hm with ⟨c, hc, hm⟩ | rfl
    · exact ih (mem_childrenOf.mp hc).1 hm
    · exact hn

theorem count_childrenOf (h : Ranked nodes rank) {m p n : Node} (hm : m ∈ nodes) (hp : p ∈ nodes)
    (hn : n ∈ nodes) (hparent : m.parent = some p.id) :
    (childrenOf nodes n).count m = if n = p then 1 else 0 := by
  have hiff : m ∈ childrenOf nodes n ↔ n = p := by
    rw [mem_childrenOf, hparent]
    constructor
    · rintro ⟨-, e⟩
      exact h.eq_of_id hn hp (Option.some.inj e).symm
    · rintro rfl
      exact ⟨hm, rfl⟩
  rw [childrenOf, (h.nodup.filter _).count]
  exact if_congr hiff rfl rfl

/-- A node occurs as often as its parent does, and once more at the top. -/
theorem count_grow_of_parent (h : Ranked nodes rank) {m p : Node} (hm : m ∈ nodes) (hp : p ∈ nodes)
    (hparent : m.parent = some p.id) (depth : Nat) {n : Node} (hn : n ∈ nodes)
    (hdepth : above nodes rank n ≤ depth) : (grow nodes depth n).nodes.count m =
      (if n = m then 1 else 0) + (grow nodes depth n).nodes.count p := by
  induction depth generalizing n with
  | zero =>
    have hne : n ≠ p := by
      rintro rfl
      have := h.above_lt hn (mem_childrenOf.mpr ⟨hm, hparent⟩)
      omega
    simp [grow, Tree.nodes, nodesAll, hne, List.count_cons]
  | succ depth ih =>
    have hchildren : ∀ c ∈ childrenOf nodes n, (grow nodes depth c).nodes.count m =
        (if c = m then 1 else 0) + (grow nodes depth c).nodes.count p := by
      intro c hc
      have hlt := h.above_lt hn hc
      exact ih (mem_childrenOf.mp hc).1 (by omega)
    rw [nodes_grow_succ, List.count_append, List.count_append, count_flatMap_of_forall hchildren,
      h.count_childrenOf hm hp hn hparent, List.count_flatMap, List.count_singleton, List.count_singleton]
    simp only [beq_iff_eq, Function.comp_def]
    omega

/-- A node without a parent occurs at the top only. -/
theorem count_grow_of_root {m : Node}
    (hroot : ∀ p ∈ nodes, m.parent ≠ some p.id) (depth : Nat) {n : Node} (hn : n ∈ nodes) :
    (grow nodes depth n).nodes.count m = if n = m then 1 else 0 := by
  induction depth generalizing n with
  | zero => simp [grow, Tree.nodes, nodesAll, List.count_cons]
  | succ depth ih =>
    have hchildren : ∀ c ∈ childrenOf nodes n, (grow nodes depth c).nodes.count m =
        (if c = m then 1 else 0) + 0 := fun c hc => ih (mem_childrenOf.mp hc).1
    have hnot : m ∉ childrenOf nodes n := fun hm => hroot n hn (mem_childrenOf.mp hm).2
    rw [nodes_grow_succ, List.count_append, count_flatMap_of_forall hchildren,
      List.count_eq_zero.mpr hnot, List.count_singleton]
    simp

theorem isRoot_iff (h : Ranked nodes rank) (m : Node) :
    isRoot nodes m = true ↔ ∀ p ∈ nodes, m.parent ≠ some p.id := by
  unfold isRoot
  cases hp : m.parent with
  | none => simp
  | some q =>
    simp only [Bool.or_eq_true, decide_eq_true_eq, Bool.not_eq_true', ne_eq, Option.some.injEq]
    constructor
    · rintro (rfl | hq) p hmem e
      · exact h.named p hmem e.symm
      · have := List.any_eq_false.mp hq p hmem
        exact this (by simp [e])
    · intro hno
      refine .inr (List.any_eq_false.mpr fun p hmem e => hno p hmem ?_)
      exact (eq_of_beq e).symm

theorem above_le_length (rank : Node → Int) (n : Node) : above nodes rank n ≤ nodes.length :=
  List.countP_le_length

theorem nodesAll_forest (nodes : List Node) : nodesAll (forest nodes) =
    (nodes.filter (isRoot nodes)).flatMap fun n => (grow nodes nodes.length n).nodes := by
  rw [nodesAll_eq_flatMap, forest, List.flatMap_map]

theorem mem_of_mem_forest {m : Node} (h : m ∈ nodesAll (forest nodes)) : m ∈ nodes := by
  rw [nodesAll_forest] at h
  obtain ⟨n, hn, hm⟩ := List.mem_flatMap.mp h
  exact mem_nodes_grow _ (List.mem_filter.mp hn).1 hm

/-- The forest holds every node of the list once. -/
theorem perm_forest (h : Ranked nodes rank) : (nodesAll (forest nodes)).Perm nodes := by
  have hforest := nodesAll_forest nodes
  have hroot : ∀ m ∈ nodes, (nodes.filter (isRoot nodes)).count m = if isRoot nodes m then 1 else 0 := by
    intro m hm
    rw [(h.nodup.filter _).count]
    simp [hm]
  -- by induction on how few nodes rank above a node: more rank above its parent
  have hcount : ∀ k, ∀ m ∈ nodes, nodes.length - above nodes rank m = k →
      (nodesAll (forest nodes)).count m = 1 := by
    intro k
    induction k using Nat.strong_induction_on with
    | _ k ih =>
      intro m hm hk
      by_cases hr : isRoot nodes m = true
      · have hgrow : ∀ n ∈ nodes.filter (isRoot nodes), (grow nodes nodes.length n).nodes.count m =
            (if n = m then 1 else 0) + 0 :=
          fun n hn => count_grow_of_root ((h.isRoot_iff m).mp hr) _ (List.mem_filter.mp hn).1
        rw [hforest, count_flatMap_of_forall hgrow, hroot m hm, if_pos hr]
        simp
      · obtain ⟨p, hp, hparent⟩ : ∃ p ∈ nodes, m.parent = some p.id := by
          by_contra hno
          exact hr ((h.isRoot_iff m).mpr fun p hp e => hno ⟨p, hp, e⟩)
        have hgrow : ∀ n ∈ nodes.filter (isRoot nodes), (grow nodes nodes.length n).nodes.count m =
            (if n = m then 1 else 0) + (grow nodes nodes.length n).nodes.count p :=
          fun n hn => h.count_grow_of_parent hm hp hparent _ (List.mem_filter.mp hn).1
            (above_le_length rank n)
        have hlt := h.above_lt hp (mem_childrenOf.mpr ⟨hm, hparent⟩)
        have hle : above nodes rank p ≤ nodes.length := above_le_length rank p
        have hp1 := ih (nodes.length - above nodes rank p) (by omega) p hp rfl
        rw [hforest, List.count_flatMap] at hp1
        rw [hforest, count_flatMap_of_forall hgrow, hroot m hm, if_neg hr, Nat.zero_add]
        exact hp1
  rw [List.perm_iff_count]
  intro m
  by_cases hm : m ∈ nodes
  · rw [hcount _ m hm rfl, (h.nodup).count, if_pos hm]
  · rw [List.count_eq_zero.mpr hm, List.count_eq_zero.mpr fun hmem => hm (mem_of_mem_forest hmem)]

end Ranked

end Tree

/-- Where a node starts in its file, with the module before everything. -/
def place (n : Node) : Position := if n.parent = none then ⟨-1, 0⟩ else n.span.start

/-- How many of the nodes start before a node. -/
def rank (nodes : List Node) (n : Node) : Int := nodes.countP fun m => decide ((place m).Precedes (place n))

theorem rank_lt {nodes : List Node} {p c : Node} (hp : p ∈ nodes) (h : (place p).Precedes (place c)) :
    rank nodes p < rank nodes c := by
  have hself : ¬(place p).Precedes (place p) := by
    unfold Position.Precedes
    omega
  have hmono : ∀ l : List Node, (l.countP fun m => decide ((place m).Precedes (place p))) ≤
      l.countP fun m => decide ((place m).Precedes (place c)) := by
    intro l
    refine List.countP_mono_left fun x _ hx => ?_
    simp only [decide_eq_true_eq] at hx ⊢
    unfold Position.Precedes at *
    omega
  obtain ⟨a, b, rfl⟩ := List.append_of_mem hp
  have ha := hmono a
  have hb := hmono b
  unfold rank
  simp only [List.countP_append, List.countP_cons, decide_eq_true h, decide_eq_false hself,
    Bool.false_eq_true, if_false, if_true]
  omega

/-- Nodes of documents, each identifier once. -/
structure Collected (w : Workspace) (nodes : List Node) : Prop where
  distinct : (nodes.map (·.id)).Nodup
  owned : ∀ n ∈ nodes, ∃ q, n.OwnedBy (Uri.ofResolved q)
  readable : ∀ n ∈ nodes, ∃ d, w.read n.uri = .ok (.text d)

theorem place_precedes_of_parent {p c : Node} {q q' : Path} (hp : p.OwnedBy (Uri.ofResolved q))
    (hc : c.OwnedBy (Uri.ofResolved q')) (h : c.parent = some p.id) : (place p).Precedes (place c) := by
  cases hc with
  | module _ _ hparent => rw [hparent] at h; cases h
  | definition _ _ hline hparent =>
    have hplace : place c = c.span.start := by simp [place, h]
    cases hp with
    | module _ _ hnone =>
      have hp : place p = ⟨-1, 0⟩ := by simp [place, hnone]
      rw [hplace, hp]
      exact .inl (by dsimp only; omega)
    | definition _ hid _ hsome =>
      have hp : place p = p.span.start := by
        rcases hsome with e | ⟨r, e, -⟩ <;> simp [place, e]
      rw [hid] at h
      rcases hparent with e | ⟨r, e, hlt⟩
      · have hsplit := congrArg NodeId.split (Option.some.inj (h.symm.trans e))
        rw [NodeId.split_make, NodeId.split_uri] at hsplit
        exact absurd (Prod.ext_iff.mp hsplit).2 (NodeId.fragment_ne_empty _)
      · have hsplit := congrArg NodeId.split (Option.some.inj (h.symm.trans e))
        rw [NodeId.split_make, NodeId.split_make] at hsplit
        have hstart := NodeId.fragment_inj (Prod.ext_iff.mp hsplit).2
        rw [hp, hplace, hstart]
        exact hlt

theorem Collected.ranked {w : Workspace} {nodes : List Node} (h : Collected w nodes) :
    Tree.Ranked nodes (rank nodes) where
  distinct := h.distinct
  named n hn := by
    obtain ⟨q, hq⟩ := h.owned n hn
    obtain ⟨f, hid, -⟩ := hq.id_eq
    intro e
    have habs := NodeId.isAbsolute_ofResolved q f
    rw [← hid, e] at habs
    exact absurd habs (by decide)
  parent_lt c hc p hp e := by
    obtain ⟨q, hq⟩ := h.owned p hp
    obtain ⟨q', hq'⟩ := h.owned c hc
    exact rank_lt hp (place_precedes_of_parent hq hq' e)

theorem single_eq_ok {s : Sources} {n : Node} {ids : List String} {completed : List Completed}
    {r : Option Completed} (hread : ∃ d, s.workspace.read n.uri = .ok (.text d))
    (h : (single s n ids completed).result = .ok r) : ∃ x, r = some x ∧ x.node = n := by
  obtain ⟨d, hd⟩ := hread
  obtain ⟨o, ho, h⟩ := Traced.result_bind_eq_ok.mp h
  have hdoc : o = some d := by
    rw [documentOf, hd] at ho
    cases ho
    rfl
  subst hdoc
  obtain ⟨path, -, h⟩ := Traced.result_bind_eq_ok.mp h
  obtain ⟨text, -, h⟩ := Traced.result_bind_eq_ok.mp h
  cases h
  exact ⟨_, rfl, rfl⟩

mutual

theorem map_node_ofTree {s : Sources} (t : Tree)
    (hread : ∀ n ∈ t.nodes, ∃ d, s.workspace.read n.uri = .ok (.text d)) {done : List Completed}
    (h : (ofTree s t).result = .ok done) : done.map (·.node) = t.nodes := by
  match t with
  | .mk n ts =>
    obtain ⟨completed, hts, h⟩ := Traced.result_bind_eq_ok.mp h
    obtain ⟨own, hown, h⟩ := Traced.result_bind_eq_ok.mp h
    cases h
    have hbelow := map_node_ofTrees ts (fun m hm => hread m (List.mem_append_left _ hm)) hts
    obtain ⟨x, rfl, hx⟩ := single_eq_ok (hread n (List.mem_append_right _ (by simp))) hown
    rw [List.map_append, hbelow, Tree.nodes]
    simp [hx]

theorem map_node_ofTrees {s : Sources} (ts : List Tree)
    (hread : ∀ n ∈ Tree.nodesAll ts, ∃ d, s.workspace.read n.uri = .ok (.text d)) {done : List Completed}
    (h : (ofTrees s ts).result = .ok done) : done.map (·.node) = Tree.nodesAll ts := by
  match ts with
  | [] =>
    cases h
    rfl
  | t :: ts =>
    obtain ⟨first, hfirst, h⟩ := Results.bind_eq_ok.mp h
    obtain ⟨rest, hrest, h⟩ := Results.bind_eq_ok.mp h
    cases h
    rw [List.map_append, Tree.nodesAll,
      map_node_ofTree t (fun n hn => hread n (List.mem_append_left _ hn)) hfirst,
      map_node_ofTrees ts (fun n hn => hread n (List.mem_append_right _ hn)) hrest]

end

theorem map_node_inTurn {s : Sources} {ts : List Tree}
    (hread : ∀ n ∈ Tree.nodesAll ts, ∃ d, s.workspace.read n.uri = .ok (.text d)) {done : List Completed}
    (h : (inTurn s ts).result = .ok done) : done.map (·.node) = Tree.nodesAll ts := by
  induction ts generalizing done with
  | nil =>
    cases h
    rfl
  | cons t ts ih =>
    obtain ⟨first, hfirst, h⟩ := Traced.result_bind_eq_ok.mp h
    obtain ⟨rest, hrest, h⟩ := Traced.result_bind_eq_ok.mp h
    cases h
    rw [List.map_append, Tree.nodesAll,
      map_node_ofTree t (fun n hn => hread n (List.mem_append_left _ hn)) hfirst,
      ih (fun n hn => hread n (List.mem_append_right _ hn)) hrest]

/-- Only nodes of the list get skeletons. -/
theorem mem_of_mem_ofNodes {s : Sources} {nodes : List Node}
    (hread : ∀ n ∈ nodes, ∃ d, s.workspace.read n.uri = .ok (.text d)) {done : List Completed}
    (h : (ofNodes s nodes).result = .ok done) {x : Completed} (hx : x ∈ done) : x.node ∈ nodes := by
  have hforest := map_node_inTurn (fun n hn => hread n (Tree.Ranked.mem_of_mem_forest hn)) h
  have hmem : x.node ∈ done.map (·.node) := List.mem_map_of_mem hx
  rw [hforest] at hmem
  exact Tree.Ranked.mem_of_mem_forest hmem

/-- When the skeletons come through, each node has exactly one. -/
theorem perm_ofNodes {s : Sources} {nodes : List Node} (hn : Collected s.workspace nodes)
    {done : List Completed} (h : (ofNodes s nodes).result = .ok done) :
    (done.map (·.node)).Perm nodes := by
  have hperm := hn.ranked.perm_forest
  have hread : ∀ n ∈ Tree.nodesAll (Tree.forest nodes), ∃ d, s.workspace.read n.uri = .ok (.text d) :=
    fun n hmem => hn.readable n (hperm.mem_iff.mp hmem)
  rw [map_node_inTurn hread h]
  exact hperm

end OutlineIndex.Skeleton
