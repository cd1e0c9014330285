import OutlineIndex.Proofs.Skeleton

namespace OutlineIndex.Skeleton

namespace Tree

variable {nodes : List Node} {rank : Node → Int} {keep : Node → Bool}

theorem node_grow (nodes : List Node) (depth : Nat) (n : Node) : (grow nodes depth n).node = n := by
  cases depth <;> rfl

/-- The tree under a node is the same among fewer nodes that have all of its family. -/
theorem grow_filter (hkeep : ∀ p ∈ nodes, ∀ c ∈ nodes, c.parent = some p.id → keep c = keep p)
    (depth : Nat) {n : Node} (hn : n ∈ nodes) (hkept : keep n = true) :
    grow (nodes.filter keep) depth n = grow nodes depth n := by
  induction depth generalizing n with
  | zero => rfl
  | succ depth ih =>
    have hchildren : (nodes.filter keep).filter (·.parent == some n.id) = childrenOf nodes n := by
      rw [List.filter_filter]
      refine List.filter_congr fun c hc => ?_
      by_cases hparent : c.parent = some n.id
      · simp [hparent, (hkeep n hn c hc hparent).trans hkept]
      · simp [hparent]
    rw [grow, grow, hchildren]
    refine congrArg _ (List.map_congr_left fun c hc => ?_)
    obtain ⟨hmem, hparent⟩ := mem_childrenOf.mp hc
    exact ih hmem ((hkeep n hn c hmem hparent).trans hkept)

namespace Ranked

theorem filter (h : Ranked nodes rank) (keep : Node → Bool) : Ranked (nodes.filter keep) rank where
  distinct := h.distinct.sublist (List.filter_sublist.map _)
  named n hn := h.named n (List.mem_filter.mp hn).1
  parent_lt c hc p hp := h.parent_lt c (List.mem_filter.mp hc).1 p (List.mem_filter.mp hp).1

/-- Below a certain depth there is nothing more to grow. -/
theorem grow_succ (h : Ranked nodes rank) (depth : Nat) {n : Node} (hn : n ∈ nodes)
    (hdepth : above nodes rank n ≤ depth) : grow nodes (depth + 1) n = grow nodes depth n := by
  induction depth generalizing n with
  | zero =>
    have hnone : childrenOf nodes n = [] := by
      refine List.eq_nil_iff_forall_not_mem.mpr fun c hc => ?_
      have hlt := h.above_lt hn hc
      omega
    show Tree.mk n ((childrenOf nodes n).map (grow nodes 0)) = Tree.mk n []
    rw [hnone]
    rfl
  | succ depth ih =>
    rw [grow, grow]
    refine congrArg _ (List.map_congr_left fun c hc => ?_)
    have hlt := h.above_lt hn hc
    exact ih (mem_childrenOf.mp hc).1 (by omega)

theorem grow_eq (h : Ranked nodes rank) {n : Node} (hn : n ∈ nodes) {depth : Nat}
    (hdepth : nodes.length ≤ depth) : grow nodes depth n = grow nodes nodes.length n := by
  induction depth, hdepth using Nat.le_induction with
  | base => rfl
  | succ depth hle ih =>
    have habove : above nodes rank n ≤ nodes.length := above_le_length rank n
    rw [h.grow_succ depth hn (by omega), ih]

/-- The forest over the nodes of some families is what the whole forest has of them. -/
theorem forest_filter (h : Ranked nodes rank)
    (hkeep : ∀ p ∈ nodes, ∀ c ∈ nodes, c.parent = some p.id → keep c = keep p) :
    forest (nodes.filter keep) = (forest nodes).filter fun t => keep t.node := by
  have hroots : (nodes.filter keep).filter (isRoot (nodes.filter keep)) =
      (nodes.filter (isRoot nodes)).filter keep := by
    rw [List.filter_filter, List.filter_filter]
    refine List.filter_congr fun n hn => ?_
    by_cases hkept : keep n = true
    · have hroot : isRoot (nodes.filter keep) n = isRoot nodes n := by
        rw [Bool.eq_iff_iff, (h.filter keep).isRoot_iff, h.isRoot_iff]
        constructor
        · intro hno p hp hparent
          have hfamily := hkeep p hp n hn hparent
          exact hno p (List.mem_filter.mpr ⟨hp, hfamily.symm.trans hkept⟩) hparent
        · intro hno p hp
          exact hno p (List.mem_filter.mp hp).1
      rw [hroot, hkept, Bool.and_true, Bool.true_and]
    · simp [hkept]
  have hnode : (fun t : Tree => keep t.node) ∘ grow nodes nodes.length = keep :=
    funext fun n => congrArg keep (node_grow nodes nodes.length n)
  rw [forest, forest, hroots, List.filter_map, hnode]
  refine List.map_congr_left fun n hn => ?_
  obtain ⟨hroot, hkept⟩ := List.mem_filter.mp hn
  have hmem := (List.mem_filter.mp hroot).1
  have hlength := List.length_filter_le keep nodes
  rw [← (h.filter keep).grow_eq (List.mem_filter.mpr ⟨hmem, hkept⟩) hlength]
  exact grow_filter hkeep _ hmem hkept

end Ranked

end Tree

/-- A parent is in the same document. -/
theorem uri_eq_of_parent {p c : Node} {q q' : Path} (hp : p.OwnedBy (Uri.ofResolved q))
    (hc : c.OwnedBy (Uri.ofResolved q')) (h : c.parent = some p.id) : c.uri = p.uri := by
  obtain ⟨f, hid, hf⟩ := hp.id_eq
  have hsplit : NodeId.split p.id = (Uri.ofResolved q, f) := by
    rw [hid]
    exact NodeId.split_ofResolved q hf
  rw [hp.uri_eq, hc.uri_eq]
  cases hc with
  | module _ _ hnone =>
    rw [hnone] at h
    cases h
  | definition _ _ _ hparent =>
    rcases hparent with hparent | ⟨r, hparent, -⟩
    · have heq : p.id = Uri.ofResolved q' := Option.some.inj (h.symm.trans hparent)
      rw [heq, NodeId.split_uri] at hsplit
      exact (Prod.mk.inj hsplit).1
    · have heq : p.id = NodeId.make (Uri.ofResolved q') r := Option.some.inj (h.symm.trans hparent)
      rw [heq, NodeId.split_make] at hsplit
      exact (Prod.mk.inj hsplit).1

/-- The trees of one document among those of many. -/
theorem Collected.forest_filter {w : Workspace} {nodes : List Node} (h : Collected w nodes) (uri : String) :
    Tree.forest (nodes.filter (·.uri == uri)) = (Tree.forest nodes).filter (·.node.uri == uri) := by
  refine h.ranked.forest_filter fun p hp c hc hparent => ?_
  obtain ⟨q, hq⟩ := h.owned p hp
  obtain ⟨q', hq'⟩ := h.owned c hc
  rw [uri_eq_of_parent hq hq' hparent]

theorem exists_inTurn_iff {s : Sources} {ts : List Tree} : (∃ done, (inTurn s ts).result = .ok done) ↔
    ∀ t ∈ ts, ∃ done, (ofTree s t).result = .ok done := by
  induction ts with
  | nil => exact iff_of_true ⟨[], rfl⟩ (by simp)
  | cons t ts ih =>
    rw [List.forall_mem_cons, ← ih]
    constructor
    · intro ⟨_, h⟩
      obtain ⟨first, hfirst, h⟩ := Traced.result_bind_eq_ok.mp h
      obtain ⟨rest, hrest, -⟩ := Traced.result_bind_eq_ok.mp h
      exact ⟨⟨first, hfirst⟩, ⟨rest, hrest⟩⟩
    · intro ⟨⟨first, hfirst⟩, ⟨rest, hrest⟩⟩
      exact ⟨first ++ rest, Traced.result_bind_eq_ok.mpr ⟨first, hfirst,
        Traced.result_bind_eq_ok.mpr ⟨rest, hrest, rfl⟩⟩⟩

section Related

variable {w : Workspace} {generate : Generator} {g g' : CodeGraph}

mutual

/-- The graph has a part in skeletons only by the nodes that each one is related to. -/
theorem ofTree_congr (t : Tree) (h : ∀ n ∈ t.nodes, related g n = related g' n) :
    ofTree ⟨w, g, generate⟩ t = ofTree ⟨w, g', generate⟩ t := by
  match t with
  | .mk n ts =>
    have hbelow := ofTrees_congr ts fun m hm => h m (List.mem_append_left _ hm)
    have hown := h n (List.mem_append_right _ (by simp))
    unfold ofTree single
    rw [hbelow]
    simp only [hown]

theorem ofTrees_congr (ts : List Tree) (h : ∀ n ∈ Tree.nodesAll ts, related g n = related g' n) :
    ofTrees ⟨w, g, generate⟩ ts = ofTrees ⟨w, g', generate⟩ ts := by
  match ts with
  | [] => rfl
  | t :: ts =>
    unfold ofTrees
    rw [ofTree_congr t fun n hn => h n (List.mem_append_left _ hn),
      ofTrees_congr ts fun n hn => h n (List.mem_append_right _ hn)]

end

theorem nodes_subset_of_mem_forest {nodes : List Node} {t : Tree} (ht : t ∈ Tree.forest nodes) {n : Node}
    (hn : n ∈ t.nodes) : n ∈ nodes := by
  refine Tree.Ranked.mem_of_mem_forest ?_
  rw [Tree.nodesAll_eq_flatMap]
  exact List.mem_flatMap.mpr ⟨t, ht, hn⟩

/-- Where skeletons could be made for some documents, they can be made for fewer of them, with a graph
that relates their nodes in the same way. -/
theorem exists_ofNodes_of_parts {nodes nodes' : List Node} (hnodes : Collected w nodes)
    (hnodes' : Collected w nodes')
    (hparts : ∀ n ∈ nodes', nodes'.filter (·.uri == n.uri) = nodes.filter (·.uri == n.uri))
    (hrelated : ∀ n ∈ nodes', related g' n = related g n) {done : List Completed}
    (h : (ofNodes ⟨w, g, generate⟩ nodes).result = .ok done) :
    ∃ done', (ofNodes ⟨w, g', generate⟩ nodes').result = .ok done' := by
  have htrees := exists_inTurn_iff.mp ⟨done, h⟩
  refine exists_inTurn_iff.mpr fun t ht => ?_
  have hwithin : ∀ n ∈ t.nodes, n ∈ nodes' := fun n hn => nodes_subset_of_mem_forest ht hn
  have hroot : t.node ∈ nodes' := by
    apply hwithin
    obtain ⟨n, ts⟩ := t
    simp [Tree.nodes, Tree.node]
  have hpart : t ∈ Tree.forest (nodes'.filter (·.uri == t.node.uri)) := by
    rw [hnodes'.forest_filter]
    exact List.mem_filter.mpr ⟨ht, by simp⟩
  rw [hparts _ hroot, hnodes.forest_filter] at hpart
  rw [ofTree_congr t fun n hn => hrelated n (hwithin n hn)]
  exact htrees t (List.mem_filter.mp hpart).1

end Related

end OutlineIndex.Skeleton
