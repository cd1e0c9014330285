import Mathlib.Data.Finset.Card
import Mathlib.Logic.Relation
import OutlineIndex.Proofs.Composition
import OutlineIndex.Proofs.Splicing

namespace OutlineIndex

/-- The text of a span with the spans of some nodes replaced by their skeletons. -/
def Document.replaced (d : Document) (span : Span) (parts : List Skeleton.Completed) : String :=
  String.ofList (Skeleton.replaced d.text.toList (offsetAt d.text.toList span.start)
    (offsetAt d.text.toList span.stop) (parts.map (·.patch d.text.toList)))

namespace Skeleton

open Skeleton.Tree (childrenOf mem_childrenOf Ranked)

/-- A node of a list and the one that it names as its parent. -/
structure IsChild (nodes : List Node) (c p : Node) : Prop where
  mem : c ∈ nodes
  parent_mem : p ∈ nodes
  parent_eq : c.parent = some p.id

/-- Nodes of readable documents whose spans can be put into one another. Parents may be missing. -/
structure Composable (w : Workspace) (nodes : List Node) : Prop where
  distinct : (nodes.map (·.id)).Nodup
  named : ∀ n ∈ nodes, n.id ≠ ""
  acyclic : ∀ n, ¬Relation.TransGen (IsChild nodes) n n
  readable : ∀ n ∈ nodes, ∃ d, w.read n.uri = .ok (.text d)
  uri_eq : ∀ c p, IsChild nodes c p → c.uri = p.uri
  nested : ∀ c p d, IsChild nodes c p → w.read p.uri = .ok (.text d) →
    Nested d.text.toList p.span c.span
  apart : ∀ c c' p d, IsChild nodes c p → IsChild nodes c' p → c ≠ c' → w.read p.uri = .ok (.text d) →
    offsetAt d.text.toList c.span.stop ≤ offsetAt d.text.toList c'.span.start ∨
      offsetAt d.text.toList c'.span.stop ≤ offsetAt d.text.toList c.span.start

/-- The value of a node: the generator's answer to its text with the values of its children put in. -/
inductive Yields (s : Sources) (nodes : List Node) : Node → String → Prop where
  | intro {n : Node} {d : Document} {path : Path} {parts : List Completed} {text : String}
      (read : s.workspace.read n.uri = .ok (.text d)) (toPath : Uri.toPath n.uri = .ok path)
      (children : parts.map (·.node) = childrenOf nodes n)
      (values : ∀ x ∈ parts, Yields s nodes x.node x.skeleton)
      (generate : (s.generate path.toString n (d.replaced n.span parts) (related s.graph n)).result =
        .ok text) : Yields s nodes n text

/-- The generator fails on a node whose children have values. -/
inductive Fails (s : Sources) (nodes : List Node) : Node → Failure → Prop where
  | intro {n : Node} {d : Document} {path : Path} {parts : List Completed} {e : Failure}
      (read : s.workspace.read n.uri = .ok (.text d)) (toPath : Uri.toPath n.uri = .ok path)
      (children : parts.map (·.node) = childrenOf nodes n)
      (values : ∀ x ∈ parts, Yields s nodes x.node x.skeleton)
      (generate : (s.generate path.toString n (d.replaced n.span parts) (related s.graph n)).result =
        .error e) : Fails s nodes n e

variable {s : Sources} {w : Workspace} {nodes : List Node}

theorem isChild_iff {c p : Node} (hp : p ∈ nodes) : IsChild nodes c p ↔ c ∈ childrenOf nodes p := by
  rw [mem_childrenOf]
  exact ⟨fun h => ⟨h.mem, h.parent_eq⟩, fun h => ⟨h.1, hp, h.2⟩⟩

/-- The same children with their only values are the same parts. -/
theorem parts_unique {parts parts' : List Completed} (hnodes : parts.map (·.node) = parts'.map (·.node))
    (hvalue : ∀ x ∈ parts, ∀ t, Yields s nodes x.node t → x.skeleton = t)
    (hvalues : ∀ x ∈ parts', Yields s nodes x.node x.skeleton) : parts = parts' := by
  induction parts generalizing parts' with
  | nil =>
    cases parts' with
    | nil => rfl
    | cons x' parts' => cases hnodes
  | cons x parts ih =>
    cases parts' with
    | nil => cases hnodes
    | cons x' parts' =>
      obtain ⟨hnode, hnodes⟩ := List.cons.inj hnodes
      have hvalue' : Yields s nodes x.node x'.skeleton := by
        have hx' := hvalues x' (by simp)
        rwa [← show x.node = x'.node from hnode] at hx'
      have hskeleton : x.skeleton = x'.skeleton := hvalue x (by simp) _ hvalue'
      have hfirst : x = x' := by
        cases x
        cases x'
        simp_all
      rw [hfirst, ih hnodes (fun y hy => hvalue y (by simp [hy])) fun y hy => hvalues y (by simp [hy])]

theorem Yields.unique {n : Node} {text text' : String} (h : Yields s nodes n text)
    (h' : Yields s nodes n text') : text = text' := by
  induction h generalizing text' with
  | intro hread hpath hchildren _ hgenerate ih =>
    cases h' with
    | intro hread' hpath' hchildren' hvalues' hgenerate' =>
      cases hread.symm.trans hread'
      cases hpath.symm.trans hpath'
      obtain rfl := parts_unique (hchildren.trans hchildren'.symm) (fun x hx t ht => ih x hx ht) hvalues'
      cases hgenerate.symm.trans hgenerate'
      rfl

theorem Fails.not_yields {n : Node} {e : Failure} {text : String} (h : Fails s nodes n e) :
    ¬Yields s nodes n text := by
  intro h'
  cases h with
  | intro hread hpath hchildren hvalues hgenerate =>
    cases h' with
    | intro hread' hpath' hchildren' hvalues' hgenerate' =>
      cases hread.symm.trans hread'
      cases hpath.symm.trans hpath'
      obtain rfl := parts_unique (hchildren.trans hchildren'.symm)
        (fun x hx t ht => (hvalues x hx).unique ht) hvalues'
      cases hgenerate.symm.trans hgenerate'

/-- One completed node for each of some children. -/
theorem exists_parts {children : List Node} {completed : List Completed}
    (h : ∀ c ∈ children, ∃ x ∈ completed, x.node = c) :
    ∃ parts, parts.map (·.node) = children ∧ parts ⊆ completed := by
  induction children with
  | nil => exact ⟨[], rfl, List.nil_subset _⟩
  | cons c children ih =>
    obtain ⟨x, hx, hnode⟩ := h c (by simp)
    obtain ⟨parts, hparts, hsub⟩ := ih fun c hc => h c (by simp [hc])
    exact ⟨x :: parts, by rw [List.map_cons, hnode, hparts], List.cons_subset.mpr ⟨hx, hsub⟩⟩

namespace Composable

/-- The more nodes are above a node, the higher it ranks. -/
theorem exists_ranked (h : Composable w nodes) : ∃ rank, Ranked nodes rank := by
  classical
  let above (n : Node) : Finset Node := nodes.toFinset.filter (Relation.TransGen (IsChild nodes) n)
  refine ⟨fun n => (above n).card, h.distinct, h.named, fun c hc p hp hparent => ?_⟩
  have hchild : IsChild nodes c p := ⟨hc, hp, hparent⟩
  have hsub : above p ⊆ above c := by
    intro m hm
    rw [Finset.mem_filter] at hm ⊢
    exact ⟨hm.1, .head hchild hm.2⟩
  have hmore : p ∈ above c ∧ p ∉ above p := by
    simp only [above, Finset.mem_filter, List.mem_toFinset]
    exact ⟨⟨hp, .single hchild⟩, fun hself => h.acyclic p hself.2⟩
  have hlt := Finset.card_lt_card ⟨hsub, fun hsup => hmore.2 (hsup hmore.1)⟩
  exact Int.ofNat_lt.mpr hlt

theorem nodup (h : Composable w nodes) : nodes.Nodup := List.Nodup.of_map _ h.distinct

theorem eq_of_id (h : Composable w nodes) {m n : Node} (hm : m ∈ nodes) (hn : n ∈ nodes)
    (e : m.id = n.id) : m = n := List.inj_on_of_nodup_map h.distinct hm hn e

theorem induction_above (h : Composable w nodes) {P : Node → Prop}
    (hstep : ∀ n ∈ nodes, (∀ p, IsChild nodes n p → P p) → P n) {n : Node} (hn : n ∈ nodes) : P n := by
  obtain ⟨rank, hrank⟩ := h.exists_ranked
  -- more nodes rank above a parent than above its child
  induction hk : nodes.length - Ranked.above nodes rank n using Nat.strong_induction_on generalizing n with
  | _ k ih =>
    refine hstep n hn fun p hp => ih _ ?_ hp.parent_mem rfl
    have hlt := hrank.above_lt hp.parent_mem ((isChild_iff hp.parent_mem).mp hp)
    have hle : Ranked.above nodes rank p ≤ nodes.length := Ranked.above_le_length rank p
    omega

theorem induction_below (h : Composable w nodes) {P : Node → Prop}
    (hstep : ∀ n ∈ nodes, (∀ c, IsChild nodes c n → P c) → P n) {n : Node} (hn : n ∈ nodes) : P n := by
  obtain ⟨rank, hrank⟩ := h.exists_ranked
  induction hk : Ranked.above nodes rank n using Nat.strong_induction_on generalizing n with
  | _ k ih =>
    refine hstep n hn fun c hc => ih _ ?_ hc.mem rfl
    have hlt := hrank.above_lt hn ((isChild_iff hn).mp hc)
    omega

variable {n : Node} {d : Document} {parts completed : List Completed}

theorem isChild_of_part (hn : n ∈ nodes) (hparts : parts.map (·.node) = childrenOf nodes n)
    {x : Completed} (hx : x ∈ parts) : IsChild nodes x.node n := by
  rw [isChild_iff hn, ← hparts]
  exact List.mem_map_of_mem hx

theorem nested_parts (h : Composable w nodes) (hn : n ∈ nodes) (hread : w.read n.uri = .ok (.text d))
    (hparts : parts.map (·.node) = childrenOf nodes n) :
    ∀ x ∈ parts, Nested d.text.toList n.span x.node.span :=
  fun _ hx => h.nested _ _ d (isChild_of_part hn hparts hx) hread

theorem separate_parts (h : Composable w nodes) (hn : n ∈ nodes) (hread : w.read n.uri = .ok (.text d))
    (hparts : parts.map (·.node) = childrenOf nodes n) : Separate (parts.map (·.patch d.text.toList)) where
  nonempty p hp := by
    obtain ⟨x, hx, rfl⟩ := List.mem_map.mp hp
    exact (h.nested_parts hn hread hparts x hx).nonempty
  apart := by
    have hdistinct : (parts.map (·.node)).Nodup := by
      rw [hparts]
      exact h.nodup.filter _
    rw [List.pairwise_map]
    refine (List.pairwise_map.mp hdistinct).imp_of_mem fun {x y} hx hy hne => ?_
    exact h.apart _ _ _ d (isChild_of_part hn hparts hx) (isChild_of_part hn hparts hy) hne hread

/-- Of what is completed, the parts are what a node asks for. -/
theorem filter_completed_perm (h : Composable w nodes) (hids : (completed.map (·.node.id)).Nodup)
    (hparts : parts.map (·.node) = childrenOf nodes n) (hsub : parts ⊆ completed) :
    (completed.filter fun x => ((childrenOf nodes n).map (·.id)).contains x.node.id).Perm parts := by
  have hchildren : (parts.map (·.node)).Nodup := by
    rw [hparts]
    exact h.nodup.filter _
  refine (List.perm_ext_iff_of_nodup ((List.Nodup.of_map _ hids).filter _) (.of_map _ hchildren)).mpr ?_
  intro x
  rw [List.mem_filter, List.contains_iff_mem, ← hparts, List.map_map, List.mem_map]
  constructor
  · intro ⟨hx, y, hy, hid⟩
    rwa [← List.inj_on_of_nodup_map hids (hsub hy) hx hid]
  · intro hx
    exact ⟨hsub hx, x, hx, rfl⟩

/-- Whoever has the skeletons of the children asks the generator with their spans replaced. -/
theorem single_result (h : Composable s.workspace nodes) (hn : n ∈ nodes) {path : Path}
    (hread : s.workspace.read n.uri = .ok (.text d)) (hpath : Uri.toPath n.uri = .ok path)
    (hids : (completed.map (·.node.id)).Nodup) (hparts : parts.map (·.node) = childrenOf nodes n)
    (hsub : parts ⊆ completed) :
    (single s n ((childrenOf nodes n).map (·.id)) completed).result =
      (s.generate path.toString n (d.replaced n.span parts) (related s.graph n)).result.map
        fun text => some ⟨n, text⟩ := by
  have hcode : (if ((childrenOf nodes n).map (·.id)).isEmpty then d.slice n.span
      else String.ofList (splice n.span (d.slice n.span).toList ((childrenOf nodes n).map (·.id)) completed)) =
      d.replaced n.span parts := by
    split
    · rename_i hnone
      have hnil : parts = [] := by
        rw [List.isEmpty_iff, List.map_eq_nil_iff, ← hparts, List.map_eq_nil_iff] at hnone
        exact hnone
      subst hnil
      rw [Document.replaced, List.map_nil, replaced_of_not_covered (by simp)]
      rfl
    · rw [Document.slice, String.toList_ofList, splice_eq hids (h.filter_completed_perm hids hparts hsub)
        (h.nested_parts hn hread hparts) (h.separate_parts hn hread hparts)]
      rfl
  have hdocument : (documentOf s.workspace n).result = .ok (some d) := by
    rw [documentOf, hread]
    rfl
  have hok : ∀ {α β : Type} (a : α) (f : α → Except Failure β), (.ok a >>= f) = f a := fun _ _ => rfl
  have hplace : (Traced.ofExcept ((Uri.toPath n.uri).mapError Failure.uri)).result = .ok path := by
    rw [hpath]
    rfl
  simp only [single, Traced.result_bind, hdocument, hok, hplace, hcode]
  cases (s.generate path.toString n (d.replaced n.span parts) (related s.graph n)).result <;> rfl

theorem exists_read (h : Composable w nodes) (hn : n ∈ nodes) :
    ∃ d path, w.read n.uri = .ok (.text d) ∧ Uri.toPath n.uri = .ok path := by
  obtain ⟨d, hd⟩ := h.readable n hn
  obtain ⟨path, -, hpath, -⟩ := Workspace.read_eq_text hd
  exact ⟨d, path, hd, hpath⟩

/-- What else is completed does not matter. -/
theorem single_congr (h : Composable s.workspace nodes) (hn : n ∈ nodes) {completed' : List Completed}
    (hids : (completed'.map (·.node.id)).Nodup) (hsub : completed.Sublist completed')
    (hchildren : ∀ c ∈ childrenOf nodes n, ∃ x ∈ completed, x.node = c) :
    (single s n ((childrenOf nodes n).map (·.id)) completed').result =
      (single s n ((childrenOf nodes n).map (·.id)) completed).result := by
  obtain ⟨d, path, hread, hpath⟩ := h.exists_read hn
  obtain ⟨parts, hparts, hmem⟩ := exists_parts hchildren
  rw [h.single_result hn hread hpath hids hparts (List.Subset.trans hmem hsub.subset),
    h.single_result hn hread hpath (hids.sublist (hsub.map _)) hparts hmem]

/-- What comes of asking for a node whose children are completed with their values. -/
theorem answer_cases (h : Composable s.workspace nodes) (hn : n ∈ nodes)
    (hids : (completed.map (·.node.id)).Nodup)
    (hvalues : ∀ x ∈ completed, Yields s nodes x.node x.skeleton)
    (hchildren : ∀ c ∈ childrenOf nodes n, ∃ x ∈ completed, x.node = c) :
    (∃ text, (single s n ((childrenOf nodes n).map (·.id)) completed).result = .ok (some ⟨n, text⟩) ∧
      Yields s nodes n text) ∨
    ∃ e, (single s n ((childrenOf nodes n).map (·.id)) completed).result = .error e ∧ Fails s nodes n e := by
  obtain ⟨d, path, hread, hpath⟩ := h.exists_read hn
  obtain ⟨parts, hparts, hsub⟩ := exists_parts hchildren
  have hmade := fun x hx => hvalues x (hsub hx)
  have hsingle := h.single_result hn hread hpath hids hparts hsub
  cases hgenerate : (s.generate path.toString n (d.replaced n.span parts) (related s.graph n)).result with
  | ok text =>
    rw [hgenerate] at hsingle
    exact .inl ⟨text, hsingle, .intro hread hpath hparts hmade hgenerate⟩
  | error e =>
    rw [hgenerate] at hsingle
    exact .inr ⟨e, hsingle, .intro hread hpath hparts hmade hgenerate⟩

end Composable

theorem Tree.Ranked.acyclic {rank : Node → Int} (h : Ranked nodes rank) (n : Node) :
    ¬Relation.TransGen (IsChild nodes) n n := by
  have hlt : ∀ {m}, Relation.TransGen (IsChild nodes) n m → rank m < rank n := by
    intro m hm
    induction hm with
    | single hchild => exact h.parent_lt _ hchild.mem _ hchild.parent_mem hchild.parent_eq
    | tail _ hchild ih => exact (h.parent_lt _ hchild.mem _ hchild.parent_mem hchild.parent_eq).trans ih
  exact fun hself => lt_irrefl _ (hlt hself)

/-- Nodes that are collected from documents can be composed as soon as their spans can. -/
theorem Collected.composable (h : Collected w nodes)
    (hnested : ∀ c p d, IsChild nodes c p → w.read p.uri = .ok (.text d) →
      Nested d.text.toList p.span c.span)
    (hapart : ∀ c c' p d, IsChild nodes c p → IsChild nodes c' p → c ≠ c' → w.read p.uri = .ok (.text d) →
      offsetAt d.text.toList c.span.stop ≤ offsetAt d.text.toList c'.span.start ∨
        offsetAt d.text.toList c'.span.stop ≤ offsetAt d.text.toList c.span.start) : Composable w nodes where
  distinct := h.distinct
  named := h.ranked.named
  acyclic := h.ranked.acyclic
  readable := h.readable
  uri_eq c p hchild := by
    obtain ⟨q, hq⟩ := h.owned p hchild.parent_mem
    obtain ⟨q', hq'⟩ := h.owned c hchild.mem
    exact uri_eq_of_parent hq hq' hchild.parent_eq
  nested := hnested
  apart := hapart

end Skeleton

end OutlineIndex
