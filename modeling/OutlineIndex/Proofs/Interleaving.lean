import Mathlib.Algebra.Order.BigOperators.Group.List
import Mathlib.Logic.Function.Basic
import OutlineIndex.Proofs.Composable
import OutlineIndex.Source.Lexical

namespace OutlineIndex.Skeleton

open Skeleton.Tree (childrenOf mem_childrenOf Ranked)

/-- How far the task of a node is. -/
inductive Stage where
  | waiting
  | asked (answer : Except Failure (Option Completed))
  | ended
  | failed (e : Failure)

/-- The state of all tasks, the roots that are still to be done, and what has been completed so far. -/
structure Run where
  stage : Node → Stage
  completed : List Completed
  turn : List Node
  outcome : Option (Except Failure (List Completed))

namespace Run

def start (nodes : List Node) : Run := ⟨fun _ => .waiting, [], nodes.filter (Tree.isRoot nodes), none⟩

def set (r : Run) (n : Node) (st : Stage) : Run := { r with stage := Function.update r.stage n st }

end Run

/-- What can happen next. Roots are taken one after the other; below a root everything that is due can
happen, in any order. After a failure the tasks that do not depend on it may go on for a while, until the
failure is raised. -/
inductive Step (s : Sources) (nodes : List Node) : Run → Run → Prop where
  | ask {r : Run} {n root : Node} {rest : List Node} (running : r.outcome = none)
      (turn : r.turn = root :: rest) (mem : n ∈ nodes)
      (under : Relation.ReflTransGen (IsChild nodes) n root) (waiting : r.stage n = .waiting)
      (due : ∀ c, IsChild nodes c n → r.stage c = .ended) :
      Step s nodes r (r.set n (.asked (single s n ((childrenOf nodes n).map (·.id)) r.completed).result))
  | answer {r : Run} {n : Node} {x : Option Completed} (running : r.outcome = none)
      (asked : r.stage n = .asked (.ok x)) :
      Step s nodes r { r.set n .ended with completed := r.completed ++ x.toList }
  | fail {r : Run} {n : Node} {e : Failure} (running : r.outcome = none)
      (asked : r.stage n = .asked (.error e)) : Step s nodes r (r.set n (.failed e))
  | next {r : Run} {root : Node} {rest : List Node} (running : r.outcome = none)
      (turn : r.turn = root :: rest) (ended : r.stage root = .ended) :
      Step s nodes r { r with turn := rest }
  | finish {r : Run} (running : r.outcome = none) (turn : r.turn = []) :
      Step s nodes r { r with outcome := some (.ok r.completed) }
  | raise {r : Run} {n : Node} {e : Failure} (running : r.outcome = none)
      (failed : r.stage n = .failed e) : Step s nodes r { r with outcome := some (.error e) }

/-- A state that some interleaving leads to. -/
def Reaches (s : Sources) (nodes : List Node) (r : Run) : Prop :=
  Relation.ReflTransGen (Step s nodes) (.start nodes) r

/-- The answer to come is the value of the node, and a failure is that of the generator. -/
def Stage.Honest (s : Sources) (nodes : List Node) (n : Node) : Stage → Prop
  | .asked (.ok x) => ∃ text, x = some ⟨n, text⟩ ∧ Yields s nodes n text
  | .asked (.error e) => Fails s nodes n e
  | .failed e => Fails s nodes n e
  | .waiting => True
  | .ended => True

/-- What is known in every state. Nothing is asked for before the children have ended, and what has ended
is completed with its value. -/
structure Sound (s : Sources) (nodes : List Node) (r : Run) : Prop where
  mem : ∀ n, r.stage n ≠ .waiting → n ∈ nodes
  below : ∀ n, r.stage n ≠ .waiting → ∀ c, IsChild nodes c n → r.stage c = .ended
  honest : ∀ n, (r.stage n).Honest s nodes n
  ended : ∀ n, r.stage n = .ended ↔ ∃ x ∈ r.completed, x.node = n
  values : ∀ x ∈ r.completed, Yields s nodes x.node x.skeleton
  nodup : (r.completed.map (·.node)).Nodup
  ordered : r.completed.Pairwise fun x y => y.node.parent ≠ some x.node.id
  turns : ∃ past, nodes.filter (Tree.isRoot nodes) = past ++ r.turn ∧ ∀ n ∈ past, r.stage n = .ended
  outcome : ∀ o, r.outcome = some o →
    o = .ok r.completed ∧ r.turn = [] ∨ ∃ n e, o = .error e ∧ r.stage n = .failed e

namespace Run

variable {r : Run} {n m : Node} {st : Stage}

theorem stage_set_self : (r.set n st).stage n = st := Function.update_self ..

theorem stage_set_of_ne (h : m ≠ n) : (r.set n st).stage m = r.stage m := Function.update_of_ne h ..

end Run

variable {s : Sources} {nodes : List Node}

theorem sound_start : Sound s nodes (.start nodes) where
  mem _ h := absurd rfl h
  below _ h := absurd rfl h
  honest _ := trivial
  ended n := ⟨by rintro ⟨⟩, by rintro ⟨_, ⟨⟩, _⟩⟩
  values _ h := by cases h
  nodup := List.nodup_nil
  ordered := .nil
  turns := ⟨[], rfl, by simp⟩
  outcome _ h := by cases h

namespace Sound

variable {r r' : Run} {n : Node}

/-- A task that does not end leaves what has ended alone. -/
theorem set (h : Sound s nodes r) (hrunning : r.outcome = none) {st : Stage} (hn : n ∈ nodes)
    (hbelow : ∀ c, IsChild nodes c n → r.stage c = .ended) (hold : r.stage n ≠ .ended) (hst : st ≠ .ended)
    (hhonest : st.Honest s nodes n) : Sound s nodes (r.set n st) := by
  have hkept : ∀ m, r.stage m = .ended → (r.set n st).stage m = .ended := by
    intro m hm
    rwa [Run.stage_set_of_ne]
    rintro rfl
    exact hold hm
  refine ⟨?_, ?_, ?_, ?_, h.values, h.nodup, h.ordered, ?_, ?_⟩
  · intro m hm
    by_cases hmn : m = n
    · rwa [hmn]
    · rw [Run.stage_set_of_ne hmn] at hm
      exact h.mem m hm
  · intro m hm c hc
    by_cases hmn : m = n
    · subst hmn
      exact hkept c (hbelow c hc)
    · rw [Run.stage_set_of_ne hmn] at hm
      exact hkept c (h.below m hm c hc)
  · intro m
    by_cases hmn : m = n
    · subst hmn
      rwa [Run.stage_set_self]
    · rw [Run.stage_set_of_ne hmn]
      exact h.honest m
  · intro m
    by_cases hmn : m = n
    · subst hmn
      rw [Run.stage_set_self]
      exact iff_of_false hst fun hx => hold ((h.ended m).mpr hx)
    · rw [Run.stage_set_of_ne hmn]
      exact h.ended m
  · obtain ⟨past, hroots, hpast⟩ := h.turns
    exact ⟨past, hroots, fun m hm => hkept m (hpast m hm)⟩
  · intro o ho
    cases hrunning.symm.trans ho

/-- A task that ends adds the value of its node, before that of the parent. -/
theorem complete (h : Sound s nodes r) (hrunning : r.outcome = none) {text : String}
    (hasked : r.stage n = .asked (.ok (some ⟨n, text⟩))) (hvalue : Yields s nodes n text) :
    Sound s nodes { r.set n .ended with completed := r.completed ++ [⟨n, text⟩] } := by
  have hwaiting : r.stage n ≠ .waiting := hasked.trans_ne Stage.noConfusion
  have hnew : ¬∃ x ∈ r.completed, x.node = n := by
    rw [← h.ended]
    exact hasked.trans_ne Stage.noConfusion
  have hkept : ∀ m, r.stage m = .ended → (r.set n .ended).stage m = .ended := by
    intro m hm
    by_cases hmn : m = n
    · rw [hmn, Run.stage_set_self]
    · rwa [Run.stage_set_of_ne hmn]
  have hbegun : ∀ m, (r.set n .ended).stage m ≠ .waiting → r.stage m ≠ .waiting := by
    intro m hm hw
    by_cases hmn : m = n
    · exact hwaiting (hmn ▸ hw)
    · exact hm (by rwa [Run.stage_set_of_ne hmn])
  refine ⟨fun m hm => h.mem m (hbegun m hm), ?_, ?_, ?_, ?_, ?_, ?_, ?_, ?_⟩
  · intro m hm c hc
    exact hkept c (h.below m (hbegun m hm) c hc)
  · intro m
    change ((r.set n .ended).stage m).Honest s nodes m
    by_cases hmn : m = n
    · rw [hmn, Run.stage_set_self]
      trivial
    · rw [Run.stage_set_of_ne hmn]
      exact h.honest m
  · intro m
    by_cases hmn : m = n
    · rw [hmn]
      exact iff_of_true Run.stage_set_self ⟨_, List.mem_append_right _ (List.mem_singleton_self _), rfl⟩
    · have hlast : (∃ x ∈ r.completed ++ [⟨n, text⟩], x.node = m) ↔ ∃ x ∈ r.completed, x.node = m := by
        simp [Ne.symm hmn]
      rw [hlast, ← h.ended m]
      exact iff_of_eq (congrArg (· = Stage.ended) (Run.stage_set_of_ne hmn))
  · intro x hx
    rcases List.mem_append.mp hx with hx | hx
    · exact h.values x hx
    · rw [List.mem_singleton.mp hx]
      exact hvalue
  · simp only [List.map_append, List.map_singleton]
    refine List.nodup_append.mpr ⟨h.nodup, List.nodup_singleton _, ?_⟩
    intro m hm m' hm' heq
    obtain ⟨x, hx, rfl⟩ := List.mem_map.mp hm
    exact hnew ⟨x, hx, heq.trans (List.mem_singleton.mp hm')⟩
  · refine List.pairwise_append.mpr ⟨h.ordered, List.pairwise_singleton _ _, ?_⟩
    intro x hx y hy hparent
    rw [List.mem_singleton.mp hy] at hparent
    have hbegun' : r.stage x.node ≠ .waiting := ((h.ended x.node).mpr ⟨x, hx, rfl⟩).trans_ne Stage.noConfusion
    have hchild := h.below x.node hbegun' n ⟨h.mem n hwaiting, h.mem _ hbegun', hparent⟩
    exact hasked.trans_ne Stage.noConfusion hchild
  · obtain ⟨past, hroots, hpast⟩ := h.turns
    exact ⟨past, hroots, fun m hm => hkept m (hpast m hm)⟩
  · intro o ho
    cases hrunning.symm.trans ho

theorem nodup_ids (h : Sound s nodes r) (hnodes : Composable s.workspace nodes) :
    (r.completed.map (·.node.id)).Nodup := by
  have hmem : ∀ x ∈ r.completed, x.node ∈ nodes := by
    intro x hx
    exact h.mem x.node (((h.ended x.node).mpr ⟨x, hx, rfl⟩).trans_ne Stage.noConfusion)
  refine (List.pairwise_map.mp h.nodup).imp_of_mem ?_ |> List.pairwise_map.mpr
  intro x y hx hy hne hid
  exact hne (hnodes.eq_of_id (hmem x hx) (hmem y hy) hid)

/-- Whatever happens next, all of it still holds. -/
theorem step (hnodes : Composable s.workspace nodes) (h : Sound s nodes r) (hstep : Step s nodes r r') :
    Sound s nodes r' := by
  cases hstep with
  | @ask n root rest hrunning hturn hn hunder hwaiting hdue =>
    have hold : r.stage n ≠ .ended := hwaiting.trans_ne Stage.noConfusion
    have hchildren : ∀ c ∈ childrenOf nodes n, ∃ x ∈ r.completed, x.node = c := by
      intro c hc
      exact (h.ended c).mp (hdue c ((isChild_iff hn).mpr hc))
    rcases hnodes.answer_cases hn (h.nodup_ids hnodes) h.values hchildren with
      ⟨text, hanswer, hvalue⟩ | ⟨e, hanswer, hfails⟩
    · rw [hanswer]
      exact h.set hrunning hn hdue hold Stage.noConfusion ⟨text, rfl, hvalue⟩
    · rw [hanswer]
      exact h.set hrunning hn hdue hold Stage.noConfusion hfails
  | @answer n x hrunning hasked =>
    have hhonest := h.honest n
    rw [hasked] at hhonest
    obtain ⟨text, rfl, hvalue⟩ := hhonest
    exact h.complete hrunning hasked hvalue
  | @fail n e hrunning hasked =>
    have hhonest := h.honest n
    rw [hasked] at hhonest
    have hbegun : r.stage n ≠ .waiting := hasked.trans_ne Stage.noConfusion
    exact h.set hrunning (h.mem n hbegun) (h.below n hbegun) (hasked.trans_ne Stage.noConfusion)
      Stage.noConfusion hhonest
  | @next root rest hrunning hturn hended =>
    obtain ⟨past, hroots, hpast⟩ := h.turns
    refine { h with turns := ⟨past ++ [root], ?_, ?_⟩, outcome := ?_ }
    · rw [hroots, hturn, List.append_assoc]
      rfl
    · intro m hm
      rcases List.mem_append.mp hm with hm | hm
      · exact hpast m hm
      · rwa [List.mem_singleton.mp hm]
    · intro o ho
      cases hrunning.symm.trans ho
  | finish hrunning hturn =>
    refine { h with outcome := ?_ }
    intro o ho
    exact .inl ⟨(Option.some.inj ho).symm, hturn⟩
  | @raise n e hrunning hfailed =>
    refine { h with outcome := ?_ }
    intro o ho
    exact .inr ⟨n, e, (Option.some.inj ho).symm, hfailed⟩

theorem steps (hnodes : Composable s.workspace nodes) (h : Sound s nodes r)
    (hsteps : Relation.ReflTransGen (Step s nodes) r r') : Sound s nodes r' := by
  induction hsteps with
  | refl => exact h
  | tail _ hstep ih => exact ih.step hnodes hstep

theorem yields_of_ended (h : Sound s nodes r) (hended : r.stage n = .ended) :
    ∃ text, Yields s nodes n text := by
  obtain ⟨x, hx, rfl⟩ := (h.ended n).mp hended
  exact ⟨x.skeleton, h.values x hx⟩

/-- When no root is left, everything below the roots has ended too. -/
theorem all_ended (h : Sound s nodes r) (hnodes : Composable s.workspace nodes) (hturn : r.turn = [])
    (hn : n ∈ nodes) : r.stage n = .ended := by
  obtain ⟨rank, hrank⟩ := hnodes.exists_ranked
  obtain ⟨past, hroots, hpast⟩ := h.turns
  rw [hturn, List.append_nil] at hroots
  refine hnodes.induction_above (P := fun n => r.stage n = .ended) (fun n hn ih => ?_) hn
  by_cases hroot : Tree.isRoot nodes n = true
  · exact hpast n (hroots ▸ List.mem_filter.mpr ⟨hn, hroot⟩)
  · obtain ⟨p, hp, hparent⟩ : ∃ p ∈ nodes, n.parent = some p.id := by
      by_contra hno
      exact hroot ((hrank.isRoot_iff n).mpr fun p hp heq => hno ⟨p, hp, heq⟩)
    have hchild : IsChild nodes n p := ⟨hn, hp, hparent⟩
    exact h.below p ((ih p hchild).trans_ne Stage.noConfusion) n hchild

theorem perm_completed (h : Sound s nodes r) (hnodes : Composable s.workspace nodes) (hturn : r.turn = []) :
    (r.completed.map (·.node)).Perm nodes := by
  refine (List.perm_ext_iff_of_nodup h.nodup hnodes.nodup).mpr fun n => ?_
  rw [List.mem_map, ← h.ended n]
  constructor
  · intro hended
    exact h.mem n (hended.trans_ne Stage.noConfusion)
  · exact h.all_ended hnodes hturn

/-- Nothing above a node that fails is ever asked for. -/
theorem waiting_above (h : Sound s nodes r) {e : Failure} (hfails : Fails s nodes n e) {m : Node}
    (hm : Relation.TransGen (IsChild nodes) n m) : r.stage m = .waiting := by
  induction hm with
  | single hchild =>
    by_contra hbegun
    obtain ⟨text, hvalue⟩ := h.yields_of_ended (h.below _ hbegun n hchild)
    exact hfails.not_yields hvalue
  | tail _ hchild ih =>
    by_contra hbegun
    exact ih.trans_ne Stage.noConfusion (h.below _ hbegun _ hchild)

/-- Below a node that waits there is one that can be asked for, if no answer is due. -/
theorem exists_ask (hnodes : Composable s.workspace nodes)
    (hrunning : r.outcome = none) {root : Node} {rest : List Node} (hturn : r.turn = root :: rest)
    (hidle : ∀ m, r.stage m = .waiting ∨ r.stage m = .ended) (hn : n ∈ nodes) :
    r.stage n = .waiting → Relation.ReflTransGen (IsChild nodes) n root → ∃ r', Step s nodes r r' := by
  refine hnodes.induction_below (P := fun n => r.stage n = .waiting →
    Relation.ReflTransGen (IsChild nodes) n root → ∃ r', Step s nodes r r') (fun n hn ih => ?_) hn
  intro hwaiting hunder
  by_cases hdue : ∀ c, IsChild nodes c n → r.stage c = .ended
  · exact ⟨_, .ask hrunning hturn hn hunder hwaiting hdue⟩
  · obtain ⟨c, hdue⟩ := not_forall.mp hdue
    obtain ⟨hchild, hnot⟩ := Classical.not_imp.mp hdue
    exact ih c hchild ((hidle c).resolve_right hnot) (.head hchild hunder)

/-- A run goes on until it has an outcome. -/
theorem exists_step (h : Sound s nodes r) (hnodes : Composable s.workspace nodes)
    (hrunning : r.outcome = none) : ∃ r', Step s nodes r r' := by
  by_cases hbusy : ∃ m, r.stage m ≠ .waiting ∧ r.stage m ≠ .ended
  · obtain ⟨m, hbegun, hnot⟩ := hbusy
    cases hstage : r.stage m with
    | waiting => exact absurd hstage hbegun
    | ended => exact absurd hstage hnot
    | failed e => exact ⟨_, .raise hrunning hstage⟩
    | asked answer =>
      cases answer with
      | ok x => exact ⟨_, .answer hrunning hstage⟩
      | error e => exact ⟨_, .fail hrunning hstage⟩
  · have hidle : ∀ m, r.stage m = .waiting ∨ r.stage m = .ended := by
      intro m
      by_contra hm
      exact hbusy ⟨m, not_or.mp hm⟩
    cases hturn : r.turn with
    | nil => exact ⟨_, .finish hrunning hturn⟩
    | cons root rest =>
      rcases hidle root with hwaiting | hended
      · obtain ⟨past, hroots, -⟩ := h.turns
        have hroot : root ∈ nodes.filter (Tree.isRoot nodes) := by simp [hroots, hturn]
        exact exists_ask hnodes hrunning hturn hidle (List.mem_filter.mp hroot).1 hwaiting .refl
      · exact ⟨_, .next hrunning hturn hended⟩

end Sound

theorem sound_of_reaches (hnodes : Composable s.workspace nodes) {r : Run} (h : Reaches s nodes r) :
    Sound s nodes r := sound_start.steps hnodes h

/-- How many steps the task of a node still has before it. -/
def Stage.left : Stage → Nat
  | .waiting => 2
  | .asked _ => 1
  | .ended => 0
  | .failed _ => 0

/-- More than the number of steps that can still be taken. -/
def Run.left (nodes : List Node) (r : Run) : Nat :=
  (nodes.map fun n => (r.stage n).left).sum + r.turn.length + if r.outcome.isNone then 1 else 0

theorem Run.left_set_lt {r : Run} {n : Node} {st : Stage} (hn : n ∈ nodes)
    (h : st.left < (r.stage n).left) : (r.set n st).left nodes < r.left nodes := by
  have hsum : (nodes.map fun m => ((r.set n st).stage m).left).sum <
      (nodes.map fun m => (r.stage m).left).sum := by
    refine List.sum_lt_sum _ _ ?_ ⟨n, hn, by rwa [stage_set_self]⟩
    intro m _
    by_cases hmn : m = n
    · rw [hmn, stage_set_self]
      exact h.le
    · rw [stage_set_of_ne hmn]
  exact Nat.add_lt_add_right (Nat.add_lt_add_right hsum _) _

/-- Every step leaves fewer. -/
theorem Step.left_lt {r r' : Run} (h : Sound s nodes r) (hstep : Step s nodes r r') :
    r'.left nodes < r.left nodes := by
  have hmem : ∀ {n a}, r.stage n = .asked a → n ∈ nodes := by
    intro n a hasked
    exact h.mem n (hasked.trans_ne Stage.noConfusion)
  cases hstep with
  | ask _ _ hn _ hwaiting =>
    refine Run.left_set_lt hn ?_
    rw [hwaiting]
    exact Nat.lt_succ_self 1
  | @answer n x _ hasked =>
    have hlt : (r.set n .ended).left nodes < r.left nodes := by
      refine Run.left_set_lt (hmem hasked) ?_
      rw [hasked]
      exact Nat.zero_lt_one
    exact hlt
  | fail _ hasked =>
    refine Run.left_set_lt (hmem hasked) ?_
    rw [hasked]
    exact Nat.zero_lt_one
  | next _ hturn =>
    simp only [Run.left, hturn, List.length_cons]
    omega
  | finish hrunning =>
    simp [Run.left, hrunning]
  | raise hrunning =>
    simp [Run.left, hrunning]

/-- No run goes on for ever. -/
theorem no_endless_run (hnodes : Composable s.workspace nodes) :
    ¬∃ f : Nat → Run, f 0 = .start nodes ∧ ∀ k, Step s nodes (f k) (f (k + 1)) := by
  intro ⟨f, hstart, hstep⟩
  have hsound : ∀ k, Sound s nodes (f k) := by
    intro k
    induction k with
    | zero =>
      rw [hstart]
      exact sound_start
    | succ k ih => exact ih.step hnodes (hstep k)
  have hbound : ∀ k, (f k).left nodes + k ≤ (f 0).left nodes := by
    intro k
    induction k with
    | zero => exact Nat.le_refl _
    | succ k ih =>
      have hlt := (hstep k).left_lt (hsound k)
      omega
  have hlast := hbound ((f 0).left nodes + 1)
  omega

/-- A tree that has all the children of its nodes. -/
inductive Tree.Whole (nodes : List Node) : Tree → Prop where
  | mk {n : Node} {ts : List Tree} (mem : n ∈ nodes) (children : ts.map (·.node) = childrenOf nodes n)
      (below : ∀ t ∈ ts, Whole nodes t) : Whole nodes (.mk n ts)

theorem Tree.Ranked.whole_grow {rank : Node → Int} (h : Ranked nodes rank) (depth : Nat) {n : Node}
    (hn : n ∈ nodes) (hdepth : above nodes rank n ≤ depth) : Whole nodes (grow nodes depth n) := by
  induction depth generalizing n with
  | zero =>
    refine .mk hn ?_ (by simp)
    refine (List.eq_nil_iff_forall_not_mem.mpr fun c hc => ?_).symm
    have hlt := h.above_lt hn hc
    omega
  | succ depth ih =>
    refine .mk hn ?_ fun t ht => ?_
    · rw [List.map_map]
      exact (List.map_congr_left fun c _ => node_grow nodes depth c).trans (List.map_id _)
    · obtain ⟨c, hc, rfl⟩ := List.mem_map.mp ht
      have hlt := h.above_lt hn hc
      exact ih (mem_childrenOf.mp hc).1 (by omega)

theorem Tree.node_mem_nodes (t : Tree) : t.node ∈ t.nodes := by
  cases t
  simp [Tree.node, Tree.nodes]

/-- The turn of a root below which some nodes have not begun. -/
structure Before (s : Sources) (nodes : List Node) (root : Node) (ms : List Node) (r : Run) : Prop where
  sound : Sound s nodes r
  running : r.outcome = none
  turn : ∃ rest, r.turn = root :: rest
  waiting : ∀ m ∈ ms, r.stage m = .waiting

theorem Before.left {root : Node} {ms ms' : List Node} {r : Run}
    (h : Before s nodes root (ms ++ ms') r) : Before s nodes root ms r :=
  { h with waiting := fun m hm => h.waiting m (List.mem_append_left _ hm) }

/-- A run over some nodes that comes to what was computed for them. -/
structure Ran (s : Sources) (nodes : List Node) (r : Run) (ms : List Node)
    (result : Except Failure (List Completed)) (r' : Run) : Prop where
  steps : Relation.ReflTransGen (Step s nodes) r r'
  turn : r'.turn = r.turn
  running : r'.outcome = none
  frame : ∀ m, m ∉ ms → r'.stage m = r.stage m
  ok : ∀ done, result = .ok done → r'.completed = r.completed ++ done ∧ ∀ m ∈ ms, r'.stage m = .ended
  error : ∀ e, result = .error e → ∃ m ∈ ms, r'.stage m = .failed e

/-- One run after another. -/
theorem Ran.both {r r' r'' : Run} {ms ms' : List Node} {x y : Except Failure (List Completed)}
    (h : Ran s nodes r ms x r') (h' : Ran s nodes r' ms' y r'') (hnodup : (ms ++ ms').Nodup) :
    Ran s nodes r (ms ++ ms') (do return (← x) ++ (← y)) r'' := by
  have hkept : ∀ m ∈ ms, r''.stage m = r'.stage m := by
    intro m hm
    exact h'.frame m fun hm' => (List.nodup_append.mp hnodup).2.2 m hm m hm' rfl
  refine ⟨h.steps.trans h'.steps, h'.turn.trans h.turn, h'.running, ?_, ?_, ?_⟩
  · intro m hm
    rw [List.mem_append, not_or] at hm
    rw [h'.frame m hm.2, h.frame m hm.1]
  · intro done hdone
    obtain ⟨first, hx, hdone⟩ := Results.bind_eq_ok.mp hdone
    obtain ⟨rest, hy, hdone⟩ := Results.bind_eq_ok.mp hdone
    cases hdone
    obtain ⟨hcompleted, hended⟩ := h.ok first hx
    obtain ⟨hcompleted', hended'⟩ := h'.ok rest hy
    refine ⟨by rw [hcompleted', hcompleted, List.append_assoc], fun m hm => ?_⟩
    rcases List.mem_append.mp hm with hm | hm
    · rw [hkept m hm]
      exact hended m hm
    · exact hended' m hm
  · intro e he
    cases x with
    | error e' =>
      cases he
      obtain ⟨m, hm, hfailed⟩ := h.error e rfl
      exact ⟨m, List.mem_append_left _ hm, by rw [hkept m hm, hfailed]⟩
    | ok first =>
      cases y with
      | error e' =>
        cases he
        obtain ⟨m, hm, hfailed⟩ := h'.error e rfl
        exact ⟨m, List.mem_append_right _ hm, hfailed⟩
      | ok rest => cases he

/-- A failed run over some nodes is one over more. -/
theorem Ran.weaken {r r' : Run} {ms ms' : List Node} {e : Failure} (h : Ran s nodes r ms (.error e) r')
    (hsub : ms ⊆ ms') : Ran s nodes r ms' (.error e) r' where
  steps := h.steps
  turn := h.turn
  running := h.running
  frame m hm := h.frame m fun hm' => hm (hsub hm')
  ok _ hdone := by cases hdone
  error e' he' := by
    obtain ⟨m, hm, hfailed⟩ := h.error e' he'
    exact ⟨m, hsub hm, hfailed⟩

/-- A node whose children have ended: it is asked for, and the answer arrives at once. -/
theorem exists_ran_single {r : Run} {root n : Node} (hn : n ∈ nodes)
    (hunder : Relation.ReflTransGen (IsChild nodes) n root) (hbefore : Before s nodes root [n] r)
    (hdue : ∀ c, IsChild nodes c n → r.stage c = .ended) : ∃ r', Ran s nodes r [n]
      ((single s n ((childrenOf nodes n).map (·.id)) r.completed).result.map Option.toList) r' := by
  obtain ⟨rest, hturn⟩ := hbefore.turn
  have hask := Step.ask (s := s) hbefore.running hturn hn hunder (hbefore.waiting n (by simp)) hdue
  have hframe : ∀ a b m, m ∉ [n] → ((r.set n a).set n b).stage m = r.stage m := by
    intro a b m hm
    have hmn : m ≠ n := fun heq => hm (by simp [heq])
    rw [Run.stage_set_of_ne hmn, Run.stage_set_of_ne hmn]
  generalize (single s n ((childrenOf nodes n).map (·.id)) r.completed).result = answer at hask
  have hasked : (r.set n (.asked answer)).stage n = .asked answer := Run.stage_set_self
  cases answer with
  | ok x =>
    refine ⟨_, (Relation.ReflTransGen.single hask).tail (.answer hbefore.running hasked), rfl,
      hbefore.running, hframe _ _, ?_, ?_⟩
    · intro done hdone
      cases hdone
      refine ⟨rfl, fun m hm => ?_⟩
      rw [List.mem_singleton.mp hm]
      exact Run.stage_set_self
    · intro e he
      cases he
  | error e =>
    refine ⟨_, (Relation.ReflTransGen.single hask).tail (.fail hbefore.running hasked), rfl,
      hbefore.running, hframe _ _, ?_, ?_⟩
    · intro done hdone
      cases hdone
    · intro e' he'
      cases he'
      exact ⟨n, by simp, Run.stage_set_self⟩

section Sequential

variable (hnodes : Composable s.workspace nodes) {root : Node}
include hnodes

theorem Before.of_ran {r r' : Run} {ms ms' : List Node} {result : Except Failure (List Completed)}
    (h : Before s nodes root (ms ++ ms') r) (hnodup : (ms ++ ms').Nodup) (hran : Ran s nodes r ms result r') :
    Before s nodes root ms' r' where
  sound := h.sound.steps hnodes hran.steps
  running := hran.running
  turn := by
    rw [hran.turn]
    exact h.turn
  waiting m hm := by
    rw [hran.frame m fun hms => (List.nodup_append.mp hnodup).2.2 m hms m hm rfl]
    exact h.waiting m (List.mem_append_right _ hm)

/-- The children that a run has ended are among what it completed. -/
theorem Ran.exists_completed {r r' : Run} {ms : List Node} {done : List Completed}
    (hbefore : Before s nodes root ms r) (hran : Ran s nodes r ms (.ok done) r') {c : Node} (hc : c ∈ ms) :
    ∃ x ∈ done, x.node = c := by
  obtain ⟨hcompleted, hended⟩ := hran.ok done rfl
  obtain ⟨x, hx, hnode⟩ := ((hbefore.sound.steps hnodes hran.steps).ended c).mp (hended c hc)
  rw [hcompleted] at hx
  rcases List.mem_append.mp hx with hx | hx
  · have hended' := (hbefore.sound.ended c).mpr ⟨x, hx, hnode⟩
    exact absurd hended' ((hbefore.waiting c hc).trans_ne Stage.noConfusion)
  · exact ⟨x, hx, hnode⟩

/-- The node above trees that have been run. -/
theorem exists_ran_node {r r' : Run} {n : Node} {ts : List Tree} (hn : n ∈ nodes)
    (hchildren : ts.map (·.node) = childrenOf nodes n) (hnodup : (Tree.nodesAll ts ++ [n]).Nodup)
    (hunder : Relation.ReflTransGen (IsChild nodes) n root)
    (hbefore : Before s nodes root (Tree.nodesAll ts ++ [n]) r)
    (hran : Ran s nodes r (Tree.nodesAll ts) (ofTrees s ts).result r') :
    ∃ r'', Ran s nodes r (Tree.nodesAll ts ++ [n]) (ofTree s (.mk n ts)).result r'' := by
  have htree : (ofTree s (.mk n ts)).result = (ofTrees s ts).result >>= fun done =>
      (single s n ((childrenOf nodes n).map (·.id)) done).result.map (done ++ Option.toList ·) := by
    rw [ofTree, Traced.result_bind, ← hchildren, List.map_map]
    simp only [Traced.result_bind]
    rfl
  cases hresult : (ofTrees s ts).result with
  | error e =>
    rw [hresult] at htree hran
    rw [htree]
    exact ⟨r', hran.weaken fun m hm => List.mem_append_left _ hm⟩
  | ok done =>
    rw [hresult] at htree hran
    have hsound := hbefore.sound.steps hnodes hran.steps
    have hchild : ∀ c ∈ childrenOf nodes n, c ∈ Tree.nodesAll ts := by
      intro c hc
      rw [← hchildren] at hc
      obtain ⟨t, ht, rfl⟩ := List.mem_map.mp hc
      rw [Tree.nodesAll_eq_flatMap]
      exact List.mem_flatMap.mpr ⟨t, ht, t.node_mem_nodes⟩
    obtain ⟨hcompleted, hended⟩ := hran.ok done rfl
    obtain ⟨r'', hown⟩ := exists_ran_single hn hunder (hbefore.of_ran hnodes hnodup hran)
      fun c hc => hended c (hchild c ((isChild_iff hn).mp hc))
    have hsame := hnodes.single_congr hn (hsound.nodup_ids hnodes)
      (hcompleted ▸ List.sublist_append_right _ _)
      fun c hc => hran.exists_completed hnodes hbefore.left (hchild c hc)
    rw [hsame] at hown
    have hboth := hran.both hown hnodup
    rw [htree]
    refine ⟨r'', ?_⟩
    change Ran s nodes r _ ((single s n ((childrenOf nodes n).map (·.id)) done).result.map
      (done ++ Option.toList ·)) r''
    generalize (single s n ((childrenOf nodes n).map (·.id)) done).result = answer at hboth ⊢
    cases answer <;> exact hboth

mutual

/-- A tree worked through from the leaves up is one of the runs. -/
theorem exists_ran_ofTree (t : Tree) (hwhole : t.Whole nodes) (hnodup : t.nodes.Nodup)
    (hunder : Relation.ReflTransGen (IsChild nodes) t.node root) {r : Run}
    (hbefore : Before s nodes root t.nodes r) : ∃ r', Ran s nodes r t.nodes (ofTree s t).result r' := by
  match t, hwhole with
  | .mk n ts, .mk hn hchildren hbelow =>
    have hchild : ∀ t ∈ ts, Relation.ReflTransGen (IsChild nodes) t.node root := by
      intro t ht
      refine .head ((isChild_iff hn).mpr ?_) hunder
      rw [← hchildren]
      exact List.mem_map_of_mem ht
    obtain ⟨r', hran⟩ := exists_ran_ofTrees ts hbelow (List.nodup_append.mp hnodup).1 hchild hbefore.left
    exact exists_ran_node hnodes hn hchildren hnodup hunder hbefore hran

theorem exists_ran_ofTrees (ts : List Tree) (hwhole : ∀ t ∈ ts, t.Whole nodes)
    (hnodup : (Tree.nodesAll ts).Nodup)
    (hunder : ∀ t ∈ ts, Relation.ReflTransGen (IsChild nodes) t.node root) {r : Run}
    (hbefore : Before s nodes root (Tree.nodesAll ts) r) :
    ∃ r', Ran s nodes r (Tree.nodesAll ts) (ofTrees s ts).result r' := by
  match ts with
  | [] => exact ⟨r, .refl, rfl, hbefore.running, fun _ _ => rfl, fun done hdone => by
      cases hdone
      exact ⟨(List.append_nil _).symm, by simp [Tree.nodesAll]⟩, fun e he => by cases he⟩
  | t :: ts =>
    obtain ⟨r₁, hran⟩ := exists_ran_ofTree t (hwhole t (by simp)) (List.nodup_append.mp hnodup).1
      (hunder t (by simp)) hbefore.left
    obtain ⟨r₂, hran'⟩ := exists_ran_ofTrees ts (fun t ht => hwhole t (by simp [ht]))
      (List.nodup_append.mp hnodup).2.1 (fun t ht => hunder t (by simp [ht]))
      (hbefore.of_ran hnodes hnodup hran)
    exact ⟨r₂, hran.both hran' hnodup⟩

end

/-- Trees one after the other, up to the first failure. -/
theorem exists_outcome_inTurn (ts : List Tree) (hwhole : ∀ t ∈ ts, t.Whole nodes)
    (hnodup : (Tree.nodesAll ts).Nodup) {r : Run} (hsound : Sound s nodes r) (hrunning : r.outcome = none)
    (hturn : r.turn = ts.map (·.node)) (hwaiting : ∀ m ∈ Tree.nodesAll ts, r.stage m = .waiting) :
    ∃ r', Relation.ReflTransGen (Step s nodes) r r' ∧
      r'.outcome = some ((inTurn s ts).result.map (r.completed ++ ·)) := by
  induction ts generalizing r with
  | nil =>
    refine ⟨_, .single (.finish hrunning hturn), ?_⟩
    change some (Except.ok r.completed) = some (Except.ok (r.completed ++ []))
    rw [List.append_nil]
  | cons t ts ih =>
    have hbefore : Before s nodes t.node t.nodes r :=
      ⟨hsound, hrunning, ⟨_, hturn⟩, fun m hm => hwaiting m (List.mem_append_left _ hm)⟩
    obtain ⟨r₁, hran⟩ := exists_ran_ofTree hnodes t (hwhole t (by simp)) (List.nodup_append.mp hnodup).1
      .refl hbefore
    rw [inTurn, Traced.result_bind]
    cases hresult : (ofTree s t).result with
    | error e =>
      obtain ⟨m, -, hfailed⟩ := hran.error e hresult
      exact ⟨_, hran.steps.tail (.raise hran.running hfailed), rfl⟩
    | ok done =>
      obtain ⟨hcompleted, hended⟩ := hran.ok done hresult
      have hnext : Step s nodes r₁ { r₁ with turn := ts.map (·.node) } :=
        .next hran.running (hran.turn.trans hturn) (hended t.node t.node_mem_nodes)
      have hlater : ∀ m ∈ Tree.nodesAll ts, r₁.stage m = .waiting := by
        intro m hm
        rw [hran.frame m fun hm' => (List.nodup_append.mp hnodup).2.2 m hm' m hm rfl]
        exact hwaiting m (List.mem_append_right _ hm)
      obtain ⟨r₂, hsteps, houtcome⟩ := ih (fun t ht => hwhole t (by simp [ht]))
        (List.nodup_append.mp hnodup).2.1 (hsound.steps hnodes (hran.steps.tail hnext)) hran.running rfl
        hlater
      refine ⟨r₂, (hran.steps.tail hnext).trans hsteps, ?_⟩
      rw [houtcome, hcompleted]
      change _ = some (((inTurn s ts >>= fun rest => pure (done ++ rest)).result).map (r.completed ++ ·))
      rw [Traced.result_bind]
      cases (inTurn s ts).result with
      | error e => rfl
      | ok rest => exact congrArg (fun l => some (Except.ok l)) (List.append_assoc _ _ _)

/-- What is computed one after the other is what one of the runs comes to. -/
theorem exists_reaches_ofNodes : ∃ r, Reaches s nodes r ∧ r.outcome = some (ofNodes s nodes).result := by
  obtain ⟨rank, hrank⟩ := hnodes.exists_ranked
  have hperm := hrank.perm_forest
  have hwhole : ∀ t ∈ Tree.forest nodes, t.Whole nodes := by
    intro t ht
    obtain ⟨n, hn, rfl⟩ := List.mem_map.mp ht
    exact hrank.whole_grow _ (List.mem_filter.mp hn).1 (Ranked.above_le_length rank n)
  have hroots : (Run.start nodes).turn = (Tree.forest nodes).map (·.node) := by
    rw [Tree.forest, List.map_map]
    exact ((List.map_congr_left fun n _ => Tree.node_grow nodes nodes.length n).trans (List.map_id _)).symm
  obtain ⟨r, hsteps, houtcome⟩ := exists_outcome_inTurn hnodes (Tree.forest nodes) hwhole
    (hperm.nodup_iff.mpr hnodes.nodup) sound_start rfl hroots fun _ _ => rfl
  refine ⟨r, hsteps, ?_⟩
  rw [houtcome, ofNodes]
  cases (inTurn s (Tree.forest nodes)).result <;> rfl

end Sequential

/-- What holds of all interleavings of the tasks for some nodes. -/
structure Scheduled (s : Sources) (nodes : List Node) : Prop where
  unique : ∀ n text text', Yields s nodes n text → Yields s nodes n text' → text = text'
  stops : ¬∃ f : Nat → Run, f 0 = .start nodes ∧ ∀ k, Step s nodes (f k) (f (k + 1))
  goes_on : ∀ r, Reaches s nodes r → r.outcome = none → ∃ r', Step s nodes r r'
  sequential : ∃ r, Reaches s nodes r ∧ r.outcome = some (ofNodes s nodes).result
  result : (∀ n ∈ nodes, ∀ e, ¬Fails s nodes n e) → ∀ r o, Reaches s nodes r → r.outcome = some o →
    ∃ done, o = .ok done ∧ (done.map (·.node)).Perm nodes ∧
      (done.Pairwise fun x y => y.node.parent ≠ some x.node.id) ∧
      ∀ x ∈ done, Yields s nodes x.node x.skeleton
  failure : ∀ n ∈ nodes, ∀ e, Fails s nodes n e → ∀ r, Reaches s nodes r →
    (∀ o, r.outcome = some o → ∃ m e', o = .error e' ∧ Fails s nodes m e') ∧
      ∀ m, Relation.TransGen (IsChild nodes) n m → r.stage m = .waiting

/-- Whatever the order in which the tasks run, they come to the same: every node gets its value, after its
children, or a failure of the generator is raised and nothing above the node was asked for. -/
theorem scheduled_of_composable (hnodes : Composable s.workspace nodes) : Scheduled s nodes where
  unique _ _ _ h h' := h.unique h'
  stops := no_endless_run hnodes
  goes_on _ hr hrunning := (sound_of_reaches hnodes hr).exists_step hnodes hrunning
  sequential := exists_reaches_ofNodes hnodes
  result hnone r o hr ho := by
    have hsound := sound_of_reaches hnodes hr
    rcases hsound.outcome o ho with ⟨rfl, hturn⟩ | ⟨n, e, -, hfailed⟩
    · exact ⟨r.completed, rfl, hsound.perm_completed hnodes hturn, hsound.ordered, hsound.values⟩
    · have hhonest := hsound.honest n
      have hbegun : r.stage n ≠ .waiting := hfailed.trans_ne Stage.noConfusion
      rw [hfailed] at hhonest
      exact absurd hhonest (hnone n (hsound.mem n hbegun) e)
  failure n hn e hfails r hr := by
    have hsound := sound_of_reaches hnodes hr
    refine ⟨fun o ho => ?_, fun m hm => hsound.waiting_above hfails hm⟩
    rcases hsound.outcome o ho with ⟨-, hturn⟩ | ⟨m, e', ho, hfailed⟩
    · obtain ⟨text, hvalue⟩ := hsound.yields_of_ended (hsound.all_ended hnodes hturn hn)
      exact absurd hvalue hfails.not_yields
    · have hhonest := hsound.honest m
      rw [hfailed] at hhonest
      exact ⟨m, e', ho, hhonest⟩

/-- A class with two functions, and not with the module around it. -/
theorem scheduled_of_composable_class :
    let uri := "file:///tmp/w/ws/a.py"
    let text := "class A:\n  def f(): 1\n  def g(): 2\n"
    let w : Workspace := ⟨⟨[(["tmp"], .directory), (["tmp", "w"], .directory), (["tmp", "w", "ws"], .directory),
      (["tmp", "w", "ws", "a.py"], .file (Utf8.encode text.toList))]⟩, ⟨.root, ["tmp", "w"]⟩, ⟨.root, ["tmp", "w", "ws"]⟩⟩
    let s : Sources := ⟨w, .empty w.base, fun _ _ code _ => return "<" ++ code ++ ">"⟩
    let a : Node := ⟨uri ++ "#0:0", uri, ⟨⟨0, 0⟩, ⟨2, 12⟩⟩, some uri, .classDef, "A"⟩
    let f : Node := ⟨uri ++ "#1:2", uri, ⟨⟨1, 2⟩, ⟨1, 12⟩⟩, some a.id, .function, "f"⟩
    let g : Node := ⟨uri ++ "#2:2", uri, ⟨⟨2, 2⟩, ⟨2, 12⟩⟩, some a.id, .function, "g"⟩
    (∃ m, CodeMap.ofDocument .tolerant w ⟨uri, text⟩ = .ok m ∧
      ∀ n ∈ [f, a, g], m.nodes.find? n.id = some n) ∧
    ∀ r o, Reaches s [f, a, g] r → r.outcome = some o → ∃ done, o = .ok done ∧
      (done.map (·.node)).Perm [f, a, g] ∧
      ∀ x ∈ done, x.node = a → x.skeleton = "<class A:\n  <def f(): 1>\n  <def g(): 2>>" := by
  intro uri text w s a f g
  have hread : w.read uri = .ok (.text ⟨uri, text⟩) := by decide +kernel
  have hpath : Uri.toPath uri = .ok ⟨.root, ["tmp", "w", "ws", "a.py"]⟩ := by decide +kernel
  let m : CodeMap := ⟨(((Table.empty.put uri ⟨uri, uri, ⟨⟨0, 0⟩, ⟨3, 0⟩⟩, none, .module, "a"⟩).put
    a.id a).put f.id f).put g.id g, .empty, .empty⟩
  have hmap : CodeMap.ofDocument .tolerant w ⟨uri, text⟩ = .ok m := by decide +kernel
  have hfind : ∀ n ∈ [f, a, g], m.nodes.find? n.id = some n := by decide +kernel
  have huri : ∀ n ∈ [f, a, g], n.uri = uri := by decide
  have hcollected : Collected w [f, a, g] := by
    refine ⟨by decide, fun n hn => ⟨⟨.root, ["tmp", "w", "ws", "a.py"]⟩, ?_⟩,
      fun n hn => ⟨⟨uri, text⟩, by rw [huri n hn, hread]⟩⟩
    rcases (CodeMap.contribution_ofDocument hmap).nodes _ n (hfind n hn) with howned | ⟨hforeign, -⟩
    · rwa [show Uri.ofResolved ⟨.root, ["tmp", "w", "ws", "a.py"]⟩ = uri by decide +kernel]
    · exact absurd (huri n hn) hforeign
  have hchild : ∀ {c p}, IsChild [f, a, g] c p → p = a ∧ (c = f ∨ c = g) := by
    rintro c p ⟨hc, hp, hparent⟩
    have hcases : ∀ c ∈ [f, a, g], ∀ p ∈ [f, a, g], c.parent = some p.id → p = a ∧ (c = f ∨ c = g) := by
      decide
    exact hcases c hc p hp hparent
  have htext : ∀ {d}, w.read a.uri = .ok (.text d) → d = ⟨uri, text⟩ := by
    intro d hd
    cases hread.symm.trans hd
    rfl
  have hcomposable : Composable w [f, a, g] := by
    refine hcollected.composable ?_ ?_
    · intro c p d hc hd
      obtain ⟨rfl, rfl | rfl⟩ := hchild hc <;> rw [htext hd] <;> constructor <;> decide +kernel
    · intro c c' p d hc hc' hne hd
      obtain ⟨rfl, rfl | rfl⟩ := hchild hc <;> obtain ⟨-, rfl | rfl⟩ := hchild hc' <;> rw [htext hd]
      · exact absurd rfl hne
      · exact .inl (by decide +kernel)
      · exact .inr (by decide +kernel)
      · exact absurd rfl hne
  have hscheduled := scheduled_of_composable (s := s) hcomposable
  have hnone : ∀ n ∈ [f, g], ([] : List Completed).map (·.node) = childrenOf [f, a, g] n := by decide
  have hf : Yields s [f, a, g] f "<def f(): 1>" :=
    .intro hread hpath (hnone f (by decide)) (by simp) (by decide +kernel)
  have hg : Yields s [f, a, g] g "<def g(): 2>" :=
    .intro hread hpath (hnone g (by decide)) (by simp) (by decide +kernel)
  have ha : Yields s [f, a, g] a "<class A:\n  <def f(): 1>\n  <def g(): 2>>" := by
    have hparts : [⟨f, "<def f(): 1>"⟩, ⟨g, "<def g(): 2>"⟩].map Completed.node = childrenOf [f, a, g] a := by
      decide
    exact .intro hread hpath hparts (by simp [hf, hg]) (by decide +kernel)
  refine ⟨⟨m, hmap, hfind⟩, fun r o hr ho => ?_⟩
  obtain ⟨done, rfl, hperm, -, hvalues⟩ := hscheduled.result (fun n _ e he => by
    obtain ⟨-, -, -, -, hgenerate⟩ := he
    cases hgenerate) r o hr ho
  refine ⟨done, rfl, hperm, fun x hx hxa => ?_⟩
  have hx := hvalues x hx
  rw [hxa] at hx
  exact hx.unique ha

end OutlineIndex.Skeleton
