import Mathlib.Data.List.Perm.Subperm
import OutlineIndex.Index.Pass
import OutlineIndex.Proofs.Visit

namespace OutlineIndex

namespace Pass

/-- The course of a walk from a queue to its end or to the first visit that fails. -/
inductive Walks (c : Context) : Pass → Item → List String → Pass × Except Failure Item → Prop where
  | done {p : Pass} {item : Item} : Walks c p item [] (p, .ok item)
  | skip {p : Pass} {item : Item} {uri : String} {queue : List String}
      {r : Pass × Except Failure Item} (seen : uri ∈ p.visited) (rest : Walks c p item queue r) :
      Walks c p item (uri :: queue) r
  | step {p p' : Pass} {item : Item} {uri : String} {queue : List String} {v : Visit}
      {r : Pass × Except Failure Item} (new : uri ∉ p.visited)
      (visit : visit c (p.mark uri) uri = (p', .ok v))
      (rest : Walks c p' (item.extend v) (queue ++ item.fresh v) r) : Walks c p item (uri :: queue) r
  | fail {p p' : Pass} {item : Item} {uri : String} {queue : List String} {e : Failure}
      (new : uri ∉ p.visited) (visit : visit c (p.mark uri) uri = (p', .error e)) :
      Walks c p item (uri :: queue) (p', .error e)

/-- A walk has one course. -/
theorem Walks.unique {c : Context} {p : Pass} {item : Item} {queue : List String}
    {r r' : Pass × Except Failure Item} (h : Walks c p item queue r) (h' : Walks c p item queue r') :
    r = r' := by
  induction h with
  | done =>
    cases h'
    rfl
  | skip hseen _ ih =>
    cases h' with
    | skip _ hrest => exact ih hrest
    | step hnew => exact absurd hseen hnew
    | fail hnew => exact absurd hseen hnew
  | step hnew hvisit _ ih =>
    cases h' with
    | skip hseen => exact absurd hseen hnew
    | step _ hvisit' hrest =>
      cases hvisit.symm.trans hvisit'
      exact ih hrest
    | fail _ hvisit' => cases hvisit.symm.trans hvisit'
  | fail hnew hvisit =>
    cases h' with
    | skip hseen => exact absurd hseen hnew
    | step _ hvisit' => cases hvisit.symm.trans hvisit'
    | fail _ hvisit' =>
      cases hvisit.symm.trans hvisit'
      rfl

/-- An invariant of walks that may speak of the documents that wait in the queue. -/
theorem Walks.invariant {c : Context} {I : Pass → Item → List String → Prop}
    (hskip : ∀ p item uri queue, uri ∈ p.visited → I p item (uri :: queue) → I p item queue)
    (hstep : ∀ p item uri queue p' v, uri ∉ p.visited → visit c (p.mark uri) uri = (p', .ok v) →
      I p item (uri :: queue) → I p' (item.extend v) (queue ++ item.fresh v))
    {p p' : Pass} {item done : Item} {queue : List String} (h : Walks c p item queue (p', .ok done))
    (hi : I p item queue) : I p' done [] := by
  generalize hr : ((p', .ok done) : Pass × Except Failure Item) = r at h
  induction h with
  | done =>
    cases hr
    exact hi
  | skip hseen _ ih => exact ih (hskip _ _ _ _ hseen hi) hr
  | step hnew hvisit _ ih => exact ih (hstep _ _ _ _ _ _ hnew hvisit hi) hr
  | fail => cases hr

/-- A walk succeeds if its visits do. -/
theorem Walks.isOk {c : Context} {I : Pass → Item → List String → Prop}
    (hskip : ∀ p item uri queue, uri ∈ p.visited → I p item (uri :: queue) → I p item queue)
    (hstep : ∀ p item uri queue p' v, uri ∉ p.visited → visit c (p.mark uri) uri = (p', .ok v) →
      I p item (uri :: queue) → I p' (item.extend v) (queue ++ item.fresh v))
    (hvisit : ∀ p item uri queue, uri ∉ p.visited → I p item (uri :: queue) →
      (visit c (p.mark uri) uri).2.isOk = true)
    {p : Pass} {item : Item} {queue : List String} {r : Pass × Except Failure Item}
    (h : Walks c p item queue r) (hi : I p item queue) : r.2.isOk = true := by
  induction h with
  | done => rfl
  | skip hseen _ ih => exact ih (hskip _ _ _ _ hseen hi)
  | step hnew hvisits _ ih => exact ih (hstep _ _ _ _ _ _ hnew hvisits hi)
  | fail hnew hfails =>
    have hok := hvisit _ _ _ _ hnew hi
    rw [hfails] at hok
    cases hok

/-- The URIs of the files of the workspace. -/
def fileUris (c : Context) : List String :=
  c.workspace.files.entries.map fun e => Uri.ofResolved ⟨.root, e.1⟩

theorem mem_fileUris_of_isFile {c : Context} {q : Path} (hq : q.Resolved)
    (h : c.workspace.files.isFile q.parts = true) : Uri.ofResolved q ∈ fileUris c := by
  obtain ⟨bytes, hfile⟩ := FileTree.exists_mem_of_isFile h
  refine List.mem_map.mpr ⟨_, hfile, ?_⟩
  rw [← hq.anchor]

/-- The documents that a code map leads to are files of the workspace. -/
theorem isTarget_of_mem_foreignUris {c : Context} {uri u : String} {d : Document} {path : Path}
    {m : CodeMap} (hreads : c.Reads uri d path)
    (hm : CodeMap.ofDocument c.backend c.workspace d = .ok m) (hu : u ∈ foreignUris uri m) :
    ∃ q, CodeMap.IsTarget c.workspace q ∧ u = Uri.ofResolved q := by
  have hcontribution := CodeMap.contribution_ofDocument hm
  rw [hreads.uri_eq] at hcontribution
  obtain ⟨hne, k, n, hn, rfl⟩ := CodeMap.mem_foreignSet.mp (IdSet.mem_def.mpr hu)
  rcases hcontribution.nodes k n hn with hown | ⟨-, hforeign⟩
  · exact absurd hown.uri_eq hne
  · exact hforeign.target

/-- A visit finds files of the workspace, each once. -/
theorem found_of_visit {c : Context} {p p' : Pass} {uri : String} {v : Visit}
    (h : visit c p uri = (p', .ok v)) :
    v.found.Nodup ∧ ∀ u ∈ v.found, ∃ q, CodeMap.IsTarget c.workspace q ∧ u = Uri.ofResolved q := by
  cases outcome_of_visit h with
  | idle => simp
  | blank => simp
  | entered quiet parsed reads stale map nodes hsub hmem =>
    exact ⟨hsub.nodup (IdSet.nodup_toList _), fun u hu =>
      isTarget_of_mem_foreignUris reads map ((hmem u).mp hu).1⟩

/-- What a visit finds can be read. -/
theorem reads_of_mem_found {c : Context} {p p' : Pass} {uri u : String} {v : Visit}
    (h : visit c p uri = (p', .ok v)) (hu : u ∈ v.found) : ∃ d path, c.Reads u d path := by
  cases outcome_of_visit h with
  | idle => cases hu
  | blank => cases hu
  | entered _ _ _ _ _ _ _ hmem =>
    obtain ⟨-, d, path, hreads, -⟩ := (hmem u).mp hu
    exact ⟨d, path, hreads⟩

/-- The frontier of the item that starts with `first`. -/
structure Item.Bounded (c : Context) (first : String) (item : Item) : Prop where
  nodup : item.frontier.Nodup
  mem : ∀ u ∈ item.frontier, u = first ∨ u ∈ fileUris c

theorem Item.bounded_start (c : Context) (uri : String) : (Item.start uri).Bounded c uri :=
  ⟨by simp [Item.start], fun _ hu => .inl (List.mem_singleton.mp hu)⟩

theorem Item.Bounded.extend {c : Context} {first : String} {item : Item} (hi : item.Bounded c first)
    {p p' : Pass} {uri : String} {v : Visit} (h : visit c p uri = (p', .ok v)) :
    (item.extend v).Bounded c first := by
  obtain ⟨hnodup, hfiles⟩ := found_of_visit h
  refine ⟨List.nodup_append.mpr ⟨hi.nodup, hnodup.filter _, ?_⟩, ?_⟩
  · rintro a ha b hb rfl
    have := (List.mem_filter.mp hb).2
    simp [ha] at this
  · intro u hu
    rcases List.mem_append.mp hu with hu | hu
    · exact hi.mem u hu
    · obtain ⟨q, htarget, rfl⟩ := hfiles u (List.mem_filter.mp hu).1
      exact .inr (mem_fileUris_of_isFile htarget.resolved htarget.isFile)

theorem Item.Bounded.length_le {c : Context} {first : String} {item : Item}
    (hi : item.Bounded c first) : item.frontier.length ≤ c.workspace.files.entries.length + 1 := by
  have hsub : item.frontier ⊆ first :: fileUris c := by
    intro u hu
    exact List.mem_cons.mpr (hi.mem u hu)
  have hle := (List.subperm_of_subset hi.nodup hsub).length_le
  rw [List.length_cons, fileUris, List.length_map] at hle
  exact hle

theorem walks_of_fuel {c : Context} {first : String} {fuel : Nat} {p : Pass} {item : Item}
    {queue : List String} (hi : item.Bounded c first)
    (hfuel : queue.length + (c.workspace.files.entries.length + 1 - item.frontier.length) ≤ fuel) :
    Walks c p item queue (walk c fuel p item queue) := by
  induction fuel generalizing p item queue with
  | zero =>
    obtain rfl : queue = [] := List.length_eq_zero_iff.mp (by omega)
    exact .done
  | succ fuel ih =>
    cases queue with
    | nil => exact .done
    | cons uri queue =>
      rw [List.length_cons] at hfuel
      rw [walk]
      by_cases hseen : uri ∈ p.visited
      · rw [if_pos (List.contains_iff_mem.mpr hseen)]
        exact .skip hseen (ih hi (by omega))
      · rw [if_neg (by simpa using hseen)]
        cases hvisit : visit c (p.mark uri) uri with
        | mk p' r =>
          cases r with
          | error e => exact .fail hseen hvisit
          | ok v =>
            have hextend := hi.extend hvisit
            have hle := hextend.length_le
            have hlength : (item.extend v).frontier.length = item.frontier.length + (item.fresh v).length :=
              List.length_append
            refine .step hseen hvisit (ih hextend ?_)
            rw [List.length_append]
            omega

/-- The fuel of an item's walk lasts. -/
theorem walks_walk (c : Context) (p : Pass) (uri : String) :
    Walks c p (.start uri) [uri] (walk c (walkFuel c) p (.start uri) [uri]) := by
  refine walks_of_fuel (Item.bounded_start c uri) ?_
  change 1 + (c.workspace.files.entries.length + 1 - 1) ≤ c.workspace.files.entries.length + 2
  omega

end Pass

end OutlineIndex
