import OutlineIndex.Proofs.Json
import OutlineIndex.Proofs.Results
import OutlineIndex.Store

namespace OutlineIndex

theorem Results.mapM_map_eq_ok {ε α β : Type} {f : α → β} {g : β → Except ε α} {l : List α}
    (h : ∀ x ∈ l, g (f x) = .ok x) : (l.map f).mapM g = .ok l := by
  rw [Results.mapM_eq_ok, List.forall₂_map_left_iff, List.forall₂_same]
  exact h

theorem Table.find?_ofList_sorted {α : Type} (t : Table α) (k : String) :
    (Table.ofList t.sorted).find? k = t.find? k := by
  have hperm : t.sorted.Perm t.entries := List.mergeSort_perm _ _
  have hdistinct : (t.sorted.map (·.1)).Nodup := (hperm.map _).nodup_iff.mpr t.distinct
  ext v
  rw [find?_eq_some_iff, find?_eq_some_iff, entries_ofList hdistinct, hperm.mem_iff]

namespace Snapshot

open Json (Simple SimpleItems SimpleFields)

theorem simpleItems_of_forall {depth : Nat} {l : List Data} (h : ∀ v ∈ l, Simple depth v) :
    SimpleItems depth l := by
  induction l with
  | nil => trivial
  | cons v l ih => exact ⟨h v (by simp), ih fun w hw => h w (List.mem_cons_of_mem _ hw)⟩

theorem simpleFields_of_forall {depth : Nat} {l : List (String × Data)} (h : ∀ e ∈ l, Simple depth e.2) :
    SimpleFields depth l := by
  induction l with
  | nil => trivial
  | cons e l ih => exact ⟨h e (by simp), ih fun w hw => h w (List.mem_cons_of_mem _ hw)⟩

theorem simple_texts (depth : Nat) (l : List String) : Simple (depth + 1) (texts l) := by
  refine simpleItems_of_forall fun v hv => ?_
  obtain ⟨s, -, rfl⟩ := List.mem_map.mp hv
  cases depth <;> trivial

theorem simple_ofEdges (depth : Nat) (edges : EdgeList) : Simple (depth + 3) (ofEdges edges) := by
  refine simpleItems_of_forall fun v hv => ?_
  obtain ⟨e, -, rfl⟩ := List.mem_map.mp hv
  exact ⟨trivial, simple_texts depth e.2, trivial⟩

theorem simple_ofEntry (depth : Nat) (e : FileEntry) : Simple (depth + 2) (ofEntry e) := by
  refine ⟨?_, simple_texts depth _, trivial, trivial⟩
  simp

theorem simple_toData (depth : Nat) (files : Table FileEntry) (imports exports : EdgeList) :
    Simple (depth + 4) (toData ⟨files, ofEdges imports, ofEdges exports⟩) := by
  have hperm : files.sorted.Perm files.entries := List.mergeSort_perm _ _
  refine ⟨by simp, simple_ofEdges depth imports, simple_ofEdges depth exports, ⟨?_, ?_⟩, trivial⟩
  · rw [List.map_map]
    exact (hperm.map _).nodup_iff.mpr files.distinct
  · refine simpleFields_of_forall fun e he => ?_
    obtain ⟨x, -, rfl⟩ := List.mem_map.mp he
    exact simple_ofEntry depth x.2

theorem entry_ofEntry (e : FileEntry) : entry (ofEntry e) = .ok e := by
  have hids : ((e.nodeIds.toList.map Data.text).mapM identifier) = .ok e.nodeIds.toList :=
    Results.mapM_map_eq_ok fun _ _ => rfl
  change ((e.nodeIds.toList.map Data.text).mapM identifier >>= fun ids =>
    .ok (FileEntry.mk (.ofList ids) e.sha)) = _
  rw [hids]
  change Except.ok (FileEntry.mk (.ofList e.nodeIds.toList) e.sha) = _
  rw [IdSet.ofList_toList]

theorem edges_ofEdges (edges : EdgeList) : Snapshot.edges (ofEdges edges) = .ok edges := by
  have hedge : ∀ e : String × List String, edge (.list [.text e.1, texts e.2]) = .ok e := by
    intro e
    have htexts : ((e.2.map Data.text).mapM edge.textOf) = .ok e.2 := Results.mapM_map_eq_ok fun _ _ => rfl
    change ((e.2.map Data.text).mapM edge.textOf >>= fun ts => .ok (e.1, ts)) = _
    rw [htexts]
    rfl
  exact Results.mapM_map_eq_ok fun e _ => hedge e

theorem ofData_toData (files : Table FileEntry) (imports exports : EdgeList) :
    ofData (toData ⟨files, ofEdges imports, ofEdges exports⟩) =
      .ok ⟨.ofList files.sorted, ofEdges imports, ofEdges exports⟩ := by
  have hfiles : ((files.sorted.map fun e => (e.1, ofEntry e.2)).mapM fun e => do
      return (e.1, ← entry e.2)) = Except.ok files.sorted := by
    refine Results.mapM_map_eq_ok fun e _ => ?_
    rw [entry_ofEntry]
    rfl
  have htable : table (.record (files.sorted.map fun e => (e.1, ofEntry e.2))) = .ok (.ofList files.sorted) := by
    rw [table, hfiles]
    rfl
  change (table (.record (files.sorted.map fun e => (e.1, ofEntry e.2))) >>= fun t =>
    .ok (Snapshot.mk t (ofEdges imports) (ofEdges exports))) = _
  rw [htable]
  rfl

end Snapshot

/-- The snapshot that was written last is the one that is loaded. -/
theorem Store.load_of_written {s : Store} {files : Table FileEntry} {imports exports : EdgeList}
    (h : s.graphFile = .text (Json.print
      (Snapshot.mk files (Snapshot.ofEdges imports) (Snapshot.ofEdges exports)).toData)) :
    s.load.result = .ok (some ⟨.ofList files.sorted, Snapshot.ofEdges imports, Snapshot.ofEdges exports⟩) := by
  have hread : Json.read Json.maxDepth (Json.print
      (Snapshot.mk files (Snapshot.ofEdges imports) (Snapshot.ofEdges exports)).toData).toList = .ok _ :=
    Json.read_print (Snapshot.simple_toData 976 files imports exports)
  unfold load
  rw [h]
  dsimp only
  rw [hread]
  dsimp only
  rw [Snapshot.ofData_toData]
  rfl

end OutlineIndex
