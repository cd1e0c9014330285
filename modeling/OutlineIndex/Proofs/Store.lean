import OutlineIndex.Proofs.Results
import OutlineIndex.Store

namespace OutlineIndex.Store

theorem rows_deleteWhere (s : Store) (p : Predicate) :
    (s.deleteWhere p).rows = s.rows.filter fun r => !p.values.contains (r.get p.column) := by
  obtain ⟨_, _, table, _⟩ := s
  cases table <;> rfl

theorem rows_deleteDocuments (s : Store) (ids : List String) :
    (s.deleteDocuments ids).rows = s.rows.filter fun r => !ids.contains r.id :=
  rows_deleteWhere s ⟨.id, ids⟩

theorem mem_rows_deleteDocuments {s : Store} {ids : List String} {r : Row} :
    r ∈ (s.deleteDocuments ids).rows ↔ r ∈ s.rows ∧ r.id ∉ ids := by
  simp [rows_deleteDocuments]

theorem mem_ids_findByPath {s : Store} {path id : String} :
    id ∈ (s.findByPath [path]).map (·.id) ↔ ∃ r ∈ s.rows, r.filePath = path ∧ r.id = id := by
  have hdocument : ∀ r : Row, r.document.id = r.id := fun _ => rfl
  simp [findByPath, hdocument, and_assoc]

/-- The new row of a document keeps its identifier and its file. -/
def Row.Holds (d : IndexDocument) (r : Row) : Prop := r.id = d.id ∧ r.filePath = d.filePath

theorem holds_embedAll {dimension : Int} {docs : List IndexDocument} {new : List Row}
    (h : embedAll dimension docs = .ok new) : List.Forall₂ Row.Holds docs new := by
  refine (Results.mapM_eq_ok.mp h).imp ?_
  intro d r hr
  obtain ⟨v, -, hr⟩ := Results.bind_eq_ok.mp hr
  cases hr
  exact ⟨rfl, rfl⟩

theorem upsert_eq_ok {s s' : Store} {docs : List IndexDocument} (h : s.upsert docs = (s', .ok ())) :
    ∃ new, embedAll s.dimension docs = .ok new ∧
      s'.rows = s.rows.filter (fun r => !(docs.map (·.id)).contains r.id) ++ new := by
  unfold upsert at h
  split at h
  · cases h
  · rename_i new hnew
    refine ⟨new, hnew, ?_⟩
    cases htable : s.table with
    | none =>
      rw [htable] at h
      dsimp only at h
      split at h
      · cases h
      · cases h
        simp [rows, htable]
    | some t =>
      rw [htable] at h
      dsimp only at h
      split at h
      · cases h
        simp only [rows, htable, Option.map_some, Option.getD_some]
        rfl
      · cases h

/-- Those of some rows that a full save keeps. -/
def currentRows (files : Table FileEntry) (rows : List Row) : List Row :=
  rows.filter fun r => files.contains r.filePath && !(stale files rows).contains r.id

theorem rows_prune (s : Store) (files : Table FileEntry) :
    (s.prune files).rows = currentRows files s.rows := by
  rw [prune, rows_deleteDocuments, rows_deleteWhere, List.filter_filter, currentRows]
  apply List.filter_congr
  intro r hr
  have horphan : (orphans files s.rows).contains r.filePath = !files.contains r.filePath := by
    rw [Bool.eq_iff_iff, List.contains_iff_mem, orphans, ← IdSet.mem_def, IdSet.mem_ofList,
      List.mem_filter, List.mem_map]
    exact ⟨fun h => h.2, fun h => ⟨⟨r, hr, rfl⟩, h⟩⟩
  change (!_ && !(orphans files s.rows).contains r.filePath) = _
  rw [horphan, Bool.not_not, Bool.and_comm]

theorem mem_stale {files : Table FileEntry} {rows : List Row} {id : String} :
    id ∈ stale files rows ↔
      ∃ r ∈ rows, files.contains r.filePath = true ∧ r.isCurrent files = false ∧ r.id = id := by
  simp [stale, and_assoc]

theorem Row.isCurrent_iff {files : Table FileEntry} {r : Row} :
    r.isCurrent files = true ↔ ∃ e, files.find? r.filePath = some e ∧ r.relativeId ∈ e.nodeIds := by
  unfold isCurrent
  cases files.find? r.filePath <;> simp

/-- A full save keeps a row if the rows with its identifier are all current. -/
theorem mem_currentRows_of_current {files : Table FileEntry} {rows : List Row} {r : Row} (hr : r ∈ rows)
    (h : ∀ r' ∈ rows, r'.id = r.id → r'.isCurrent files = true) : r ∈ currentRows files rows := by
  have hfile : files.contains r.filePath = true := by
    obtain ⟨e, he, -⟩ := Row.isCurrent_iff.mp (h r hr rfl)
    rw [Table.contains_iff, he]
    rfl
  have hstale : r.id ∉ stale files rows := by
    intro hmem
    obtain ⟨r', hr', -, hnot, hid⟩ := mem_stale.mp hmem
    rw [h r' hr' hid] at hnot
    cases hnot
  exact List.mem_filter.mpr ⟨hr, by simp [hfile, hstale]⟩

theorem currentRows_of_current {files : Table FileEntry} {rows : List Row}
    (h : ∀ r ∈ rows, r.isCurrent files = true) : currentRows files rows = rows :=
  List.filter_eq_self.mpr fun _ hr =>
    (List.mem_filter.mp (mem_currentRows_of_current hr fun r' hr' _ => h r' hr')).2

theorem writeGraph_eq_ok {s s' : Store} {snapshot : Snapshot} (h : s.writeGraph snapshot = (s', .ok ())) :
    s' = { s with graphFile := .text (Json.print snapshot.toData) } := by
  unfold writeGraph at h
  split at h <;> cases h
  rfl

/-- What a save that succeeds leaves in the store. -/
theorem save_eq_ok {s s' : Store} {docs : List IndexDocument} {imports exports : EdgeList}
    {files : Table FileEntry} {incremental : Bool}
    (h : s.save docs imports exports files incremental = (s', .ok ())) :
    ∃ new, embedAll s.dimension docs = .ok new ∧
      s'.rows = (if incremental then id else currentRows files)
        (s.rows.filter (fun r => !(docs.map (·.id)).contains r.id) ++ new) ∧
      s'.graphFile = .text (Json.print
        (Snapshot.mk files (Snapshot.ofEdges imports) (Snapshot.ofEdges exports)).toData) := by
  generalize hsnapshot : Snapshot.mk files (Snapshot.ofEdges imports) (Snapshot.ofEdges exports) =
    snapshot
  have hfiles : snapshot.files = files := by rw [← hsnapshot]
  have hs : (s.saveSteps docs snapshot incremental).1 = s' := by
    rw [← hsnapshot]
    exact congrArg Prod.fst h
  have hr : (s.saveSteps docs snapshot incremental).2 = .ok () := by
    rw [← hsnapshot]
    exact Results.mapError_eq_ok.mp (congrArg Prod.snd h)
  have hadded : ∀ s₁ r₁, (if docs.isEmpty then (s, .ok ()) else s.upsert docs) = (s₁, r₁) → r₁ = .ok () →
      ∃ new, embedAll s.dimension docs = .ok new ∧
        s₁.rows = s.rows.filter (fun r => !(docs.map (·.id)).contains r.id) ++ new := by
    rintro s₁ r₁ hadd rfl
    split at hadd
    · rename_i hempty
      cases hadd
      obtain rfl : docs = [] := by simpa using hempty
      exact ⟨[], rfl, by simp⟩
    · exact upsert_eq_ok hadd
  unfold saveSteps at hs hr
  split at hr
  · cases hr
  · rename_i s₁ hadd
    rw [hadd] at hs
    obtain ⟨new, hnew, hrows⟩ := hadded _ _ hadd rfl
    have hwritten := writeGraph_eq_ok (Prod.ext hs hr)
    refine ⟨new, hnew, ?_, by rw [hwritten]⟩
    rw [hwritten, ← hrows, ← hfiles]
    cases incremental with
    | true => rfl
    | false => exact rows_prune s₁ snapshot.files

theorem mem_rows_upsert {s : Store} {docs : List IndexDocument} {r : Row}
    (h : r ∈ (s.upsert docs).1.rows) : r ∈ s.rows ∨ ∃ d ∈ docs, Row.Holds d r := by
  have hkept : ∀ t, s.table = some t → r ∈ (t.delete ⟨.id, docs.map (·.id)⟩).rows → r ∈ s.rows := by
    intro t ht hr
    rw [rows, ht]
    exact (List.mem_filter.mp hr).1
  unfold upsert at h
  split at h
  · exact .inl h
  · rename_i new hnew
    have hadded : r ∈ new → ∃ d ∈ docs, Row.Holds d r := Results.exists_left_of_mem (holds_embedAll hnew)
    cases htable : s.table with
    | none =>
      rw [htable] at h
      dsimp only at h
      split at h
      · exact .inl h
      · exact .inr (hadded h)
    | some t =>
      rw [htable] at h
      dsimp only at h
      split at h
      · rcases List.mem_append.mp h with hold | hr
        · exact .inl (hkept t htable hold)
        · exact .inr (hadded hr)
      · exact .inl (hkept t htable h)

theorem rows_writeGraph (s : Store) (snapshot : Snapshot) : (s.writeGraph snapshot).1.rows = s.rows := by
  unfold writeGraph
  split <;> rfl

/-- The rows after a save were there before or are those of its documents, whether it succeeds or
not. -/
theorem mem_rows_save {s s' : Store} {docs : List IndexDocument} {imports exports : EdgeList}
    {files : Table FileEntry} {incremental : Bool} {e : Except Failure Unit}
    (h : s.save docs imports exports files incremental = (s', e)) {r : Row} (hr : r ∈ s'.rows) :
    r ∈ s.rows ∨ ∃ d ∈ docs, Row.Holds d r := by
  have hadded : r ∈ (if docs.isEmpty then (s, .ok ()) else s.upsert docs).1.rows →
      r ∈ s.rows ∨ ∃ d ∈ docs, Row.Holds d r := by
    intro hr
    split at hr
    · exact .inl hr
    · exact mem_rows_upsert hr
  obtain rfl : (s.saveSteps docs ⟨files, Snapshot.ofEdges imports, Snapshot.ofEdges exports⟩
    incremental).1 = s' := congrArg Prod.fst h
  unfold saveSteps at hr
  split at hr
  · rename_i s₁ _ hfail
    rw [hfail] at hadded
    exact hadded hr
  · rename_i s₁ hdone
    rw [hdone] at hadded
    rw [rows_writeGraph] at hr
    apply hadded
    split at hr
    · exact hr
    · rw [rows_prune] at hr
      exact (List.mem_filter.mp hr).1

theorem graphFile_upsert (s : Store) (docs : List IndexDocument) :
    (s.upsert docs).1.graphFile = s.graphFile := by
  unfold upsert
  split
  · rfl
  · cases s.table with
    | none =>
      dsimp only
      split <;> rfl
    | some t =>
      dsimp only
      split <;> rfl

/-- A save leaves the snapshot alone or writes the one that it is given, whether it succeeds or not. -/
theorem graphFile_save {s s' : Store} {docs : List IndexDocument} {imports exports : EdgeList}
    {files : Table FileEntry} {incremental : Bool} {r : Except Failure Unit}
    (h : s.save docs imports exports files incremental = (s', r)) :
    s'.graphFile = s.graphFile ∨ s'.graphFile = .text (Json.print
      (Snapshot.mk files (Snapshot.ofEdges imports) (Snapshot.ofEdges exports)).toData) := by
  have hadded : (if docs.isEmpty then (s, .ok ()) else s.upsert docs).1.graphFile = s.graphFile := by
    split
    · rfl
    · exact graphFile_upsert s docs
  obtain rfl : (s.saveSteps docs ⟨files, Snapshot.ofEdges imports, Snapshot.ofEdges exports⟩
    incremental).1 = s' := congrArg Prod.fst h
  unfold saveSteps
  split
  · rename_i s₁ _ hfail
    rw [hfail] at hadded
    exact .inl hadded
  · rename_i s₁ hdone
    rw [hdone] at hadded
    have hkept : (if incremental then s₁ else s₁.prune files).graphFile = s.graphFile := by
      split <;> exact hadded
    unfold writeGraph
    split
    · exact .inl hkept
    · exact .inr rfl

end OutlineIndex.Store
