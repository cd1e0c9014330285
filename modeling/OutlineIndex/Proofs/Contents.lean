import Mathlib.Data.List.Nodup
import OutlineIndex.Proofs.Snapshot
import OutlineIndex.Proofs.Store

namespace OutlineIndex

namespace IndexDocument

/-- The document as it is found again: an empty parent is none. -/
def normal (d : IndexDocument) : IndexDocument := { d with parent := d.parent.filter (· ≠ "") }

/-- Whether the table of files has the file of a document, and the file the document's node. -/
def isCurrent (files : Table FileEntry) (d : IndexDocument) : Bool :=
  match files.find? d.filePath with
  | some e => e.nodeIds.contains (NodeId.withFragment d.filePath (NodeId.split d.id).2)
  | none => false

end IndexDocument

namespace Store

/-- What is asked of a store. -/
inductive Call where
  | save (docs : List IndexDocument) (imports exports : EdgeList) (files : Table FileEntry)
      (incremental : Bool)
  | delete (ids : List String)
  | clear
  | reopen

/-- No two documents of a save have one identifier. -/
def Call.Distinct : Call → Prop
  | .save docs _ _ _ _ => (docs.map (·.id)).Nodup
  | _ => True

/-- A new store over the table and the file that this one leaves. -/
def reopen (s : Store) : Store :=
  { empty s.graphPath s.dimension with table := s.table, graphFile := s.graphFile }

def perform (s : Store) : Call → Store × Except Failure Unit
  | .save docs imports exports files incremental => s.save docs imports exports files incremental
  | .delete ids => (s.deleteDocuments ids, .ok ())
  | .clear => s.clear
  | .reopen => (s.reopen, .ok ())

/-- The store after some calls, unless one of them fails. -/
def performAll (s : Store) : List Call → Except Failure Store
  | [] => .ok s
  | call :: calls =>
    match s.perform call with
    | (s, .ok ()) => s.performAll calls
    | (_, .error e) => .error e

/-- The embedder has a vector for every text. -/
def Embeds (dimension : Int) : Prop := ∀ text, ∃ v, Embedding.ofText dimension text = .ok v

/-- What a store stands for. -/
structure Contents where
  documents : Table IndexDocument
  snapshot : Option (Table FileEntry × EdgeList × EdgeList)

namespace Contents

def empty : Contents := ⟨.empty, none⟩

def perform (c : Contents) : Call → Contents
  | .save docs imports exports files incremental =>
    let saved := docs.foldl (fun t d => t.put d.id d) c.documents
    ⟨if incremental then saved else saved.filter fun _ d => d.isCurrent files,
      some (files, imports, exports)⟩
  | .delete ids => { c with documents := c.documents.filter fun id _ => !ids.contains id }
  | .clear => empty
  | .reopen => c

end Contents

/-- A snapshot read back is the one that was saved. -/
def Restores : Option (Table FileEntry × EdgeList × EdgeList) → Option Snapshot → Prop
  | none, none => True
  | some (files, imports, exports), some x => (∀ path, x.files.find? path = files.find? path) ∧
      Snapshot.edges x.imports = .ok imports ∧ Snapshot.edges x.exports = .ok exports
  | _, _ => False

/-- What can be asked of a store is answered by the map. -/
structure Refines (s : Store) (c : Contents) : Prop where
  distinct : (s.rows.map (·.id)).Nodup
  ids : (s.rows.map (·.id)).Perm c.documents.keys
  found : ∀ paths, (s.findByPath paths).Perm
    ((c.documents.values.filter fun d => paths.contains d.filePath).map (·.normal))
  count : s.count = c.documents.entries.length
  loaded : ∃ x, s.load.result = .ok x ∧ Restores c.snapshot x
  pruned : ∀ docs imports exports files, (docs.map (·.id)).Nodup →
    (s.save docs imports exports files false).1.rows =
      (s.save docs imports exports files true).1.rows.filter (·.isCurrent files)

/-- Nothing stands in the way of a save. -/
structure Ready (s : Store) : Prop where
  dimension : 0 < s.dimension
  table : ∀ t, s.table = some t → t.dimension = s.dimension.toNat
  file : s.graphFile ≠ .directory

theorem embeds_of_pos {dimension : Int} (h : 0 < dimension) : Embeds dimension := by
  intro text
  unfold Embedding.ofText
  dsimp only
  split
  · exact ⟨_, rfl⟩
  · rw [if_neg (by omega), if_neg (by omega)]
    exact ⟨_, rfl⟩

theorem Embeds.embedAll {dimension : Int} (h : Embeds dimension) (docs : List IndexDocument) :
    ∃ new, Store.embedAll dimension docs = .ok new := by
  refine Results.exists_mapM_eq_ok fun d _ => ?_
  obtain ⟨v, hv⟩ := h d.content
  exact ⟨Row.ofDocument d v, by rw [hv]; rfl⟩

/-- A word has a slot in vectors of a positive dimension only. -/
theorem Embeds.pos {dimension : Int} (h : Embeds dimension) : 0 < dimension := by
  obtain ⟨v, hv⟩ := h "a"
  have hwords : (Embedding.words (Text.lower "a".toList)).isEmpty = false := by decide
  unfold Embedding.ofText at hv
  dsimp only at hv
  rw [hwords] at hv
  by_contra hneg
  by_cases hzero : dimension = 0
  · rw [if_neg (by simp), if_pos hzero] at hv
    cases hv
  · rw [if_neg (by simp), if_neg hzero, if_pos (by omega)] at hv
    cases hv

namespace Ready

variable {s : Store}

theorem deleteWhere (h : Ready s) (p : Predicate) : Ready (s.deleteWhere p) := by
  refine ⟨h.dimension, fun t ht => ?_, h.file⟩
  obtain ⟨t₀, ht₀, rfl⟩ := Option.map_eq_some_iff.mp ht
  exact h.table t₀ ht₀

theorem upsert (h : Ready s) (docs : List IndexDocument) :
    ∃ s', s.upsert docs = (s', .ok ()) ∧ Ready s' := by
  have hpos := h.dimension
  obtain ⟨new, hnew⟩ := (embeds_of_pos hpos).embedAll docs
  unfold Store.upsert
  rw [hnew]
  dsimp only
  cases htable : s.table with
  | none =>
    dsimp only
    rw [if_neg (by omega)]
    refine ⟨_, rfl, h.dimension, ?_, h.file⟩
    rintro t ⟨⟩
    rfl
  | some t =>
    have hsize := h.table t htable
    dsimp only
    rw [if_pos hsize.symm]
    refine ⟨_, rfl, h.dimension, ?_, h.file⟩
    rintro t ⟨⟩
    exact hsize

theorem writeGraph (h : Ready s) (snapshot : Snapshot) :
    ∃ s', s.writeGraph snapshot = (s', .ok ()) ∧ Ready s' := by
  unfold Store.writeGraph
  split
  · rename_i hdirectory
    exact absurd hdirectory h.file
  · exact ⟨_, rfl, h.dimension, h.table, by simp⟩

theorem save (h : Ready s) (docs : List IndexDocument) (imports exports : EdgeList)
    (files : Table FileEntry) (incremental : Bool) :
    ∃ s', s.save docs imports exports files incremental = (s', .ok ()) ∧ Ready s' := by
  have hadded : ∃ s₁, (if docs.isEmpty then (s, .ok ()) else s.upsert docs) = (s₁, .ok ()) ∧ Ready s₁ := by
    split
    · exact ⟨s, rfl, h⟩
    · exact h.upsert docs
  obtain ⟨s₁, hs₁, hready⟩ := hadded
  have hkept : Ready (if incremental then s₁ else s₁.prune files) := by
    split
    · exact hready
    · exact (hready.deleteWhere _).deleteWhere _
  obtain ⟨s₂, hs₂, hready⟩ := hkept.writeGraph ⟨files, Snapshot.ofEdges imports, Snapshot.ofEdges exports⟩
  refine ⟨s₂, ?_, hready⟩
  unfold Store.save saveSteps
  rw [hs₁]
  dsimp only
  rw [hs₂]
  rfl

end Ready

theorem PathList.paths_ofPaths (paths : List String) : (ofPaths paths).paths = paths := by
  have hread : Json.read Json.maxDepth (ofPaths paths).text.toList = .ok (.list (paths.map .text)) :=
    Json.read_printTexts 979 paths
  rw [PathList.paths, hread]
  simp [List.filterMap_map, Function.comp_def, Data.text?]

theorem Row.document_ofDocument (d : IndexDocument) (v : Embedding) : (ofDocument d v).document = d.normal := by
  obtain ⟨id, content, filePath, startRange, endRange, parent, related⟩ := d
  cases parent with
  | none => simp [ofDocument, document, IndexDocument.normal, PathList.paths_ofPaths]
  | some p =>
    by_cases hp : p = "" <;>
      simp [ofDocument, document, IndexDocument.normal, Option.filter, PathList.paths_ofPaths, hp]

/-- The new rows are those of the documents. -/
theorem map_document_embedAll {dimension : Int} {docs : List IndexDocument} {new : List Row}
    (h : embedAll dimension docs = .ok new) : new.map Row.document = docs.map (·.normal) := by
  refine Results.map_eq_map ((Results.mapM_eq_ok.mp h).imp fun d r hr => ?_)
  obtain ⟨v, -, hr⟩ := Results.bind_eq_ok.mp hr
  cases hr
  exact Row.document_ofDocument d v

/-- Where no two rows have one identifier, a full save keeps just the current ones. -/
theorem currentRows_of_distinct {files : Table FileEntry} {rows : List Row}
    (h : (rows.map (·.id)).Nodup) : currentRows files rows = rows.filter (·.isCurrent files) := by
  refine List.filter_congr fun r hr => ?_
  rw [Bool.eq_iff_iff]
  constructor
  · intro hkept
    obtain ⟨hfile, hstale⟩ := Bool.and_eq_true_iff.mp hkept
    by_contra hnot
    have hmem : r.id ∈ stale files rows := mem_stale.mpr ⟨r, hr, hfile, by simpa using hnot, rfl⟩
    simp [hmem] at hstale
  · intro hcurrent
    refine (List.mem_filter.mp (mem_currentRows_of_current hr fun r' hr' hid => ?_)).2
    rw [List.inj_on_of_nodup_map h hr' hr hid]
    exact hcurrent

/-- The rows are the documents of the map, and the file has its snapshot. -/
structure Represents (s : Store) (c : Contents) : Prop where
  ready : Ready s
  keyed : ∀ id d, c.documents.find? id = some d → d.id = id
  distinct : (s.rows.map (·.id)).Nodup
  rows : ∀ d, d ∈ s.rows.map Row.document ↔ ∃ d₀, c.documents.find? d₀.id = some d₀ ∧ d₀.normal = d
  file : s.graphFile = match c.snapshot with
    | none => .absent
    | some (files, imports, exports) => .text (Json.print
        (Snapshot.mk files (Snapshot.ofEdges imports) (Snapshot.ofEdges exports)).toData)

namespace Represents

variable {s : Store} {c : Contents}

theorem empty (path : String) {dimension : Int} (h : 0 < dimension) :
    Represents (.empty path dimension) .empty where
  ready := ⟨h, by rintro t ⟨⟩, by rintro ⟨⟩⟩
  keyed _ _ hfind := by cases hfind
  distinct := List.nodup_nil
  rows d := by
    constructor
    · intro hd
      cases hd
    · rintro ⟨d₀, hfind, -⟩
      cases hfind
  file := rfl

/-- Dropping rows and documents by a test that both answer alike. -/
theorem filter (h : Represents s c) {s' : Store} {p : Row → Bool}
    {q : String → IndexDocument → Bool} (hready : Ready s') (hfile : s'.graphFile = s.graphFile)
    (hrows : s'.rows = s.rows.filter p) (hrow : ∀ r : Row, p r = q r.id r.document)
    (hnormal : ∀ d : IndexDocument, q d.id d.normal = q d.id d) :
    Represents s' { c with documents := c.documents.filter q } where
  ready := hready
  keyed id d hfind := by
    rw [Table.find?_filter, Option.filter_eq_some_iff] at hfind
    exact h.keyed id d hfind.1
  distinct := by
    rw [hrows]
    exact h.distinct.sublist (List.filter_sublist.map _)
  rows d := by
    have hkept : d ∈ (s.rows.filter p).map Row.document ↔ 
        d ∈ s.rows.map Row.document ∧ q d.id d = true := by
      simp only [List.mem_map, List.mem_filter, hrow]
      constructor
      · rintro ⟨r, ⟨hr, hq⟩, rfl⟩
        exact ⟨⟨r, hr, rfl⟩, hq⟩
      · rintro ⟨⟨r, hr, rfl⟩, hq⟩
        exact ⟨r, ⟨hr, hq⟩, rfl⟩
    rw [hrows, hkept, h.rows d]
    simp only [Table.find?_filter, Option.filter_eq_some_iff]
    constructor
    · rintro ⟨⟨d₀, hfind, rfl⟩, hq⟩
      exact ⟨d₀, ⟨hfind, (hnormal d₀).symm.trans hq⟩, rfl⟩
    · rintro ⟨d₀, ⟨hfind, hq⟩, rfl⟩
      exact ⟨⟨d₀, hfind, rfl⟩, (hnormal d₀).trans hq⟩
  file := hfile.trans h.file

/-- After writes of distinct keys a table has the values written and the old ones at other keys. -/
theorem find?_foldl_put_iff {docs : List IndexDocument} (hd : (docs.map (·.id)).Nodup)
    {t : Table IndexDocument} {d : IndexDocument} :
    (docs.foldl (fun t d => t.put d.id d) t).find? d.id = some d ↔
      d ∈ docs ∨ (t.find? d.id = some d ∧ d.id ∉ docs.map (·.id)) := by
  induction docs generalizing t with
  | nil => simp
  | cons x docs ih =>
    obtain ⟨hx, hdocs⟩ := List.nodup_cons.mp hd
    rw [List.foldl_cons, ih hdocs, Table.find?_put]
    by_cases hid : d.id = x.id
    · have hout : d.id ∉ docs.map (·.id) := hid ▸ hx
      have hmem : d ∉ docs := fun h => hout (List.mem_map_of_mem h)
      simp [hid, hmem, hx, eq_comm]
    · have hne : d ≠ x := fun h => hid (h ▸ rfl)
      simp [hid, hne]

theorem save (h : Represents s c) {docs : List IndexDocument} (hd : (docs.map (·.id)).Nodup)
    (imports exports : EdgeList) (files : Table FileEntry) :
    ∃ s', s.save docs imports exports files true = (s', .ok ()) ∧
      Represents s' (c.perform (.save docs imports exports files true)) := by
  obtain ⟨s', hsave, hready⟩ := h.ready.save docs imports exports files true
  obtain ⟨new, hnew, hrows, hfile⟩ := save_eq_ok hsave
  have hdocs := map_document_embedAll hnew
  have hids : new.map (·.id) = docs.map (·.id) := by
    have h := congrArg (List.map IndexDocument.id) hdocs
    simpa [List.map_map, Function.comp_def, Row.document, IndexDocument.normal] using h
  refine ⟨s', hsave, hready, ?_, ?_, ?_, hfile⟩
  · intro id d hfind
    rcases Table.find?_foldl_put_cases hfind with ⟨x, -, hid, rfl⟩ | ⟨hfind, -⟩
    · exact hid
    · exact h.keyed id d hfind
  · rw [hrows, if_pos rfl, id, List.map_append, List.nodup_append]
    refine ⟨h.distinct.sublist (List.filter_sublist.map _), hids ▸ hd, ?_⟩
    intro a ha b hb e
    obtain ⟨r, hr, rfl⟩ := List.mem_map.mp ha
    have hout := (List.mem_filter.mp hr).2
    rw [hids, ← e] at hb
    simp [hb] at hout
  · intro d
    have hold : d ∈ (s.rows.filter fun r => !(docs.map (·.id)).contains r.id).map Row.document ↔
        d ∈ s.rows.map Row.document ∧ d.id ∉ docs.map (·.id) := by
      simp only [List.mem_map, List.mem_filter]
      constructor
      · rintro ⟨r, ⟨hr, hout⟩, rfl⟩
        exact ⟨⟨r, hr, rfl⟩, by simpa [Row.document] using hout⟩
      · rintro ⟨⟨r, hr, rfl⟩, hout⟩
        exact ⟨r, ⟨hr, by simpa [Row.document] using hout⟩, rfl⟩
    have hadded : d ∈ docs.map (·.normal) ↔ ∃ d₀ ∈ docs, d₀.normal = d := List.mem_map
    rw [hrows, if_pos rfl, id, List.map_append, List.mem_append, hold, hdocs, h.rows d, hadded]
    simp only [Contents.perform, if_pos, find?_foldl_put_iff hd]
    constructor
    · rintro (⟨⟨d₀, hfind, rfl⟩, hout⟩ | ⟨d₀, hmem, rfl⟩)
      · exact ⟨d₀, .inr ⟨hfind, hout⟩, rfl⟩
      · exact ⟨d₀, .inl hmem, rfl⟩
    · rintro ⟨d₀, hmem | ⟨hfind, hout⟩, rfl⟩
      · exact .inr ⟨d₀, hmem, rfl⟩
      · exact .inl ⟨⟨d₀, hfind, rfl⟩, hout⟩

theorem saveFull (h : Represents s c) {docs : List IndexDocument} (hd : (docs.map (·.id)).Nodup)
    (imports exports : EdgeList) (files : Table FileEntry) :
    (s.save docs imports exports files false).1.rows =
        (s.save docs imports exports files true).1.rows.filter (·.isCurrent files) ∧
      ∃ s', s.save docs imports exports files false = (s', .ok ()) ∧
        Represents s' (c.perform (.save docs imports exports files false)) := by
  obtain ⟨s₁, hsave₁, h₁⟩ := h.save hd imports exports files
  obtain ⟨s₂, hsave₂, hready⟩ := h.ready.save docs imports exports files false
  obtain ⟨new, hnew, hrows₁, hfile₁⟩ := save_eq_ok hsave₁
  obtain ⟨new', hnew', hrows₂, hfile₂⟩ := save_eq_ok hsave₂
  obtain rfl : new = new' := Except.ok.inj (hnew.symm.trans hnew')
  have hrows : s₂.rows = s₁.rows.filter (·.isCurrent files) := by
    rw [← currentRows_of_distinct h₁.distinct, hrows₁, hrows₂]
    rfl
  refine ⟨by rw [hsave₁, hsave₂, hrows], s₂, hsave₂, ?_⟩
  exact h₁.filter (q := fun _ d => d.isCurrent files) hready (hfile₂.trans hfile₁.symm) hrows
    (fun _ => rfl) (fun _ => rfl)

theorem delete (h : Represents s c) (ids : List String) :
    Represents (s.deleteDocuments ids) (c.perform (.delete ids)) :=
  h.filter (q := fun id _ => !ids.contains id) (h.ready.deleteWhere _) rfl (rows_deleteDocuments s ids)
    (fun _ => rfl) (fun _ => rfl)

theorem clear (h : Represents s c) :
    ∃ s', s.clear = (s', .ok ()) ∧ Represents s' (c.perform .clear) := by
  unfold Store.clear
  dsimp only
  split
  · rename_i hdirectory
    exact absurd hdirectory h.ready.file
  · exact ⟨_, rfl, empty s.graphPath h.ready.dimension⟩

/-- Every call succeeds, and the store stands for the map after it. -/
theorem perform (h : Represents s c) {call : Call} (hd : call.Distinct) :
    ∃ s', s.perform call = (s', .ok ()) ∧ Represents s' (c.perform call) := by
  cases call with
  | save docs imports exports files incremental =>
    cases incremental with
    | true => exact h.save hd imports exports files
    | false => exact (h.saveFull hd imports exports files).2
  | delete ids => exact ⟨_, rfl, h.delete ids⟩
  | clear => exact h.clear
  | reopen => exact ⟨s, rfl, h⟩

theorem performAll (h : Represents s c) {calls : List Call} (hd : ∀ call ∈ calls, call.Distinct) :
    ∃ s', s.performAll calls = .ok s' ∧ Represents s' (calls.foldl Contents.perform c) := by
  induction calls generalizing s c with
  | nil => exact ⟨s, rfl, h⟩
  | cons call calls ih =>
    obtain ⟨s₁, hs₁, h₁⟩ := h.perform (hd call (by simp))
    obtain ⟨s₂, hs₂, h₂⟩ := ih h₁ fun x hx => hd x (List.mem_cons_of_mem _ hx)
    refine ⟨s₂, ?_, h₂⟩
    rw [Store.performAll, hs₁]
    exact hs₂

theorem map_id_values (h : Represents s c) : c.documents.values.map (·.id) = c.documents.keys := by
  unfold Table.values Table.keys
  rw [List.map_map]
  refine List.map_congr_left fun e he => ?_
  exact h.keyed e.1 e.2 (Table.find?_eq_some_iff.mpr he)

theorem mem_values (h : Represents s c) {d : IndexDocument} :
    d ∈ c.documents.values ↔ c.documents.find? d.id = some d := by
  rw [Table.mem_values_iff]
  constructor
  · rintro ⟨k, hk⟩
    rw [h.keyed k d hk]
    exact hk
  · intro hfind
    exact ⟨d.id, hfind⟩

theorem ids (h : Represents s c) : (s.rows.map (·.id)).Perm c.documents.keys := by
  refine (List.perm_ext_iff_of_nodup h.distinct c.documents.distinct).mpr fun id => ?_
  have hrow : id ∈ s.rows.map (·.id) ↔ ∃ d ∈ s.rows.map Row.document, d.id = id := by
    simp [Row.document]
  change _ ↔ id ∈ c.documents.keys
  rw [hrow, ← h.map_id_values, List.mem_map]
  constructor
  · rintro ⟨d, hd, rfl⟩
    obtain ⟨d₀, hfind, rfl⟩ := (h.rows d).mp hd
    exact ⟨d₀, h.mem_values.mpr hfind, rfl⟩
  · rintro ⟨d₀, hd₀, rfl⟩
    exact ⟨d₀.normal, (h.rows _).mpr ⟨d₀, h.mem_values.mp hd₀, rfl⟩, rfl⟩

theorem documents (h : Represents s c) :
    (s.rows.map Row.document).Perm (c.documents.values.map (·.normal)) := by
  have hleft : (s.rows.map Row.document).Nodup := by
    refine List.Nodup.of_map IndexDocument.id ?_
    rw [List.map_map]
    exact h.distinct
  have hright : (c.documents.values.map (·.normal)).Nodup := by
    refine List.Nodup.of_map IndexDocument.id ?_
    rw [List.map_map]
    exact h.map_id_values ▸ c.documents.distinct
  refine (List.perm_ext_iff_of_nodup hleft hright).mpr fun d => ?_
  rw [h.rows d, List.mem_map]
  simp only [h.mem_values]

theorem found (h : Represents s c) (paths : List String) : (s.findByPath paths).Perm
    ((c.documents.values.filter fun d => paths.contains d.filePath).map (·.normal)) := by
  have hrows : s.findByPath paths =
      (s.rows.map Row.document).filter fun d => paths.contains d.filePath := by
    rw [List.filter_map]
    rfl
  have hvalues : (c.documents.values.filter fun d => paths.contains d.filePath).map (·.normal) =
      (c.documents.values.map (·.normal)).filter fun d => paths.contains d.filePath := by
    rw [List.filter_map]
    rfl
  rw [hrows, hvalues]
  exact h.documents.filter _

theorem loaded (h : Represents s c) : ∃ x, s.load.result = .ok x ∧ Restores c.snapshot x := by
  have hfile := h.file
  cases hsnapshot : c.snapshot with
  | none =>
    rw [hsnapshot] at hfile
    refine ⟨none, ?_, trivial⟩
    unfold Store.load
    rw [hfile]
    rfl
  | some saved =>
    obtain ⟨files, imports, exports⟩ := saved
    rw [hsnapshot] at hfile
    exact ⟨_, load_of_written hfile, fun path => Table.find?_ofList_sorted files path,
      Snapshot.edges_ofEdges imports, Snapshot.edges_ofEdges exports⟩

theorem refines (h : Represents s c) : Refines s c where
  distinct := h.distinct
  ids := h.ids
  found := h.found
  count := by
    have hlength := h.ids.length_eq
    simpa [Store.count, Table.keys] using hlength
  loaded := h.loaded
  pruned _ imports exports files hd := (h.saveFull hd imports exports files).1

end Represents

/-- Whatever is done with a new store succeeds, and the store is the map that the same calls make. -/
theorem refines_performAll (path : String) {dimension : Int} (h : Embeds dimension) {calls : List Call}
    (hd : ∀ call ∈ calls, call.Distinct) : ∃ s, (empty path dimension).performAll calls = .ok s ∧
      Refines s (calls.foldl Contents.perform .empty) := by
  obtain ⟨s, hs, hrepresents⟩ := (Represents.empty path h.pos).performAll hd
  exact ⟨s, hs, hrepresents.refines⟩

def sampleModule : IndexDocument :=
  ⟨"file:///w/a.py", "def f", "a.py", "0-0", "1-0", none, ["b.py"]⟩

def sampleFunction : IndexDocument :=
  ⟨"file:///w/a.py#0:0", "def f", "a.py", "0-0", "0-9", some "", []⟩

def sampleOrphan : IndexDocument := ⟨"file:///w/b.py", "x", "b.py", "0-0", "1-0", none, []⟩

/-- The function is saved twice, and a full save keeps neither the module, whose node is gone, nor
the other file. -/
def sampleCalls : List Call :=
  [.save [sampleModule, sampleFunction, sampleOrphan] [] [] .empty true, .reopen,
    .save [{ sampleFunction with content := "def f()" }] [("a.py", ["b.py"])] []
      (Table.empty.put "a.py" ⟨.ofList ["a.py#0:0"], "sha"⟩) false]

theorem refines_performAll_pruned : Embeds 256 ∧ (∀ call ∈ sampleCalls, call.Distinct) ∧
    ∃ s, (empty "/i/graph.json" 256).performAll sampleCalls = .ok s ∧ s.count = 1 ∧
      s.findByPath ["a.py", "b.py"] = [{ sampleFunction with content := "def f()", parent := none }] := by
  have hembeds : Embeds 256 := embeds_of_pos (by decide)
  have hdistinct : ∀ call ∈ sampleCalls, call.Distinct := by
    simp [sampleCalls, Call.Distinct, sampleModule, sampleFunction, sampleOrphan]
  obtain ⟨s, hs, hrefines⟩ := refines_performAll "/i/graph.json" hembeds hdistinct
  have hfound := hrefines.found ["a.py", "b.py"]
  refine ⟨hembeds, hdistinct, s, hs, hrefines.count.trans (by decide), ?_⟩
  exact List.perm_singleton.mp (hfound.trans (.of_eq (by decide)))

end Store

end OutlineIndex
