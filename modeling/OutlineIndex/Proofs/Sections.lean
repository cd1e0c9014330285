import Mathlib
import OutlineIndex.Proofs.Coding
import OutlineIndex.Proofs.Fields
import OutlineIndex.Proofs.Lookup
import OutlineIndex.Proofs.Results
import OutlineIndex.Settings

namespace OutlineIndex

namespace FileTree

variable {t t' : FileTree} {p : List String}

theorem entry?_set (t : FileTree) (p : List String) (e : Entry) {q : List String} (hq : q ≠ []) :
    FileTree.entry? (t.set p e) q = if q = p then some e else t.entry? q := by
  have hentries : (t.set p e).entries = if t.entries.any (·.1 == p) then
      t.entries.map fun x => if x.1 == p then (p, e) else x else t.entries ++ [(p, e)] := by
    unfold set
    split <;> rfl
  rw [FileTree.entry?, FileTree.entry?, if_neg hq, if_neg hq, hentries]
  exact find?_setEntry t.entries p e q

theorem isFile_set_directory (h : t.entry? p = none) (q : List String) :
    (t.set p .directory).isFile q = t.isFile q := by
  by_cases hq : q = []
  · subst hq
    rfl
  · unfold isFile
    rw [entry?_set t p _ hq]
    by_cases hp : q = p
    · rw [if_pos hp, hp, h]
    · rw [if_neg hp]

/-- Making directories makes and removes no file. -/
theorem isFile_makeDirectory (t : FileTree) (p q : List String) : (t.makeDirectory p).isFile q = t.isFile q := by
  unfold makeDirectory
  induction ancestors p ++ [p] generalizing t with
  | nil => rfl
  | cons a rest ih =>
    rw [List.foldl_cons, ih]
    split
    · rfl
    · rename_i hnone
      have hentry : ¬a = [] ∧ t.entry? a = none := by simpa using hnone
      exact isFile_set_directory hentry.2 q

theorem isSome_entry?_set (t : FileTree) (p : List String) (e : Entry) {q : List String}
    (hq : (t.entry? q).isSome) : (FileTree.entry? (t.set p e) q).isSome := by
  by_cases hnil : q = []
  · rw [hnil]
    rfl
  · rw [entry?_set t p e hnil]
    split
    · rfl
    · exact hq

/-- What is on the way to a directory that has been made is there. -/
theorem isSome_entry?_makeDirectory (t : FileTree) {p q : List String} (h : q <+: p) :
    (FileTree.entry? (t.makeDirectory p) q).isSome := by
  have hmem : q ∈ ancestors p ++ [p] := by
    rcases h.length_le.lt_or_eq with hlt | heq
    · refine List.mem_append_left _ (List.mem_map.mpr ⟨q.length, List.mem_range.mpr hlt, ?_⟩)
      exact (List.prefix_iff_eq_take.mp h).symm
    · exact List.mem_append_right _ (List.mem_singleton.mpr (h.eq_of_length heq))
  have hrun : ∀ (qs : List (List String)) (t : FileTree), q ∈ qs ∨ (t.entry? q).isSome →
      (FileTree.entry? (qs.foldl (fun t q => if q = [] || (t.entry? q).isSome then t else t.set q .directory) t)
        q).isSome := by
    intro qs
    induction qs with
    | nil => exact fun t h => h.resolve_left List.not_mem_nil
    | cons a rest ih =>
      intro t h
      rw [List.foldl_cons]
      refine ih _ ?_
      rcases h with h | h
      · rcases List.mem_cons.mp h with rfl | h
        · right
          split
          · rename_i hthere
            rcases Bool.or_eq_true _ _ ▸ hthere with hnil | hsome
            · rw [of_decide_eq_true hnil]
              rfl
            · exact hsome
          · rename_i hnew
            have hne : q ≠ [] := fun e => hnew (by simp [e])
            rw [entry?_set t q _ hne, if_pos rfl]
            rfl
        · exact .inl h
      · right
        split
        · exact h
        · exact isSome_entry?_set t a _ h
  exact hrun _ t (.inl hmem)

/-- A file that has been written is read. -/
theorem read_write {p : Path} (hp : p.Resolved) {bytes : List UInt8} (h : t.write p.parts bytes = .ok t') :
    t'.read p.parts = .ok bytes := by
  obtain ⟨anchor, p⟩ := p
  obtain rfl : anchor = .root := hp.anchor
  unfold write at h
  split at h
  · cases h
  rename_i hplain
  split at h
  · cases h
  rename_i hfile
  split at h
  · cases h
  rename_i hshort
  cases h
  have hne : p ≠ [] := by
    rintro rfl
    exact hfile rfl
  have hsize : (Utf8.encode (Path.chars ⟨.root, p⟩)).length ≤ maxPath ∧
      ∀ c ∈ p, c.utf8ByteSize ≤ maxName := by
    simpa [overlong] using hshort
  have hreaches : Reaches ((t.makeDirectory p.dropLast).set p (.file bytes)) p (.file bytes) := by
    refine ⟨hsize.2, fun q hq hqp => ?_, by rw [entry?_set _ _ _ hne, if_pos rfl]⟩
    by_cases hnil : q = []
    · rw [hnil]
      rfl
    have hlt : q.length < p.length := lt_of_le_of_ne hq.length_le fun e => hqp (hq.eq_of_length e)
    have hbelow : q <+: p.dropLast := by
      rw [List.dropLast_eq_take]
      exact List.prefix_take_iff.mpr ⟨hq, by omega⟩
    have hmem : q ∈ ancestors p :=
      List.mem_map.mpr ⟨q.length, List.mem_range.mpr hlt, (List.prefix_iff_eq_take.mp hq).symm⟩
    have hnot : ¬(t.makeDirectory p.dropLast).isFile q = true := by
      rw [isFile_makeDirectory]
      exact fun hisFile => hplain (List.any_eq_true.mpr ⟨q, hmem, hisFile⟩)
    rw [entry?_set _ _ _ hnil, if_neg hqp]
    obtain ⟨e, he⟩ := Option.isSome_iff_exists.mp (isSome_entry?_makeDirectory t hbelow)
    cases e with
    | directory => exact he
    | file bytes => exact absurd (by rw [isFile, he]) hnot
  rw [read, hreaches.status hp hsize.1]
  rfl

end FileTree

namespace Toml

/-- The table of some texts. -/
def textTable (texts : List (String × String)) : Fields := texts.map fun e => (e.1, .text e.2)

theorem bodyText_textTable (n : Nat) (name : String) (texts : List (String × String)) :
    bodyText (n + 1) name (textTable texts) = plainText (textTable texts) := by
  have harrays : arraysText n name (textTable texts) = "" := by
    cases n with
    | zero => rfl
    | succ n =>
      rw [arraysText, textTable, List.map_map]
      induction texts with
      | nil => rfl
      | cons e rest ih => simpa [String.join_cons] using ih
  rw [bodyText, harrays, String.append_empty]

/-- A record of one table of texts is written as the heading of the table and a line for each text. -/
theorem print_textTable (name : String) (texts : List (String × String)) :
    print [(name, .record (textTable texts))] = "[" ++ keyText name ++ "]\n" ++ plainText (textTable texts) := by
  have hsections : sectionsOf (textTable texts) = [] := by
    simp [textTable, sectionsOf, List.filterMap_map]
  have hbody : ∀ n, bodyText n "" [(name, .record (textTable texts))] = "" := by
    intro n
    match n with
    | 0 => rfl
    | 1 => rfl
    | n + 2 => rfl
  have hlevel : sectionsOf [(name, .record (textTable texts))] = [(keyText name, textTable texts)] := rfl
  rw [print, hbody, hlevel]
  simp [levelsText, sectionText, separator, hsections, bodyText_textTable]

end Toml

namespace Settings

open Data (meaning)

/-- The arguments of a save of the language model. -/
structure Choice where
  provider : String
  model : String
  key : String
  endpoint : String

/-- A text, unless it is empty. -/
def unlessEmpty (s : String) : Option Data := if s = "" then none else some (.text s)

/-- What a choice says of a field; empty texts say nothing, but for the provider. -/
def Choice.value? (c : Choice) (k : String) : Option Data :=
  if k = "provider" then some (.text c.provider)
  else if k = "model" then unlessEmpty c.model
  else if k = "api_key" then unlessEmpty c.key
  else if k = "endpoint" then unlessEmpty c.endpoint
  else none

inductive Part where
  | llm
  | indexer
  | embedding
  deriving DecidableEq

/-- The heading of a section. -/
def Part.name : Part → String
  | .llm => "llm"
  | .indexer => "indexer"
  | .embedding => "embeddings"

/-- A section of a record over its defaults. -/
def Part.read : Part → Fields → Except Data.Mismatch Fields
  | .llm => Settings.llm
  | .indexer => Settings.indexer
  | .embedding => Settings.embedding

/-- What a section of the settings file loads as. -/
def Part.load (env : Environment) (p : Part) : Traced Fields := part env p.read

inductive Save where
  | llm (c : Choice)
  | indexer (values : Table Data)
  | embedding (model : String)

namespace Save

def part : Save → Part
  | .llm _ => .llm
  | .indexer _ => .indexer
  | .embedding _ => .embedding

def change : Save → Fields → Except Data.Mismatch Fields
  | .llm c, doc => .ok (withLlm doc c.provider c.model c.key c.endpoint)
  | .indexer values, doc => withIndexer doc values.entries
  | .embedding model, doc => .ok (withEmbedding doc model)

/-- The environment after a save, and whether the file could be written. -/
def run (s : Save) (env : Environment) : Environment × Traced Bool := modify env s.change

/-- The record that a save writes. -/
def document? (s : Save) (env : Environment) : Option Fields :=
  match (Settings.load env).result with
  | .ok doc => (s.change doc).toOption
  | .error _ => none

def choice? : Save → Option Choice
  | .llm c => some c
  | _ => none

/-- The value that a save gives for a field of the choice of files. -/
def filter? (k : String) : Save → Option Data
  | .indexer values => (values.find? k).filter fun
    | .null => false
    | _ => true
  | _ => none

def model? : Save → Option String
  | .embedding model => some model
  | _ => none

end Save

/-- The environment after some saves. -/
def runAll (env : Environment) : List Save → Environment
  | [] => env
  | s :: rest => runAll (s.run env).1 rest

/-- All writes succeed. -/
def Succeed (env : Environment) : List Save → Prop
  | [] => True
  | s :: rest => (s.run env).2.result = .ok true ∧ Succeed (s.run env).1 rest

/-- The records that some saves write, each in its turn. -/
def written (env : Environment) : List Save → List Fields
  | [] => []
  | s :: rest => (s.document? env).toList ++ written (s.run env).1 rest

/-- Reading what is written of a record gives the same dictionary. -/
def ReadsBack (toml : Toml.Codec) (doc : Fields) : Prop :=
  ∃ doc', toml.read? (FileTree.textOf (Utf8.encode (toml.print doc).toList)).toList = some doc' ∧
    (Data.record doc').meaning = (Data.record doc).meaning

/-- There is no settings file. -/
def Absent (env : Environment) : Prop :=
  env.files.read (place env (file env)) = .error .notFound ∨
    env.files.read (place env (file env)) = .error .notADirectory

/-- What the saves so far say of a field of a section. -/
def latest (calls : List Save) : Part → String → Option Data
  | .llm, k => (calls.reverse.findSome? Save.choice?).bind (·.value? k)
  | .indexer, k => calls.reverse.findSome? (Save.filter? k)
  | .embedding, k => if k = "model" then (calls.reverse.findSome? Save.model?).map .text else none

/-- The defaults of a section after some saves. -/
def defaults (calls : List Save) : Part → Fields
  | .llm => providerDefaults (((calls.reverse.findSome? Save.choice?).map (·.provider)).getD "none")
  | .indexer => indexerDefaults
  | .embedding => embeddingDefaults

/-- The fields are a dictionary with these values. -/
def Shows (fields : Fields) (value? : String → Option Data) : Prop :=
  ∀ k, (look fields k).map meaning = (value? k).map meaning

theorem Shows.eq_text {fields : Fields} {value? : String → Option Data} (h : Shows fields value?) {k s : String}
    (hk : value? k = some (.text s)) : look fields k = some (.text s) := by
  have hmeaning := h k
  rw [hk] at hmeaning
  obtain ⟨v, hv, hsame⟩ := Option.map_eq_some_iff.mp hmeaning
  rw [hv, Data.eq_text_of_meaning hsame]

theorem Shows.eq_none {fields : Fields} {value? : String → Option Data} (h : Shows fields value?) {k : String}
    (hk : value? k = none) : look fields k = none := by
  have hmeaning := h k
  rw [hk] at hmeaning
  exact Option.map_eq_none_iff.mp hmeaning

/-- Laid over others, fields show what they have and else what the others have. -/
theorem Shows.overlay {fields : Fields} {value? : String → Option Data} (h : Shows fields value?)
    (hnodup : (fields.map (·.1)).Nodup) (base : Fields) :
    Shows (Data.overlay base fields) fun k => (value? k).or (look base k) := by
  intro k
  rw [look_overlay base hnodup, Option.map_or, Option.map_or, h k]

/-- Every section of a record says what the saves so far have said. -/
def Represents (doc : Fields) (calls : List Save) : Prop :=
  ∀ p : Part, ∃ fields, sectionOf doc p.name = .record fields ∧ (fields.map (·.1)).Nodup ∧
    Shows fields (latest calls p)

theorem represents_nil : Represents [] [] := by
  intro p
  refine ⟨[], rfl, .nil, fun k => ?_⟩
  cases p with
  | llm => rfl
  | indexer => rfl
  | embedding =>
    simp only [latest, List.reverse_nil, List.findSome?_nil, Option.map_none, ite_self]
    rfl

theorem sectionOf_putField (doc : Fields) (name : String) (v : Data) (name' : String) :
    sectionOf (Data.putField doc name v) name' = if name' = name then v else sectionOf doc name' := by
  have hlook : ∀ fields, sectionOf fields name' = (look fields name').getD (.record []) := fun _ => rfl
  rw [hlook, hlook, look_putField]
  split <;> rfl

/-- Records that mean the same say the same. -/
theorem Represents.of_meaning {doc doc' : Fields} {calls : List Save} (h : Represents doc calls)
    (hsame : (Data.record doc').meaning = (Data.record doc).meaning) : Represents doc' calls := by
  obtain ⟨fields', hrecord, -, hlook⟩ := record_of_meaning hsame
  cases hrecord
  intro p
  obtain ⟨fields, hfields, hnodup, hshows⟩ := h p
  have hsection : ∀ d, sectionOf d p.name = (look d p.name).getD (.record []) := fun _ => rfl
  have hname := hlook p.name
  rw [hsection] at hfields
  cases hdoc : look doc p.name with
  | none =>
    rw [hdoc] at hname hfields
    have hnone := Option.map_eq_none_iff.mp hname
    exact ⟨fields, by rw [hsection, hnone]; exact hfields, hnodup, hshows⟩
  | some v =>
    rw [hdoc] at hname hfields
    obtain rfl : v = .record fields := hfields
    obtain ⟨v', hv', hmeaning⟩ := Option.map_eq_some_iff.mp hname
    obtain ⟨fields', rfl, hperm, hfields'⟩ := record_of_meaning hmeaning
    refine ⟨fields', by rw [hsection, hv']; rfl, hperm.nodup_iff.mpr hnodup, fun k => ?_⟩
    rw [hfields' k, hshows k]

section Latest

variable (calls : List Save)

/-- A save says nothing of other sections than its own. -/
theorem latest_append_of_ne {s : Save} {p : Part} (h : p ≠ s.part) :
    latest (calls ++ [s]) p = latest calls p := by
  funext k
  cases s <;> cases p <;> first
    | exact absurd rfl h
    | (simp only [latest, List.reverse_append, List.reverse_singleton, List.singleton_append]
       rfl)

theorem latest_append_llm (c : Choice) : latest (calls ++ [.llm c]) .llm = c.value? := by
  funext k
  simp only [latest, List.reverse_append, List.reverse_singleton, List.singleton_append]
  rfl

theorem latest_append_indexer (values : Table Data) (k : String) :
    latest (calls ++ [.indexer values]) .indexer k =
      (Save.filter? k (.indexer values)).or (latest calls .indexer k) := by
  simp only [latest, List.reverse_append, List.reverse_singleton, List.singleton_append, List.findSome?_cons]
  cases Save.filter? k (.indexer values) <;> rfl

theorem latest_append_embedding (model k : String) :
    latest (calls ++ [.embedding model]) .embedding k = look [("model", .text model)] k := by
  simp only [latest, List.reverse_append, List.reverse_singleton, List.singleton_append, look_cons]
  rfl

end Latest

/-- Fields for those of some texts that are not empty. -/
def filled (texts : List (String × String)) : Fields :=
  (texts.filter (·.2 ≠ "")).map fun e => (e.1, .text e.2)

theorem names_filled (texts : List (String × String)) :
    ((filled texts).map (·.1)).Sublist (texts.map (·.1)) := by
  rw [filled, List.map_map]
  exact List.filter_sublist.map _

theorem look_filled {name : String} {texts : List (String × String)} (h : name ∉ texts.map (·.1))
    (s k : String) : look (filled ((name, s) :: texts)) k =
      if k = name then unlessEmpty s else look (filled texts) k := by
  by_cases hs : s = ""
  · have hnone : look (filled texts) name = none :=
      look_eq_none_iff.mpr fun hmem => h ((names_filled texts).mem hmem)
    have hskip : filled ((name, s) :: texts) = filled texts := by simp [filled, hs]
    rw [hskip]
    split
    · rename_i hk
      rw [hk, hnone, unlessEmpty, if_pos hs]
    · rfl
  · have htake : filled ((name, s) :: texts) = (name, .text s) :: filled texts := by simp [filled, hs]
    rw [htake, look_cons, unlessEmpty, if_neg hs]

theorem look_choice (c : Choice) (k : String) :
    look (("provider", .text c.provider) ::
      filled [("model", c.model), ("api_key", c.key), ("endpoint", c.endpoint)]) k = c.value? k := by
  rw [look_cons, look_filled (by simp), look_filled (by simp), look_filled (by simp)]
  rfl

/-- A save sets its own section, to what the saves with it say. -/
theorem Represents.change_eq {doc : Fields} {calls : List Save} (h : Represents doc calls) (s : Save) :
    ∃ fields, s.change doc = .ok (Data.putField doc s.part.name (.record fields)) ∧
      (fields.map (·.1)).Nodup ∧ Shows fields (latest (calls ++ [s]) s.part) := by
  cases s with
  | llm c =>
    refine ⟨_ :: filled _, rfl, ?_, fun k => ?_⟩
    · have hnames : (["provider", "model", "api_key", "endpoint"] : List String).Nodup := by decide
      exact hnames.sublist ((names_filled _).cons_cons _)
    · rw [look_choice, Save.part, latest_append_llm]
  | indexer values =>
    obtain ⟨fields, hfields, hnodup, hshows⟩ := h .indexer
    let notNull : String → Data → Bool := fun _ v => match v with
      | .null => false
      | _ => true
    refine ⟨Data.overlay fields (values.filter notNull).entries, ?_, nodup_overlay hnodup _, fun k => ?_⟩
    · rw [Save.change, withIndexer, show sectionOf doc "indexer" = .record fields from hfields]
      rfl
    · have hfilter : look (values.filter notNull).entries k = Save.filter? k (.indexer values) :=
        Table.find?_filter values notNull k
      rw [look_overlay _ (values.filter notNull).distinct, hfilter, Save.part, latest_append_indexer,
        Option.map_or, Option.map_or, hshows k]
  | embedding model =>
    refine ⟨[("model", .text model)], rfl, by simp, fun k => ?_⟩
    rw [Save.part, latest_append_embedding]

theorem Represents.change {doc : Fields} {calls : List Save} (h : Represents doc calls) (s : Save) :
    ∃ doc', s.change doc = .ok doc' ∧ Represents doc' (calls ++ [s]) := by
  obtain ⟨fields, hchange, hnodup, hshows⟩ := h.change_eq s
  refine ⟨_, hchange, fun p => ?_⟩
  by_cases hp : p = s.part
  · subst hp
    exact ⟨fields, by rw [sectionOf_putField, if_pos rfl], hnodup, hshows⟩
  · obtain ⟨old, hold, hrest⟩ := h p
    have hname : p.name ≠ s.part.name := fun e => hp (by
      revert e
      generalize s.part = q
      cases p <;> cases q <;> decide)
    rw [latest_append_of_ne calls hp]
    exact ⟨old, by rw [sectionOf_putField, if_neg hname, hold], hrest⟩

/-- A section is read as what the saves say over its defaults. -/
theorem Represents.read {doc : Fields} {calls : List Save} (h : Represents doc calls) (p : Part) :
    ∃ fields, p.read doc = .ok fields ∧
      Shows fields fun k => (latest calls p k).or (look (defaults calls p) k) := by
  obtain ⟨fields, hfields, hnodup, hshows⟩ := h p
  refine ⟨Data.overlay (defaults calls p) fields, ?_, hshows.overlay hnodup _⟩
  cases p with
  | llm =>
    have hprovider : providerOf ((look fields "provider").getD (.text "none")) = .ok (defaults calls .llm) := by
      cases hchoice : calls.reverse.findSome? Save.choice? with
      | none =>
        have hnone := hshows.eq_none (k := "provider") (by simp [latest, hchoice])
        simp [hnone, defaults, hchoice, providerOf]
      | some c =>
        have htext := hshows.eq_text (k := "provider") (s := c.provider) (by simp [latest, hchoice, Choice.value?])
        simp [htext, defaults, hchoice, providerOf]
    rw [Part.read, Settings.llm, show sectionOf doc "llm" = .record fields from hfields]
    change (providerOf ((look fields "provider").getD (.text "none")) >>= _) = _
    rw [hprovider]
    rfl
  | indexer =>
    rw [Part.read, Settings.indexer, show sectionOf doc "indexer" = .record fields from hfields]
    rfl
  | embedding =>
    rw [Part.read, Settings.embedding, show sectionOf doc "embeddings" = .record fields from hfields]
    rfl

section Files

variable {env : Environment}

theorem load_of_absent (h : Absent env) : load env = pure [] := by
  unfold load
  rcases h with h | h <;> rw [h]

/-- A save leaves the way in which settings are written. -/
theorem toml_run (s : Save) (env : Environment) : (s.run env).1.toml = env.toml := by
  unfold Save.run modify
  dsimp only
  split
  · rfl
  split
  · rfl
  unfold store
  dsimp only
  split <;> rfl

/-- A save that succeeds leaves a file that reads as the record it has written. -/
theorem load_run {s : Save} {doc doc' : Fields} (hload : load env = pure doc) (hchange : s.change doc = .ok doc')
    (hsuccess : (s.run env).2.result = .ok true) (hback : ReadsBack env.toml doc') :
    ∃ again, load (s.run env).1 = pure again ∧ (Data.record again).meaning = (Data.record doc').meaning := by
  have hrun : s.run env = ((store env doc').1, ⟨(store env doc').2.result, [] ++ (store env doc').2.reports⟩) := by
    rw [Save.run, modify, hload]
    simp only [pure, Traced.pure, hchange]
  obtain ⟨again, hagain, hmeaning⟩ := hback
  refine ⟨again, ?_, hmeaning⟩
  rw [hrun] at hsuccess ⊢
  dsimp only at hsuccess ⊢
  unfold store at hsuccess ⊢
  dsimp only at hsuccess ⊢
  split at hsuccess
  · rename_i files hwritten
    obtain ⟨_, -, hwrite⟩ := Results.bind_eq_ok.mp hwritten
    have hread : files.read (place env (file env)) = .ok (Utf8.encode (env.toml.print doc').toList) :=
      FileTree.read_write (Path.resolved_resolve _ _) hwrite
    change load { env with files := files } = pure again
    unfold load
    rw [show ({ env with files := files } : Environment).files.read (place { env with files := files }
      (file { env with files := files })) = .ok (Utf8.encode (env.toml.print doc').toList) from hread]
    simp only [hagain]
  · cases hsuccess

end Files

section Saves

variable {env : Environment} {calls : List Save}

/-- A run of saves that succeed leaves a file that says what they and the saves before have said. -/
theorem represents_runAll {past : List Save} {doc : Fields} (hload : load env = pure doc)
    (hdoc : Represents doc past) (hsucceed : Succeed env calls) (hback : ∀ d ∈ written env calls, ReadsBack env.toml d) :
    ∃ doc', load (runAll env calls) = pure doc' ∧ Represents doc' (past ++ calls) := by
  induction calls generalizing env past doc with
  | nil => exact ⟨doc, hload, by rwa [List.append_nil]⟩
  | cons s rest ih =>
    obtain ⟨doc', hchange, hdoc'⟩ := hdoc.change s
    have hdocument : s.document? env = some doc' := by
      rw [Save.document?, hload]
      simp only [pure, Traced.pure, hchange]
      rfl
    have hmem : ∀ d, d ∈ written env (s :: rest) ↔ d = doc' ∨ d ∈ written (s.run env).1 rest := by
      intro d
      rw [written, hdocument, Option.toList_some, List.singleton_append, List.mem_cons]
    obtain ⟨again, hagain, hmeaning⟩ := load_run hload hchange hsucceed.1 (hback doc' ((hmem doc').mpr (.inl rfl)))
    obtain ⟨last, hlast, hrepresents⟩ := ih hagain (hdoc'.of_meaning hmeaning) hsucceed.2 fun d hd => by
      rw [toml_run]
      exact hback d ((hmem d).mpr (.inr hd))
    exact ⟨last, hlast, by rwa [List.append_assoc] at hrepresents⟩

theorem load_part {doc : Fields} (hload : load env = pure doc) {p : Part} {fields : Fields}
    (hread : p.read doc = .ok fields) : p.load env = pure fields := by
  rw [Part.load, part, hload]
  change (⟨((p.read doc).mapError .shape), _⟩ : Traced Fields) = _
  rw [hread]
  rfl

theorem shows_load (habsent : Absent env) (hsucceed : Succeed env calls)
    (hback : ∀ d ∈ written env calls, ReadsBack env.toml d) (p : Part) :
    ∃ fields, p.load (runAll env calls) = pure fields ∧
      Shows fields fun k => (latest calls p k).or (look (defaults calls p) k) := by
  obtain ⟨doc, hload, hdoc⟩ := represents_runAll (load_of_absent habsent) represents_nil hsucceed hback
  rw [List.nil_append] at hdoc
  obtain ⟨fields, hread, hshows⟩ := hdoc.read p
  exact ⟨fields, load_part hload hread, hshows⟩

theorem defaults_append_of_ne {s : Save} {p : Part} (h : p ≠ s.part) :
    defaults (calls ++ [s]) p = defaults calls p := by
  cases s <;> cases p <;> first
    | exact absurd rfl h
    | (simp only [defaults, List.reverse_append, List.reverse_singleton, List.singleton_append]
       rfl)
    | rfl

theorem succeed_append {rest : List Save} (h : Succeed env (calls ++ rest)) : Succeed env calls := by
  induction calls generalizing env with
  | nil => exact trivial
  | cons s calls ih => exact ⟨h.1, ih h.2⟩

theorem written_append (env : Environment) (calls rest : List Save) :
    written env (calls ++ rest) = written env calls ++ written (runAll env calls) rest := by
  induction calls generalizing env with
  | nil => rfl
  | cons s calls ih => rw [List.cons_append, written, written, ih, List.append_assoc, runAll]

/-- From no settings file, and as far as written records read back as the same dictionaries, each section
loads as the last saves of that section say, over its defaults, and a save leaves the other sections. -/
theorem loads_of_saves (habsent : Absent env) (hsucceed : Succeed env calls)
    (hback : ∀ d ∈ written env calls, ReadsBack env.toml d) :
    (∀ p : Part, ∃ fields, p.load (runAll env calls) = pure fields ∧
      Shows fields fun k => (latest calls p k).or (look (defaults calls p) k)) ∧
    ∀ (before : List Save) (s : Save), calls = before ++ [s] → ∀ p : Part, p ≠ s.part →
      ∃ old new, p.load (runAll env before) = pure old ∧ p.load (runAll env calls) = pure new ∧
        Shows new (look old) := by
  refine ⟨shows_load habsent hsucceed hback, ?_⟩
  rintro before s rfl p hp
  obtain ⟨new, hnew, hshows⟩ := shows_load habsent hsucceed hback p
  obtain ⟨old, hold, hshows'⟩ := shows_load habsent (succeed_append hsucceed)
    (fun d hd => hback d (by rw [written_append]; exact List.mem_append_left _ hd)) p
  refine ⟨old, new, hold, hnew, fun k => ?_⟩
  rw [hshows k, hshows' k, latest_append_of_ne before hp, defaults_append_of_ne hp]

end Saves

section Machine

/-- A machine with no files, or with none but the settings. -/
def machine (text? : Option String) : Environment where
  files := ⟨match text? with
    | none => []
    | some text => [([".codeskel"], .directory), ([".codeskel", "config.toml"], .file (Utf8.encode text.toList))]⟩
  cwd := ⟨.root, []⟩
  home := ⟨.root, []⟩
  baseVariable := none
  toml := .standard

theorem absent_machine : Absent (machine none) := .inl rfl

theorem run_machine {text? : Option String} {s : Save} {doc doc' : Fields} (hload : load (machine text?) = pure doc)
    (hchange : s.change doc = .ok doc') : s.run (machine text?) = (machine (some (Toml.print doc')), pure true) := by
  have hstore : store (machine text?) doc' = (machine (some (Toml.print doc')), pure true) := by
    cases text? <;> rfl
  rw [Save.run, modify, hload]
  simp only [pure, Traced.pure, hchange, hstore]
  rfl

theorem load_machine {doc : Fields} {text : String}
    (h : Toml.read? (FileTree.textOf (Utf8.encode text.toList)).toList = some doc) :
    load (machine (some text)) = pure doc := by
  have hread : (machine (some text)).files.read (place (machine (some text)) (file (machine (some text)))) =
      .ok (Utf8.encode text.toList) := rfl
  have htoml : (machine (some text)).toml.read? = Toml.read? := rfl
  unfold load
  rw [hread]
  simp only [htoml, h]

theorem readsBack_standard {doc : Fields}
    (h : Toml.read? (FileTree.textOf (Utf8.encode (Toml.print doc).toList)).toList = some doc) :
    ReadsBack .standard doc := by
  have hread : Toml.Codec.standard.read? = Toml.read? := rfl
  have hprint : Toml.Codec.standard.print = Toml.print := rfl
  exact ⟨doc, by rw [hread, hprint, h], rfl⟩

/-- A key for one provider, and then another provider without a key. -/
def switched : List Save := [.llm ⟨"openai", "", "k", ""⟩, .llm ⟨"groq", "", "", ""⟩]

/-- The key of the first provider is not taken for the second. -/
theorem loads_of_saves_switched : Absent (machine none) ∧ Succeed (machine none) switched ∧
    (∀ d ∈ written (machine none) switched, ReadsBack .standard d) ∧
    ∃ fields, Part.llm.load (runAll (machine none) switched) = pure fields ∧
      look fields "provider" = some (.text "groq") ∧ look fields "api_key" = some (.text "") := by
  let first : Fields := [("llm", .record (Toml.textTable [("provider", "openai"), ("api_key", "k")]))]
  let second : Fields := [("llm", .record (Toml.textTable [("provider", "groq")]))]
  have hfirst : Toml.read? (FileTree.textOf (Utf8.encode (Toml.print first).toList)).toList = some first := by
    rw [Toml.print_textTable]
    cbv
  have hsecond : Toml.read? (FileTree.textOf (Utf8.encode (Toml.print second).toList)).toList = some second := by
    rw [Toml.print_textTable]
    cbv
  have hload := load_of_absent absent_machine
  have hload' := load_machine hfirst
  have hrun : (Save.llm ⟨"openai", "", "k", ""⟩).run (machine none) =
      (machine (some (Toml.print first)), pure true) := run_machine hload rfl
  have hrun' : (Save.llm ⟨"groq", "", "", ""⟩).run (machine (some (Toml.print first))) =
      (machine (some (Toml.print second)), pure true) := run_machine hload' rfl
  have hsucceed : Succeed (machine none) switched := by
    rw [switched, Succeed, Succeed, Succeed, hrun, hrun']
    exact ⟨rfl, rfl, trivial⟩
  have hwritten : written (machine none) switched = [first, second] := by
    rw [switched, written, written, written, hrun, Save.document?, Save.document?, hload, hload']
    rfl
  have hback : ∀ d ∈ written (machine none) switched, ReadsBack .standard d := by
    rw [hwritten]
    intro d hd
    obtain rfl | rfl := List.mem_pair.mp hd
    · exact readsBack_standard hfirst
    · exact readsBack_standard hsecond
  obtain ⟨fields, hfields, hshows⟩ := (loads_of_saves absent_machine hsucceed hback).1 .llm
  exact ⟨absent_machine, hsucceed, hback, fields, hfields, hshows.eq_text rfl, hshows.eq_text rfl⟩

end Machine

end Settings

end OutlineIndex
