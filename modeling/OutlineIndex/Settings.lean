import OutlineIndex.Data.Toml.Writer
import OutlineIndex.Digest.Sha1
import OutlineIndex.EmbeddingModel
import OutlineIndex.Settings.Sections
import OutlineIndex.Skeleton.Generator

namespace OutlineIndex

/-- The files of a machine, where a program runs on it, and where and how its settings are kept. -/
structure Environment where
  files : FileTree
  cwd : Path
  home : Path
  baseVariable : Option String
  toml : Toml.Codec

namespace Settings

/-- A leading tilde stands for the home directory. -/
def expandHome (home p : Path) : Path :=
  match p with
  | ⟨.relative, "~" :: rest⟩ => { home with parts := home.parts ++ rest }
  | p => p

def base (env : Environment) : Path :=
  match env.baseVariable with
  | some s => expandHome env.home (Path.ofString s)
  | none => env.home.child ".codeskel"

def file (env : Environment) : Path := (base env).child "config.toml"

def place (env : Environment) (p : Path) : List String := (Path.resolve env.cwd p).parts

/-- The directory of the index of a workspace: its name and the start of the digest of its path. -/
def indexDirectory (env : Environment) (workspace : Path) : Path :=
  let resolved := Path.resolve env.cwd workspace
  let digest := Digest.hex (Digest.sha1 (Utf8.encode resolved.chars))
  let name := if resolved.name = "" then "root" else resolved.name
  ((base env).child "indexes").child (name ++ "-" ++ String.ofList (digest.take 10))

def ensureBase (env : Environment) : Except Failure Environment :=
  match env.files.ensureDirectory (place env ((base env).child "indexes")) with
  | .ok files => .ok { env with files := files }
  | .error e => .error (.file e)

/-- The whole settings file. -/
def load (env : Environment) : Traced Fields :=
  let unreadable (e : Failure) : Traced Fields := do
    Traced.note (.unreadableSettings (file env).toString e)
    return []
  match env.files.read (place env (file env)) with
  | .ok bytes =>
    match env.toml.read? (FileTree.textOf bytes).toList with
    | some fields => return fields
    | none => unreadable .notToml
  | .error .isDirectory => unreadable (.file .isDirectory)
  | .error .nameTooLong => Traced.fail (.file .nameTooLong)
  | .error _ => return []

/-- Writes the whole settings file; the answer says whether that worked. -/
def store (env : Environment) (doc : Fields) : Environment × Traced Bool :=
  let written := do
    let files ← env.files.ensureDirectory (place env (base env))
    files.writeText (place env (file env)) (env.toml.print doc)
  match written with
  | .ok files => ({ env with files := files }, return true)
  | .error e =>
    (env, do
      Traced.note (.unwritableSettings (file env).toString (.file e))
      return false)

/-- Changes the settings file. -/
def modify (env : Environment) (f : Fields → Except Data.Mismatch Fields) : Environment × Traced Bool :=
  let loaded := load env
  match loaded.result with
  | .error e => (env, ⟨.error e, loaded.reports⟩)
  | .ok doc =>
    match f doc with
    | .error e => (env, ⟨.error (.shape e), loaded.reports⟩)
    | .ok doc =>
      let (env, r) := store env doc
      (env, ⟨r.result, loaded.reports ++ r.reports⟩)

/-- A part of the settings file. -/
def part {α : Type} (env : Environment) (f : Fields → Except Data.Mismatch α) : Traced α := do
  let doc ← load env
  Traced.ofExcept ((f doc).mapError .shape)

def llmSettings (env : Environment) : Traced Fields := part env llm

def inclusion (env : Environment) : Traced Data := part env fun doc => do return inclusionOf (← indexer doc)

def exclusion (env : Environment) : Traced (List Data) := part env fun doc => do exclusionOf (← indexer doc)

def embeddingKey (env : Environment) : Traced Data :=
  part env fun doc => do return ((Data.record (← embedding doc)).field? "model").getD .null

/-- The dimension of the embedding to use. Only hashing is at hand; other models are replaced by it,
with a notice. -/
def embeddingDimension (env : Environment) (given : Option String) : Traced Nat := do
  let key ← match given with
    | some k => if k = "" then embeddingKey env else pure (.text k)
    | none => embeddingKey env
  match key.orElse (.text EmbeddingModel.hashing.key) with
  | .list _ => Traced.fail (.shape .notAKey)
  | .record _ => Traced.fail (.shape .notAKey)
  | key =>
    match key.text?.bind EmbeddingModel.find? with
    | none => Traced.note (.unknownEmbedding key.shown)
    | some m => if m.checkpoint.isSome then Traced.note (.missingTransformer m.key) else pure ()
    return EmbeddingModel.hashing.dimension

/-- A name in lower case. -/
def lowered : Data → Traced String
  | .text s => return String.ofList (Text.lower s.toList)
  | _ => Traced.fail (.shape .notText)

def given (s : Option String) : Data := (s.map Data.text).getD .null

/-- The language model for a choice of provider and the like; what is not given comes from the
settings. -/
def languageModel (env : Environment) (model provider key endpoint : Option String) :
    Traced LanguageModel := do
  let fields ← llmSettings env
  let setting (name default : String) : Data := ((Data.record fields).field? name).getD (.text default)
  let name ← lowered ((given provider).orElse (setting "provider" "ollama"))
  return ⟨name, (given model).orElse (setting "model" ""), (given key).orElse (setting "api_key" ""),
    (given endpoint).orElse (setting "endpoint" "")⟩

/-- The generator for a choice of provider and model. -/
def generator (env : Environment) (provider model : Option String) : Traced GeneratorChoice := do
  let chosen ← match given provider with
    | .text s => if s = "" then fromFile else pure (.text s)
    | _ => fromFile
  let name ← lowered chosen
  if name = "none" then return .outline
  let m ← languageModel env model (some name) none none
  return .model m defaultMaxTokens
where
  fromFile : Traced Data := do
    let fields ← llmSettings env
    return ((Data.record fields).field? "provider").getD (.text "none")

end Settings

end OutlineIndex
