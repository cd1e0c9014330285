import OutlineIndex.Data
import OutlineIndex.Text.Blank
import OutlineIndex.Text.Lines

namespace OutlineIndex.Settings

abbrev Fields := List (String × Data)

/-- The defaults of each known provider. -/
def providers : List (String × Fields) :=
  let of (name model : String) (rest : Fields) : String × Fields :=
    (name, [("provider", .text name), ("model", .text model)] ++ rest)
  [of "none" "" [],
    of "ollama" "qwen2.5-coder:7b" [("endpoint", .text "http://127.0.0.1:11434/api/generate")],
    of "openai" "gpt-4o-mini"
      [("api_key", .text ""), ("endpoint", .text "https://api.openai.com/v1/chat/completions")],
    of "anthropic" "claude-3-5-haiku-latest" [("api_key", .text "")],
    of "groq" "llama-3.3-70b-versatile" [("api_key", .text "")]]

def noProvider : Fields := [("provider", .text "none"), ("model", .text "")]

/-- An unknown provider has the defaults of none. -/
def providerDefaults (name : String) : Fields :=
  ((providers.find? (·.1 == name)).map (·.2)).getD noProvider

def indexerDefaults : Fields :=
  [("inclusion_filter", .text "**/*.py"),
    ("exclusion_filter", .list ([".git/", ".venv/", "venv/", "__pycache__/", "node_modules/", "build/",
      "dist/", ".tox/", ".mypy_cache/", ".pytest_cache/"].map .text))]

def embeddingDefaults : Fields := [("model", .text "hash")]

/-- A section of the settings; one that is missing is empty. -/
def sectionOf (doc : Fields) (name : String) : Data :=
  ((Data.record doc).field? name).getD (.record [])

/-- A pair of a name and a value. -/
def pairOf (v : Data) : Except Data.Mismatch (String × Data) :=
  match v.members with
  | .ok [.text k, w] => .ok (k, w)
  | .ok [_, _] => .error .notAKey
  | .ok _ => .error .notAPair
  | .error e => .error e

/-- Fields laid over others; besides a record this may be a list of pairs. -/
def layOver (base : Fields) (v : Data) : Except Data.Mismatch Fields :=
  match v with
  | .record fields => .ok (Data.overlay base fields)
  | v => do return Data.overlay base (← (← v.members).mapM pairOf)

/-- The defaults of a provider given as a value. -/
def providerOf : Data → Except Data.Mismatch Fields
  | .text name => .ok (providerDefaults name)
  | .list _ => .error .notAKey
  | .record _ => .error .notAKey
  | _ => .ok noProvider

/-- The section of the language model over the defaults of the provider it names. -/
def llm (doc : Fields) : Except Data.Mismatch Fields :=
  match sectionOf doc "llm" with
  | .record fields => do
    let defaults ← providerOf (((Data.record fields).field? "provider").getD (.text "none"))
    return Data.overlay defaults fields
  | _ => .error .notARecord

def indexer (doc : Fields) : Except Data.Mismatch Fields :=
  layOver indexerDefaults (sectionOf doc "indexer")

def embedding (doc : Fields) : Except Data.Mismatch Fields :=
  layOver embeddingDefaults (sectionOf doc "embeddings")

/-- Replaces the section of the language model; empty texts are left out. -/
def withLlm (doc : Fields) (provider model key endpoint : String) : Fields :=
  let given := [("model", model), ("api_key", key), ("endpoint", endpoint)].filter (·.2 ≠ "")
  Data.putField doc "llm"
    (.record (("provider", .text provider) :: given.map fun e => (e.1, .text e.2)))

/-- Sets fields of the section for the choice of files; null values are left out. -/
def withIndexer (doc : Fields) (values : Fields) : Except Data.Mismatch Fields :=
  let given := values.filter fun e => match e.2 with
    | .null => false
    | _ => true
  match sectionOf doc "indexer" with
  | .record fields => .ok (Data.putField doc "indexer" (.record (Data.overlay fields given)))
  | _ => .error .notARecord

def withEmbedding (doc : Fields) (model : String) : Fields :=
  Data.putField doc "embeddings" (.record [("model", .text model)])

/-- The exclusion rules: the lines of a text that are not blank, or the members of a list. -/
def exclusionOf (fields : Fields) : Except Data.Mismatch (List Data) :=
  match ((Data.record fields).field? "exclusion_filter").getD .null with
  | .text s =>
    .ok (((Text.lines s.toList).filter (!Text.blank ·)).map fun l => .text (String.ofList l))
  | v => v.members

def inclusionOf (fields : Fields) : Data := ((Data.record fields).field? "inclusion_filter").getD .null

end OutlineIndex.Settings
