import OutlineIndex.Failure

namespace OutlineIndex

structure EmbeddingModel where
  key : String
  checkpoint : Option String
  dimension : Nat
  maxTokens : Option Nat
  remoteCode : Bool
  deriving DecidableEq, Repr

namespace EmbeddingModel

def hashing : EmbeddingModel := ⟨"hash", none, 256, none, false⟩

def all : List EmbeddingModel :=
  [⟨"jina-code", some "jinaai/jina-embeddings-v2-base-code", 768, some 8192, true⟩,
    ⟨"minilm", some "sentence-transformers/all-MiniLM-L6-v2", 384, some 256, false⟩,
    hashing]

def find? (key : String) : Option EmbeddingModel := all.find? (·.key == key)

/-- A model with weights to load, by its key. -/
structure Transformer where
  key : String
  checkpoint : String
  dimension : Nat
  maxTokens : Option Nat
  remoteCode : Bool
  deriving DecidableEq, Repr

def transformer (key : String) : Except Failure Transformer :=
  match find? key with
  | some m =>
    match m.checkpoint with
    | some c => .ok ⟨m.key, c, m.dimension, m.maxTokens, m.remoteCode⟩
    | none => .error (.noTransformer key)
  | none => .error (.noTransformer key)

end EmbeddingModel

end OutlineIndex
