import OutlineIndex.Completion.Request
import OutlineIndex.Failure

namespace OutlineIndex

inductive Notice where
  | unreadableFile (path : String) (cause : Failure)
  | skippedNode (node : String)
  | requestFailed (provider : String) (cause : Failure)
  | unreadableSettings (path : String) (cause : Failure)
  | unwritableSettings (path : String) (cause : Failure)
  | unreadableSnapshot (path : String) (cause : Failure)
  | unknownEmbedding (key : String)
  | missingTransformer (key : String)
  | unparsed (cause : Failure)
  | documentFailed (uri : String) (cause : Failure)
  | listenerFailed (path : String) (cause : Failure)
  | deferredListenerFailed (cause : Failure)
  deriving DecidableEq, Repr

namespace Notice

/-- A piece of a notice: words, or a cause to be put in. -/
inductive Piece where
  | words (s : String)
  | cause (f : Failure)

def pieces : Notice → List Piece
  | .unreadableFile p f => [.words ("Could not read " ++ p ++ ": "), .cause f]
  | .skippedNode n => [.words ("Skipping " ++ n ++ ": document is no longer readable")]
  | .requestFailed p f => [.words (p ++ " request failed: "), .cause f]
  | .unreadableSettings p f => [.words ("Ignoring unreadable config " ++ p ++ ": "), .cause f]
  | .unwritableSettings p f => [.words ("Could not write config " ++ p ++ ": "), .cause f]
  | .unreadableSnapshot p f => [.words ("Ignoring unreadable graph snapshot " ++ p ++ ": "), .cause f]
  | .unknownEmbedding k => [.words ("Unknown embedding model '" ++ k ++ "', falling back to hash.")]
  | .missingTransformer k =>
    [.words ("Embedding model '" ++ k ++ "' requires torch + transformers; using hash embeddings. " ++
      "Install with: pip install codeskel[embeddings]")]
  | .unparsed f => [.cause f]
  | .documentFailed u _ => [.words ("Error processing document queue for " ++ u)]
  | .listenerFailed p _ => [.words ("on_file_processing callback failed for " ++ p)]
  | .deferredListenerFailed f => [.words "Progress callback failed: ", .cause f]

/-- Errors carry the failure that led to them; warnings have none. -/
def failure? : Notice → Option Failure
  | .documentFailed _ f => some f
  | .listenerFailed _ f => some f
  | _ => none

/-- The text, with each cause put into words. -/
def text (name : Failure → String) (n : Notice) : String :=
  String.join (n.pieces.map fun
    | .words s => s
    | .cause f => name f)

end Notice

inductive Report where
  | notice (n : Notice)
  | request (r : Request)
  | processing (path : String) (syncing : Bool)
  | removed (path : String)

/-- A result together with what was reported on the way to it. -/
structure Traced (α : Type) where
  result : Except Failure α
  reports : List Report

namespace Traced

def pure {α : Type} (a : α) : Traced α := ⟨.ok a, []⟩

def bind {α β : Type} (x : Traced α) (f : α → Traced β) : Traced β :=
  match x.result with
  | .ok a => ⟨(f a).result, x.reports ++ (f a).reports⟩
  | .error e => ⟨.error e, x.reports⟩

instance : Monad Traced where
  pure := Traced.pure
  bind := Traced.bind

def ofExcept {α : Type} (x : Except Failure α) : Traced α := ⟨x, []⟩

def fail {α : Type} (e : Failure) : Traced α := ⟨.error e, []⟩

def report (r : Report) : Traced Unit := ⟨.ok (), [r]⟩

def note (n : Notice) : Traced Unit := report (.notice n)

end Traced

end OutlineIndex
