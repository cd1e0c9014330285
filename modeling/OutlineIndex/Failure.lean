import OutlineIndex.CodeMap
import OutlineIndex.Data.Json
import OutlineIndex.Embedding
import OutlineIndex.FileFilter

namespace OutlineIndex

inductive Failure where
  | uri (e : Uri.Error)
  | source (e : CodeMap.Error)
  | filter (e : FileFilter.Error)
  | file (e : FileTree.Error)
  | shape (e : Data.Mismatch)
  | embedding (e : Embedding.Error)
  | unreachable
  | timedOut
  | status (code : Int)
  | json (e : Json.Error)
  | notToml
  | generation (node provider : String)
  | persistence (documents : Nat)
  | dimension
  | searchLimit
  | noTransformer (key : String)
  | listener
  | markup (tag : String)
  deriving DecidableEq, Repr

namespace Failure

def message : Failure → String
  | .uri e => e.message
  | .source e => e.message
  | .filter _ => "unacceptable pattern"
  | .file e => e.message
  | .shape _ => "unexpected kind of value"
  | .embedding .zeroDimension => "a vector of dimension zero has no slots"
  | .embedding .negativeDimension => "a vector has no negative dimension"
  | .unreachable => "no connection"
  | .timedOut => "no answer in time"
  | .status code => "status " ++ toString code
  | .json e => e.message
  | .notToml => "invalid TOML"
  | .generation node provider =>
    "Skeleton generation failed for " ++ node ++ ": provider '" ++ provider ++ "' returned no completion"
  | .persistence n => "Failed to save " ++ toString n ++ " documents"
  | .dimension => "vectors of different dimensions"
  | .searchLimit => "a search needs a limit"
  | .noTransformer key => "'" ++ key ++ "' has no transformer backend"
  | .listener => "the listener failed"
  | .markup tag => "closing tag '" ++ tag ++ "' doesn't match any open tag"

/-- Whether a document could not be read as a program, which a pass over many documents tolerates. -/
def isParseError : Failure → Bool
  | .source (.unavailable _) => true
  | .source (.notAProgram _) => true
  | _ => false

def isPersistence : Failure → Bool
  | .persistence _ => true
  | _ => false

/-- Whether a failure is one of indexing itself, which commands report in their own words. -/
def isIndexing : Failure → Bool
  | .generation _ _ => true
  | e => e.isParseError || e.isPersistence

end Failure

end OutlineIndex
