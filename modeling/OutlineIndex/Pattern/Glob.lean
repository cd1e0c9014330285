import OutlineIndex.FileTree
import OutlineIndex.Pattern.Wildcard

namespace OutlineIndex

inductive Glob.Error where
  | empty
  | absolute
  | noComponent
  | embeddedDoubleStar
  deriving DecidableEq, Repr

inductive Glob.Component where
  | exact (name : String)
  | wild (ws : List Wildcard)
  | deep
  | up
  | here
  deriving DecidableEq, Repr

namespace Glob

def holdsDoubleStar : List Char → Bool
  | '*' :: '*' :: _ => true
  | _ :: rest => holdsDoubleStar rest
  | [] => false

def component (part : String) : Except Error Component :=
  let s := part.toList
  if s = ['*', '*'] then .ok .deep
  else if s = ['.', '.'] then .ok .up
  else if holdsDoubleStar s then .error .embeddedDoubleStar
  else if s.any fun c => c == '*' || c == '?' || c == '[' then .ok (.wild (Wildcard.ofChars s))
  else .ok (.exact part)

def parse (pattern : String) : Except Error (List Component) :=
  let s := pattern.toList
  let path := Path.ofString pattern
  if s = [] then .error .empty
  else if path.isAbsolute then .error .absolute
  else if path.parts = [] && s.getLast? ≠ some '/' then .error .noComponent
  else do
    let parts ← path.parts.mapM component
    return parts ++ if s.getLast? = some '/' then [.here] else []

/-- The directories at and below a directory, as ways from it. -/
def directoriesBelow (t : FileTree) (base : List String) : List (List String) :=
  [] :: (t.entries.filter fun e => e.2 == .directory && base.isPrefixOf e.1 && base.length < e.1.length).map
    fun e => e.1.drop base.length

/-- Where a way from the root leads. -/
def locate (root way : List String) : List String := Path.cancel (root ++ way)

/-- The ways from the root that fit the components. All but the last component lead to
directories. -/
def select (t : FileTree) (root : List String) : List Component → List String → List (List String)
  | [], way => [way]
  | c :: rest, way =>
    let fits (p : List String) : Bool :=
      if rest.isEmpty then (t.entry? p).isSome else t.isDirectory p
    match c with
    | .here => [way]
    | .up => select t root rest (way ++ [".."])
    | .exact name =>
      if fits (locate root (way ++ [name])) then select t root rest (way ++ [name]) else []
    | .wild ws =>
      ((t.children (locate root way)).filter fun n =>
          Wildcard.matchAll ws n.toList && fits (locate root (way ++ [n]))).flatMap
        fun n => select t root rest (way ++ [n])
    | .deep => (directoriesBelow t (locate root way)).flatMap fun d => select t root rest (way ++ d)

end Glob

end OutlineIndex
