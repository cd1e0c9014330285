import OutlineIndex.Document
import OutlineIndex.Uri

namespace OutlineIndex.NodeId

/-- The identifier of the node that starts where `r` does. -/
def make (uri : String) (r : Span) : String := s!"{uri}#{r.start.line}:{r.start.character}"

/-- The text before and after the last `#`; all of it is the first part if nothing stands before. -/
def splitChars (id : List Char) : List Char × List Char :=
  let fragment := (id.reverse.takeWhile (· ≠ '#')).reverse
  let base := id.take (id.length - fragment.length - 1)
  if fragment.length = id.length || base = [] then (id, []) else (base, fragment)

def split (id : String) : String × String :=
  let (base, fragment) := splitChars id.toList
  (String.ofList base, String.ofList fragment)

def isAbsolute (id : String) : Bool := Uri.schemeMark.isPrefixOf id.toList

def withFragment (base fragment : String) : String :=
  if fragment = "" then base else base ++ "#" ++ fragment

def toRelative (cwd workspace : Path) (id : String) : Except Uri.Error String :=
  if isAbsolute id then do
    let (uri, fragment) := split id
    let path ← Uri.toPath uri
    return withFragment (Uri.relativePath cwd workspace path) fragment
  else .ok id

/-- The absolute form of an identifier for an absolute workspace. -/
def absolute (workspace : Path) (id : String) : String :=
  if isAbsolute id then id
  else
    let (rel, fragment) := split id
    withFragment (Uri.ofResolved (Path.resolve workspace (workspace ++ Path.ofString rel))) fragment

def toAbsolute (cwd workspace : Path) (id : String) : Except Uri.Error String :=
  if isAbsolute id then .ok id
  else do
    let (rel, fragment) := split id
    let uri ← Uri.ofPath cwd (workspace ++ Path.ofString rel)
    return withFragment uri fragment

/-- The workspace-relative path of the document that a node belongs to. -/
def filePath (cwd workspace : Path) (id : String) : Except Uri.Error String :=
  let (uri, _) := split id
  if isAbsolute uri then do return Uri.relativePath cwd workspace (← Uri.toPath uri) else .ok uri

end OutlineIndex.NodeId
