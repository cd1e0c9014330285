import OutlineIndex.Document
import OutlineIndex.FileTree
import OutlineIndex.Uri

namespace OutlineIndex

structure Workspace where
  files : FileTree
  cwd : Path
  root : Path

namespace Workspace

/-- The resolved directory of the workspace. -/
def base (w : Workspace) : Path := Path.resolve w.cwd w.root

/-- What is at a path. -/
def status (w : Workspace) (p : Path) : Except FileTree.Error FileTree.Entry := w.files.status w.cwd p

/-- Whether a regular file is at a path. A null character leads nowhere, and an overlong path or name is an
error. -/
def isFile (w : Workspace) (p : Path) : Except FileTree.Error Bool :=
  if p.hasNul then .ok false
  else match w.status p with
    | .ok (.file _) => .ok true
    | .error .nameTooLong => .error .nameTooLong
    | _ => .ok false

/-- Whether anything is at a path, with the same exceptions. -/
def present (w : Workspace) (p : Path) : Except FileTree.Error Bool :=
  if p.hasNul then .ok false
  else match w.status p with
    | .ok _ => .ok true
    | .error .nameTooLong => .error .nameTooLong
    | .error _ => .ok false

/-- What came of reading a document. -/
inductive Reading where
  | text (d : Document)
  | absent
  | unreadable (path : Path) (e : FileTree.Error)
  deriving DecidableEq

/-- Reads the document at a URI. -/
def read (w : Workspace) (uri : String) : Except Uri.Error Reading := do
  let path ← Uri.toPath uri
  if path.hasNul then throw .nulInPath
  match w.status path with
  | .ok (.file bytes) => return .text ⟨uri, FileTree.textOf bytes⟩
  | .ok .directory => return .absent
  | .error .notFound => return .absent
  | .error e => return .unreadable path e

/-- The document at a URI, if it can be read. -/
def document? (w : Workspace) (uri : String) : Except Uri.Error (Option Document) := do
  match ← w.read uri with
  | .text d => return some d
  | _ => return none

end Workspace

end OutlineIndex
