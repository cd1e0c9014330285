import OutlineIndex.Path
import OutlineIndex.Text.Utf8

namespace OutlineIndex

inductive FileTree.Entry where
  | file (bytes : List UInt8)
  | directory
  deriving DecidableEq, Repr

structure FileTree where
  entries : List (List String × FileTree.Entry)
  deriving Repr

namespace FileTree

inductive Error where
  | notFound
  | isDirectory
  | notADirectory
  | nameTooLong
  | exists
  deriving DecidableEq, Repr

def Error.message : Error → String
  | .notFound => "No such file or directory"
  | .isDirectory => "Is a directory"
  | .notADirectory => "Not a directory"
  | .nameTooLong => "File name too long"
  | .exists => "File exists"

def empty : FileTree := ⟨[]⟩

instance : Inhabited FileTree := ⟨empty⟩

def entry? (t : FileTree) (p : List String) : Option Entry :=
  if p = [] then some .directory else (t.entries.find? (·.1 == p)).map (·.2)

def isFile (t : FileTree) (p : List String) : Bool :=
  match t.entry? p with
  | some (.file _) => true
  | _ => false

def isDirectory (t : FileTree) (p : List String) : Bool := t.entry? p == some .directory

/-- All proper prefixes, shortest first. -/
def ancestors (p : List String) : List (List String) := (List.range p.length).map p.take

/-- The most bytes in a name that is looked up. -/
def maxName : Nat := 255

/-- The most bytes in a path that is looked up. -/
def maxPath : Nat := 4095

/-- What components lead to from a directory. Each is looked up only where the one before is a directory. -/
def follow (t : FileTree) : List String → List String → Except Error Entry
  | _, [] => .ok .directory
  | dir, c :: rest =>
    if c = ".." then t.follow dir.dropLast rest
    else if c.utf8ByteSize > maxName then .error .nameTooLong
    else match t.entry? (dir ++ [c]) with
      | none => .error .notFound
      | some .directory => t.follow (dir ++ [c]) rest
      | some (.file bytes) => if rest = [] then .ok (.file bytes) else .error .notADirectory

/-- What is at a path that is read from `cwd`. -/
def status (t : FileTree) (cwd p : Path) : Except Error Entry :=
  if (Utf8.encode p.chars).length > maxPath then .error .nameTooLong else t.follow [] (Path.fromRoot cwd p)

def read (t : FileTree) (p : List String) : Except Error (List UInt8) := do
  match ← t.status ⟨.root, []⟩ ⟨.root, p⟩ with
  | .file bytes => return bytes
  | .directory => throw .isDirectory

/-- Text in files: ill-formed bytes are dropped and every line end is a line feed. -/
def textOf (bytes : List UInt8) : String :=
  String.ofList (Text.foldReturns (Utf8.decodeDropping bytes))

def set (t : FileTree) (p : List String) (e : Entry) : FileTree :=
  if t.entries.any (·.1 == p) then ⟨t.entries.map fun x => if x.1 == p then (p, e) else x⟩
  else ⟨t.entries ++ [(p, e)]⟩

/-- Makes a directory and those above it. -/
def makeDirectory (t : FileTree) (p : List String) : FileTree :=
  (ancestors p ++ [p]).foldl
    (fun t q => if q = [] || (t.entry? q).isSome then t else t.set q .directory) t

/-- Whether a path or a name in it is too long. -/
def overlong (p : List String) : Bool :=
  (Utf8.encode (Path.chars ⟨.root, p⟩)).length > maxPath || p.any (·.utf8ByteSize > maxName)

/-- Makes a directory and those above it, unless a file is in the way. -/
def ensureDirectory (t : FileTree) (p : List String) : Except Error FileTree :=
  if (ancestors p).any t.isFile then .error .notADirectory
  else if t.isFile p then .error .exists
  else if overlong p then .error .nameTooLong
  else .ok (t.makeDirectory p)

def write (t : FileTree) (p : List String) (bytes : List UInt8) : Except Error FileTree :=
  if (ancestors p).any t.isFile then .error .notADirectory
  else if t.isDirectory p then .error .isDirectory
  else if overlong p then .error .nameTooLong
  else .ok ((t.makeDirectory p.dropLast).set p (.file bytes))

def writeText (t : FileTree) (p : List String) (text : String) : Except Error FileTree :=
  t.write p (Utf8.encode text.toList)

def remove (t : FileTree) (p : List String) : Except Error FileTree := do
  match ← t.status ⟨.root, []⟩ ⟨.root, p⟩ with
  | .file _ => return ⟨t.entries.filter (·.1 != p)⟩
  | .directory => throw .isDirectory

/-- Drops a path with everything below it. -/
def prune (t : FileTree) (p : List String) : FileTree := ⟨t.entries.filter (!p.isPrefixOf ·.1)⟩

def removeAll (t : FileTree) (p : List String) : Except Error FileTree :=
  match t.entry? p with
  | none => .error .notFound
  | some (.file _) => .error .notADirectory
  | some .directory => .ok (t.prune p)

/-- The names in a directory, sorted. -/
def children (t : FileTree) (p : List String) : List String :=
  (t.entries.filterMap fun e => if e.1.length = p.length + 1 && p.isPrefixOf e.1 then e.1.getLast? else none).mergeSort
    (· ≤ ·)

end FileTree

end OutlineIndex
