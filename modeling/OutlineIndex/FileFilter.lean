import OutlineIndex.IdSet
import OutlineIndex.Pattern.Braces
import OutlineIndex.Pattern.Glob
import OutlineIndex.Pattern.Ignore
import OutlineIndex.Uri

namespace OutlineIndex

inductive FileFilter.Error where
  | glob (e : Glob.Error)
  | ignore (e : Ignore.Error)
  deriving DecidableEq, Repr

/-- Lines that exclude paths, in a language of their own. -/
structure Exclusion where
  lines : List String
  spec : Ignore.Spec

namespace Exclusion

/-- The lines that count: blank ones and those that start with a hash do not. -/
def kept (e : Exclusion) : List String :=
  e.lines.filter fun l => !Text.blank l.toList && l.toList.head? ≠ some '#'

/-- The paths that are excluded; where no line counts, none is. -/
def test (e : Exclusion) : Except Ignore.Error (String → Bool) :=
  if e.kept.isEmpty then .ok fun _ => false else e.spec e.kept

end Exclusion

structure FileFilter where
  pattern : String
  exclusion : Exclusion
  cache : Option IdSet

namespace FileFilter

/-- The ways from the workspace to the files that one pattern without braces selects. -/
def filesOf (t : FileTree) (root : List String) (pattern : String) : Except Error (List String) := do
  let cs ← (Glob.parse pattern).mapError .glob
  let ways := (Glob.select t root cs []).filter fun way => t.isFile (Glob.locate root way)
  return ways.map fun way => (Path.mk .relative way).toString

/-- The relative paths of the files that pass. -/
def select (t : FileTree) (root : List String) (pattern : String) (exclusion : Exclusion) :
    Except Error IdSet := do
  let excluded ← exclusion.test.mapError .ignore
  let found ← (Braces.expand pattern.toList).mapM fun p => filesOf t root (String.ofList p)
  return .ofList (found.flatten.filter (!excluded ·))

def make (pattern : String) (exclusion : List String) (spec : Ignore.Spec := .gitignore) : FileFilter :=
  ⟨pattern, ⟨exclusion, spec⟩, none⟩

/-- Whether a relative path passes, and the filter with its answer remembered. -/
def accepts (f : FileFilter) (t : FileTree) (root : List String) (path : String) :
    Except Error (Bool × FileFilter) := do
  let found ← match f.cache with
    | some s => pure s
    | none => select t root f.pattern f.exclusion
  return (found.contains path, { f with cache := some found })

def forget (f : FileFilter) : FileFilter := { f with cache := none }

/-- A new pattern; the exclusion rules stay unless new ones come along. -/
def withPattern (f : FileFilter) (pattern : String) (exclusion : Option (List String)) : FileFilter :=
  ⟨pattern, { f.exclusion with lines := exclusion.getD f.exclusion.lines }, none⟩

/-- The URIs of all files that pass, in the order of their relative paths. -/
def documents (t : FileTree) (root : Path) (pattern : String) (exclusion : Exclusion) :
    Except Error (List String) := do
  let found ← select t root.parts pattern exclusion
  return found.toList.map fun rel => Uri.ofResolved (Path.resolve root (root ++ Path.ofString rel))

end FileFilter

end OutlineIndex
