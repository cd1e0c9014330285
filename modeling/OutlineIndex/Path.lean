import OutlineIndex.Text.Lines

namespace OutlineIndex

/-- What stands before the first component: nothing, one slash, or exactly two. -/
inductive Anchor where
  | relative
  | root
  | network
  deriving DecidableEq, Repr

def Anchor.text : Anchor → List Char
  | .relative => []
  | .root => ['/']
  | .network => ['/', '/']

structure Path where
  anchor : Anchor
  parts : List String
  deriving DecidableEq, Repr

namespace Path

def anchorOf : List Char → Anchor
  | '/' :: '/' :: '/' :: _ => .root
  | '/' :: '/' :: _ => .network
  | '/' :: _ => .root
  | _ => .relative

def components (s : List Char) : List String :=
  ((Text.split '/' s).filter fun p => p ≠ [] && p ≠ ['.']).map String.ofList

def ofString (s : String) : Path := ⟨anchorOf s.toList, components s.toList⟩

/-- The components joined by slashes. -/
def joined (parts : List String) : List Char := Text.join ['/'] (parts.map String.toList)

def chars (p : Path) : List Char :=
  match p with
  | ⟨.relative, []⟩ => ['.']
  | ⟨a, parts⟩ => a.text ++ joined parts

def toString (p : Path) : String := String.ofList p.chars

instance : ToString Path := ⟨toString⟩

def isAbsolute (p : Path) : Bool := p.anchor != .relative

/-- Whether a null character stands in the path, which no system call takes. -/
def hasNul (p : Path) : Bool := p.parts.any (·.toList.contains '\x00')

/-- The last component, empty for a bare anchor. -/
def name (p : Path) : String := p.parts.getLast?.getD ""

def parent (p : Path) : Path := { p with parts := p.parts.dropLast }

/-- An absolute right side replaces the left one. -/
def append (p q : Path) : Path := if q.isAbsolute then q else { p with parts := p.parts ++ q.parts }

instance : HAppend Path Path Path := ⟨append⟩

def child (p : Path) (part : String) : Path := { p with parts := p.parts ++ [part] }

/-- Splits at the last dot, provided that something stands on both sides of it. -/
def splitName (name : List Char) : List Char × List Char :=
  let after := (name.reverse.takeWhile (· ≠ '.')).reverse
  let before := name.take (name.length - after.length - 1)
  if after = [] || before = [] || after.length = name.length then (name, [])
  else (before, '.' :: after)

def stem (p : Path) : String := String.ofList (splitName p.name.toList).1

def suffix (p : Path) : String := String.ofList (splitName p.name.toList).2

/-- Cancels each `..` against the component before it; at the root it has no effect. -/
def cancel (parts : List String) : List String :=
  parts.foldl (fun acc p => if p = ".." then acc.dropLast else acc ++ [p]) []

/-- The components from the root to what `p` denotes when read from `cwd`. -/
def fromRoot (cwd p : Path) : List String := if p.isAbsolute then p.parts else cwd.parts ++ p.parts

/-- The absolute path without `..` that `p` denotes when read from `cwd`. -/
def resolve (cwd p : Path) : Path := ⟨.root, cancel (fromRoot cwd p)⟩

def commonLength : List String → List String → Nat
  | a :: as, b :: bs => if a = b then commonLength as bs + 1 else 0
  | _, _ => 0

/-- The way from `base` to `p`, climbing with `..` where `p` lies outside. -/
def relativeTo (cwd base p : Path) : Path :=
  let target := (resolve cwd p).parts
  let start := (resolve cwd base).parts
  let k := commonLength start target
  ⟨.relative, List.replicate (start.length - k) ".." ++ target.drop k⟩

/-- Whether `p` is `base` or lies below it, component by component. -/
def within (base p : Path) : Bool := p.anchor == base.anchor && base.parts.isPrefixOf p.parts

end Path

end OutlineIndex
