import OutlineIndex.Pattern.Wildcard
import OutlineIndex.Text.Lines

namespace OutlineIndex

inductive Ignore.Error where
  | invalidPattern
  | invalidRange
  deriving DecidableEq, Repr

/-- A piece of a pattern for whole paths. -/
inductive Ignore.Piece where
  | slash
  | char (c : Char)
  | set (s : CharSet)
  /-- One character that is no slash. -/
  | one
  /-- Characters that are no slash, any number of them or at least one. -/
  | many (atLeastOne : Bool)
  /-- Nothing, or directories with a slash at the end. -/
  | above
  /-- Nothing, or a slash with directories after it. -/
  | between
  /-- The end, or a slash with anything after it. -/
  | below
  /-- A slash with anything after it. -/
  | inside
  deriving DecidableEq, Repr

inductive Ignore.Matcher where
  | everything
  | nested
  | pieces (ps : List Ignore.Piece)
  deriving DecidableEq, Repr

structure Ignore.Rule where
  excludes : Bool
  matcher : Ignore.Matcher
  deriving DecidableEq, Repr

namespace Ignore

/-- The rests of a text after each of its characters, with the text up to there. -/
def cuts (s : List Char) : List (List Char × List Char) :=
  (List.range (s.length + 1)).map fun n => (s.take n, s.drop n)

def plainText (s : List Char) : Bool := s.all (· ≠ '\n')

/-- The ways to go on after a piece. -/
def Piece.rests : Piece → List Char → List (List Char)
  | .slash, c :: s => if c = '/' then [s] else []
  | .char x, c :: s => if x = c then [s] else []
  | .set x, c :: s => if x.test c then [s] else []
  | .one, c :: s => if c = '/' then [] else [s]
  | .many atLeastOne, s =>
    ((cuts s).filter fun (a, _) => a.all (· ≠ '/') && (!atLeastOne || a ≠ [])).map (·.2)
  | .above, s =>
    s :: ((cuts s).filter fun (a, _) => 1 < a.length && a.getLast? = some '/' && plainText a).map (·.2)
  | .between, s =>
    s :: ((cuts s).filter fun (a, _) => 1 < a.length && a.head? = some '/' && plainText a).map (·.2)
  | .below, s => if s = [] || (s.head? = some '/' && plainText s) then [[]] else []
  | .inside, s => if s.head? = some '/' && plainText s then [[]] else []
  | _, [] => []

def matchPieces : List Piece → List Char → Bool
  | [], s => s.isEmpty
  | p :: ps, s => (p.rests s).any (matchPieces ps)

def Matcher.test : Matcher → List Char → Bool
  | .everything, _ => true
  | .nested, s => s.contains '/'
  | .pieces ps, s => matchPieces ps s

/-- A bracket, whose ranges must be in order. -/
def bracket (insideText : List Char) : Except Error CharSet :=
  let negated := insideText.head? = some '!' || insideText.head? = some '^'
  let ranges := CharSet.rangesOf (if negated then insideText.tail else insideText)
  if ranges.any fun (a, b) => b < a then .error .invalidRange else .ok ⟨negated, ranges⟩

/-- The pieces of one component; a backslash takes the next character as it is. -/
def component : Nat → List Char → Except Error (List Piece)
  | 0, _ => .ok []
  | _, [] => .ok []
  | fuel + 1, '\\' :: c :: rest => do return .char c :: (← component fuel rest)
  | _ + 1, ['\\'] => .error .invalidPattern
  | fuel + 1, '*' :: rest => do return .many false :: (← component fuel rest)
  | fuel + 1, '?' :: rest => do return .one :: (← component fuel rest)
  | fuel + 1, '[' :: rest =>
    match Wildcard.bracket? (fun c => c == '!' || c == '^') rest with
    | some (insideText, after) => do
      let more ← component fuel after
      return .set (← bracket insideText) :: more
    | none => do return .char '[' :: (← component fuel rest)
  | fuel + 1, c :: rest => do return .char c :: (← component fuel rest)

def doubleStar : List Char := ['*', '*']

/-- Adjacent double stars are as good as one. -/
def collapse : List (List Char) → List (List Char)
  | a :: rest =>
    match collapse rest with
    | b :: more => if a = doubleStar && b = doubleStar then b :: more else a :: b :: more
    | [] => [a]
  | [] => []

/-- The pieces of components; `first` marks the first one, `slash` that a slash is due. -/
def pieces : Bool → Bool → List (List Char) → Except Error (List Piece)
  | _, _, [] => .ok []
  | first, slash, seg :: rest => do
    let due := if slash then [Piece.slash] else []
    let tail := if rest.isEmpty then [Piece.below] else []
    if seg = doubleStar then
      if first then return .above :: (← pieces false false rest)
      else if rest.isEmpty then return [.inside]
      else return .between :: (← pieces false true rest)
    else if seg = ['*'] then return due ++ .many true :: tail ++ (← pieces false true rest)
    else
      let here ← component (seg.length + 1) seg
      return due ++ here ++ tail ++ (← pieces false true rest)

/-- Components made relative to the root: a pattern without a slash inside applies at any depth,
and one that ends in a slash to everything below. -/
def normalise (segs : List (List Char)) : List (List Char) :=
  let segs := match segs with
    | [] :: rest => rest
    | [a] => if a = doubleStar then [a] else [doubleStar, a]
    | [a, []] => if a = doubleStar then [a, []] else [doubleStar, a, []]
    | _ => segs
  let segs := if segs.getLast? = some [] then segs.dropLast ++ [doubleStar] else segs
  collapse segs

def matcher (pattern : List Char) : Except Error Matcher :=
  let raw := Text.split '/' pattern
  let onlyDirectories := raw.getLast? = some []
  match normalise raw with
  | [] => .error .invalidPattern
  | segs =>
    if segs = [doubleStar] then .ok (if onlyDirectories then .nested else .everything)
    else if segs = [doubleStar, ['*']] then .ok .everything
    else if segs = [doubleStar, ['*'], doubleStar] then .ok .nested
    else do return .pieces (← pieces true false segs)

/-- The rule of a line. Trailing blanks are cut unless a backslash keeps the last one. -/
def rule? (line : List Char) : Except Error (Option Rule) :=
  let text := match line.reverse with
    | ' ' :: '\\' :: _ => line
    | _ => Text.trimRight line
  if text = [] || text.head? = some '#' || text = ['/'] then .ok none
  else do
    let excludes := text.head? ≠ some '!'
    return some ⟨excludes, ← matcher (if excludes then text else text.tail)⟩

def rules (lines : List String) : Except Error (List Rule) := do
  return (← lines.mapM fun l => rule? l.toList).filterMap id

/-- Whether the last rule that matches a path excludes it. -/
def excluded (rules : List Rule) (path : String) : Bool :=
  match (rules.filter fun r => r.matcher.test path.toList).getLast? with
  | some r => r.excludes
  | none => false

/-- From lines to the paths that they exclude. -/
abbrev Spec := List String → Except Error (String → Bool)

/-- The rules of version control. -/
def Spec.gitignore : Spec := fun lines => do return excluded (← rules lines)

end Ignore

end OutlineIndex
