import OutlineIndex.Source.Outline
import OutlineIndex.Text.Lines

namespace OutlineIndex.Source.Program

/-- A statement of a syntax tree. A definition holds where the expressions of its decorators start; it
starts itself at its keyword. Whatever else holds statements is a compound. -/
inductive Statement where
  | definition (kind : DefinitionKind) (name : String) (decorators : List Mark) (start stop : Mark)
      (body : List Statement)
  | imports (modules : List String)
  | importsFrom (module : Option String) (level : Nat) (names : List String)
  | compound (inner : List Statement)
  deriving Repr

namespace Statement

/-- A decorated definition starts at the sign before its first decorator, which is taken to be one column
before the expression. -/
def startOf (decorators : List Mark) (start : Mark) : Mark :=
  match decorators with
  | [] => start
  | e :: _ => e.back

mutual

def located : Statement → List Located
  | .definition kind name decorators start stop body =>
    [.mk kind name (startOf decorators start) stop (locatedAll body)]
  | .imports _ => []
  | .importsFrom _ _ _ => []
  | .compound _ => []

/-- The definitions directly in a body. -/
def locatedAll : List Statement → List Located
  | [] => []
  | s :: ss => located s ++ locatedAll ss

end

/-- Joins lists level by level. -/
def merge {α : Type} : List (List α) → List (List α) → List (List α)
  | [], ys => ys
  | x :: xs, [] => x :: xs
  | x :: xs, y :: ys => (x ++ y) :: merge xs ys

mutual

/-- The references at each depth below and including a statement. -/
def levels : Statement → List (List ImportRef)
  | .definition _ _ _ _ _ body => [] :: levelsAll body
  | .imports modules => [modules.map fun m => ⟨m, 0, []⟩]
  | .importsFrom module level names => [[⟨module.getD "", level, names⟩]]
  | .compound inner => [] :: levelsAll inner

def levelsAll : List Statement → List (List ImportRef)
  | [] => []
  | s :: ss => merge (levels s) (levelsAll ss)

end

/-- All imports, the outer ones before those deeper in the tree. -/
def refs (ss : List Statement) : List ImportRef := (levelsAll ss).flatten

/-- A definition opens behind the place `a`: its keyword stands there, or the sign before its first
decorator does. Where it starts on the line of `a`, both places are between characters. -/
def OpensAfter (text : List Char) (a : Mark) (decorators : List Mark) (start : Mark) : Prop :=
  (match decorators with
    | [] => a.Lt start
    | e :: _ => ∃ sign, a.Lt sign ∧ sign.Lt e) ∧
    (a.line = (startOf decorators start).line → a.Whole text ∧ (startOf decorators start).Whole text)

/-- A definition does not open before the place `a`. -/
def OpensFrom (a : Mark) (decorators : List Mark) (start : Mark) : Prop :=
  match decorators with
  | [] => a.Le start
  | e :: _ => ∃ sign, a.Le sign ∧ sign.Lt e

/-- If the statement is a definition, it opens behind `start` and does not end behind `stop`. -/
def Inside (text : List Char) (start stop : Mark) : Statement → Prop
  | .definition _ _ decorators start' stop' _ => OpensAfter text start decorators start' ∧ stop'.Le stop
  | _ => True

/-- If both statements are definitions, the second one opens behind the start of the first one and of those
inside it, not before its end, and ends behind it. -/
def Follows (text : List Char) : Statement → Statement → Prop
  | .definition _ _ decorators start stop body, .definition _ _ decorators' start' stop' _ =>
    (∀ a ∈ startOf decorators start :: Located.startsAll (locatedAll body),
      OpensAfter text a decorators' start') ∧
      OpensFrom stop decorators' start' ∧ stop.Before text stop'
  | _, _ => True

mutual

/-- The decorators of a definition stand on lines above it, and the definitions in its body lie inside. -/
def Laid (text : List Char) : Statement → Prop
  | .definition _ _ decorators start stop body =>
    (∀ e ∈ decorators.head?, e.line < start.line) ∧ start.Le stop ∧
      (∀ s ∈ body, s.Inside text start stop) ∧ LaidAll text body
  | _ => True

/-- The definitions in a body are nested and disjoint, decorators included. -/
def LaidAll (text : List Char) : List Statement → Prop
  | [] => True
  | s :: ss => Laid text s ∧ (∀ s' ∈ ss, s.Follows text s') ∧ LaidAll text ss

end

/-- A definition ends on a line up to `n`. -/
def EndsBy (n : Nat) : Statement → Prop
  | .definition _ _ _ _ stop _ => stop.line ≤ n
  | _ => True

end Statement

/-- A reader of programs. It refuses what is no program, and the definitions of a program are nested and
disjoint pieces of its text, in which every kind of line end ends a line. -/
structure Parser where
  parse : List Char → Option (List Statement)
  laid : ∀ text ss, parse text = some ss → Statement.LaidAll text ss
  ends : ∀ text ss, parse text = some ss → ∀ s ∈ ss, s.EndsBy ((Text.foldReturns text).count '\n')

end OutlineIndex.Source.Program
