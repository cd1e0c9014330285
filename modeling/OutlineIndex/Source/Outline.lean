import OutlineIndex.Source.Mark

namespace OutlineIndex.Source

inductive DefinitionKind where
  | classDef
  | function
  deriving DecidableEq, Repr

/-- A reference to another module: the module's dotted name, how many packages up the search
starts, and the names taken from it. -/
structure ImportRef where
  module : String
  level : Nat
  names : List String
  deriving DecidableEq, Repr

/-- A definition, with those that stand directly in its body. -/
inductive Located where
  | mk (kind : DefinitionKind) (name : String) (start stop : Mark) (inner : List Located)
  deriving Repr

/-- What is read of a source text: the definitions directly in bodies, and all imports. -/
structure Outline where
  definitions : List Located
  refs : List ImportRef

namespace Located

def start : Located → Mark
  | .mk _ _ start _ _ => start

def stop : Located → Mark
  | .mk _ _ _ stop _ => stop

mutual

/-- Where a definition and those inside it start. -/
def starts : Located → List Mark
  | .mk _ _ start _ inner => start :: startsAll inner

def startsAll : List Located → List Mark
  | [] => []
  | x :: xs => starts x ++ startsAll xs

end

mutual

/-- The definitions in a body start behind the start of the definition around them and do not end behind
its end. -/
def Laid (text : List Char) : Located → Prop
  | .mk _ _ start stop inner =>
    start.Le stop ∧ (∀ x ∈ inner, start.Before text x.start ∧ x.stop.Le stop) ∧ LaidAll text inner

/-- Definitions side by side: each starts, with those inside it, and ends before the ones after it do, and
none of these starts before its end. -/
def LaidAll (text : List Char) : List Located → Prop
  | [] => True
  | x :: xs =>
    Laid text x ∧ (∀ y ∈ xs, (∀ a ∈ x.starts, a.Before text y.start) ∧ x.stop.Le y.start ∧
      x.stop.Before text y.stop) ∧ LaidAll text xs

end

end Located

end OutlineIndex.Source
