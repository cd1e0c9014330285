namespace OutlineIndex.Source

/-- A place in the source: line, and column in bytes of the UTF-8 form, both from zero. -/
structure Mark where
  line : Nat
  column : Nat
  deriving DecidableEq, Repr, Inhabited

namespace Mark

def advance (m : Mark) (c : Char) : Mark :=
  if c = '\n' then ⟨m.line + 1, 0⟩ else ⟨m.line, m.column + c.utf8Size⟩

def advanceAll (m : Mark) (text : List Char) : Mark := text.foldl advance m

/-- The place right after a text that starts the source. -/
def after (text : List Char) : Mark := advanceAll ⟨0, 0⟩ text

/-- One column back on the same line. -/
def back (m : Mark) : Mark := ⟨m.line, m.column - 1⟩

def Le (a b : Mark) : Prop := a.line < b.line ∨ a.line = b.line ∧ a.column ≤ b.column

def Lt (a b : Mark) : Prop := a.line < b.line ∨ a.line = b.line ∧ a.column < b.column

/-- A place on one of the lines of the text is between two characters. -/
def Whole (text : List Char) (m : Mark) : Prop :=
  m.line ≤ text.count '\n' → ∃ front, front <+: text ∧ after front = m

/-- `b` is on a later line than `a`, or at least one character behind it on the same line. -/
def Before (text : List Char) (a b : Mark) : Prop :=
  a.line < b.line ∨ a.line = b.line ∧ a.column < b.column ∧ a.Whole text ∧ b.Whole text

end Mark

end OutlineIndex.Source
