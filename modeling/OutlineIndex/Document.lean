import OutlineIndex.Text.Lines
import OutlineIndex.Text.Utf8

namespace OutlineIndex

structure Position where
  line : Int
  character : Int
  deriving DecidableEq, Repr, Inhabited

namespace Position

def key (p : Position) : String := s!"{p.line}-{p.character}"

/-- The position relative to `origin`, whose own column counts on the first line only. -/
def rebase (p origin : Position) : Position :=
  let line := p.line - origin.line
  ⟨max line 0, max (if line = 0 then p.character - origin.character else p.character) 0⟩

end Position

structure Span where
  start : Position
  stop : Position
  deriving DecidableEq, Repr, Inhabited

structure Document where
  uri : String
  text : String
  deriving DecidableEq, Repr

/-- The offsets just after the line feeds, counted from `n`. -/
def startsAfterFeeds (n : Nat) : List Char → List Nat
  | [] => []
  | c :: rest => if c = '\n' then (n + 1) :: startsAfterFeeds (n + 1) rest else startsAfterFeeds (n + 1) rest

/-- The offset at which each line starts. -/
def lineStarts (text : List Char) : List Nat := 0 :: startsAfterFeeds 0 text

def offsetAt (text : List Char) (p : Position) : Nat :=
  let starts := lineStarts text
  if p.line ≥ starts.length then text.length
  else if p.line < 0 then 0
  else
    let start : Int := starts.getD p.line.toNat 0
    let stop : Int := starts.getD (p.line.toNat + 1) text.length
    (max start (min (start + p.character) stop)).toNat

/-- The characters from one offset up to another. -/
def cut (text : List Char) (start stop : Nat) : List Char := (text.drop start).take (stop - start)

def slice (text : List Char) (r : Span) : List Char := cut text (offsetAt text r.start) (offsetAt text r.stop)

/-- The position of a column counted in bytes of the UTF-8 form; a column inside a character is the
start of that character. -/
def positionOfBytes (text : List Char) (line column : Int) : Position :=
  let starts := lineStarts text
  if column ≤ 0 ∨ line < 0 ∨ line ≥ starts.length then ⟨line, max column 0⟩
  else
    let row := cut text (starts.getD line.toNat 0) (offsetAt text ⟨line + 1, 0⟩)
    ⟨line, (Utf8.decodeDropping ((Utf8.encode row).take column.toNat)).length⟩

def endPosition (text : List Char) : Position :=
  let starts := lineStarts text
  ⟨starts.length - 1, text.length - starts.getLast?.getD 0⟩

def fullSpan (text : List Char) : Span := ⟨⟨0, 0⟩, endPosition text⟩

namespace Document

def lineCount (d : Document) : Nat := (lineStarts d.text.toList).length

def slice (d : Document) (r : Span) : String := String.ofList (OutlineIndex.slice d.text.toList r)

def fullSpan (d : Document) : Span := OutlineIndex.fullSpan d.text.toList

end Document

end OutlineIndex
