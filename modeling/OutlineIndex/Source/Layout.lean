import OutlineIndex.Source.Lexer
import OutlineIndex.Text.Lines

namespace OutlineIndex.Source

/-- A comment on a line of its own. -/
structure Comment where
  margin : Margin
  stop : Mark
  deriving DecidableEq, Repr

structure Line where
  margin : Margin
  tokens : List Token
  /-- The end of the comment that closes the line. -/
  remark : Option Mark
  /-- The comment lines between this line and the next. -/
  after : List Comment
  deriving Repr

namespace Line

/-- Lines in the making: the finished ones, last first, and the parts of the current one. -/
structure Builder where
  done : List Line
  margin : Margin
  tokens : List Token
  remark : Option Mark

namespace Builder

def start : Builder := ⟨[], ⟨0, 0, 0⟩, [], none⟩

/-- Closes the current line. A line with no token is a comment line or nothing at all. -/
def close (b : Builder) : Builder :=
  match b.tokens, b.remark, b.done with
  | t :: ts, _, done => ⟨⟨b.margin, (t :: ts).reverse, b.remark, []⟩ :: done, ⟨0, 0, 0⟩, [], none⟩
  | [], some stop, l :: ls =>
    ⟨{ l with after := l.after ++ [⟨b.margin, stop⟩] } :: ls, ⟨0, 0, 0⟩, [], none⟩
  | [], _, done => ⟨done, ⟨0, 0, 0⟩, [], none⟩

def add (b : Builder) : Item → Builder
  | .margin m => { b with margin := m }
  | .token t => { b with tokens := t :: b.tokens, remark := none }
  | .comment stop => { b with remark := some stop }
  | .feed => b.close

end Builder

def ofItems (items : List Item) : List Line := (items.foldl Builder.add .start).close.done.reverse

/-- The end of the last token. -/
def codeStop (l : Line) : Mark := (l.tokens.getLast?.map Token.stop).getD ⟨0, 0⟩

def start (l : Line) : Mark := (l.tokens.head?.map Token.start).getD ⟨0, 0⟩

end Line

/-- A line and the block of lines below it. -/
inductive Layout where
  | node (line : Line) (block : List Layout)
  deriving Repr

namespace Layout

def line : Layout → Line
  | .node l _ => l

def block : Layout → List Layout
  | .node _ b => b

/-- How deep a dialect takes a line to be indented. -/
def width (d : Dialect) (m : Margin) : Nat :=
  match d with
  | .strict => m.stops
  | .tolerant => m.eights

/-- Puts a line above a forest: the deeper trees at its front become the line's block. -/
def attach (d : Dialect) (l : Line) (forest : List Layout) : List Layout :=
  let deeper := fun (t : Layout) => width d l.margin < width d t.line.margin
  .node l (forest.takeWhile deeper) :: forest.dropWhile deeper

def ofLines (d : Dialect) (lines : List Line) : List Layout := lines.foldr (attach d) []

/-- The forest of a source text. -/
def ofText (d : Dialect) (text : List Char) : List Layout :=
  let text := match d with
    | .strict => Text.foldReturns text
    | .tolerant => text
  ofLines d (Line.ofItems (items d text))

mutual

/-- The last line of a tree. -/
def lastLine : Layout → Line
  | .node l b => lastLineOf l b

/-- The last line of a forest that follows a line. -/
def lastLineOf (l : Line) : List Layout → Line
  | [] => l
  | t :: ts => lastLineOf (lastLine t) ts

end

end Layout

end OutlineIndex.Source
