import OutlineIndex.Source.Mark

namespace OutlineIndex.Source

inductive Token.Kind where
  | word
  | number
  | quoted
  | symbol
  | invalid
  deriving DecidableEq, Repr

structure Token where
  kind : Token.Kind
  text : String
  /-- The skipped text between the token before and this one. -/
  gap : String
  start : Mark
  stop : Mark
  deriving DecidableEq, Repr

/-- The indentation of a line, measured three ways: with tab stops every eight columns, with a tab
counting one, and with a tab counting eight. -/
structure Margin where
  stops : Nat
  ones : Nat
  eights : Nat
  deriving DecidableEq, Repr

inductive Item where
  | margin (m : Margin)
  | token (t : Token)
  | comment (stop : Mark)
  | feed
  deriving Repr

/-- How source text is read. The strict reading knows exactly one language version; the tolerant
one takes any word and symbol as it comes. -/
inductive Dialect where
  | strict
  | tolerant
  deriving DecidableEq, Repr

namespace Token

def isWord (t : Token) (w : String) : Bool := t.kind == .word && t.text == w

def isSymbol (t : Token) (s : String) : Bool := t.kind == .symbol && t.text == s

/-- The source text of consecutive tokens, without what precedes the first. -/
def spelling : List Token → String
  | [] => ""
  | t :: rest => rest.foldl (fun s u => s ++ u.gap ++ u.text) t.text

end Token

end OutlineIndex.Source
