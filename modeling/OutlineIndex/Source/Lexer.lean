import OutlineIndex.Source.Grammar.Literal
import OutlineIndex.Source.Identifier
import OutlineIndex.Source.Number
import OutlineIndex.Source.Quoted
import OutlineIndex.Source.Token

namespace OutlineIndex.Source

/-- Where the lexer stands: the place, the brackets still open, and the text skipped since the last
token, last character first. -/
structure Lexer where
  mark : Mark
  opened : List Char
  gap : List Char

namespace Lexer

/-- Blank characters inside a line. -/
def isGap (d : Dialect) (c : Char) : Bool :=
  c == ' ' || c == '\t' || c == '\x0c' ||
    (d == .tolerant && (c == '\r' || c == '\x0b' || c == '\ufeff' || c == '\u2060' || c == '\u200b'))

def isWordStart (c : Char) : Bool := c.isAlpha || c == '_' || 128 ≤ c.toNat

def isWordRest (c : Char) : Bool := isWordStart c || c.isDigit

def longSymbols : List (List Char) :=
  ["**=", "//=", ">>=", "<<=", "...", "**", "//", ">>", "<<", "<=", ">=", "==", "!=", "<>", "->",
    "+=", "-=", "*=", "/=", "%=", "&=", "|=", "^=", "@=", ":="].map String.toList

def shortSymbols : List Char := "()[]\x7b\x7d:,;+-*/|&<>=.%~^@".toList

def literalLetters (d : Dialect) (word : List Char) : Bool :=
  let w := word.map Char.toLower
  match d with
  | .strict => ["r", "u", "b", "f", "br", "rb", "fr", "rf"].any (·.toList == w)
  | .tolerant => w.all fun c => ['r', 'u', 'b', 'f', 't'].contains c

def closes : Char → Char
  | '(' => ')'
  | '[' => ']'
  | _ => '\x7d'

/-- The most brackets that may be open at once. -/
def maxDepth : Nat := 200

/-- The indentation of a line with the text that makes it up. A backslash joins the next line to
it; the first column at which one stands fixes the indentation. -/
def margin : Margin → Option Margin → List Char → Margin × List Char × List Char
  | m, kept, ' ' :: rest =>
    let (r, taken, left) := margin ⟨m.stops + 1, m.ones + 1, m.eights + 1⟩ kept rest
    (r, ' ' :: taken, left)
  | m, kept, '\t' :: rest =>
    let (r, taken, left) := margin ⟨(m.stops / 8 + 1) * 8, m.ones + 1, m.eights + 8⟩ kept rest
    (r, '\t' :: taken, left)
  | _, kept, '\x0c' :: rest =>
    let (r, taken, left) := margin ⟨0, 0, 0⟩ kept rest
    (r, '\x0c' :: taken, left)
  | _, kept, '\r' :: rest =>
    let (r, taken, left) := margin ⟨0, 0, 0⟩ kept rest
    (r, '\r' :: taken, left)
  | m, kept, '\\' :: '\n' :: rest =>
    let kept := if m.stops = 0 then kept else some (kept.getD m)
    let (r, taken, left) := margin m kept rest
    (r, '\\' :: '\n' :: taken, left)
  | m, kept, s => (match kept with
    | some k => ⟨k.stops, k.stops, m.eights⟩
    | none => m, [], s)

def skip (x : Lexer) (text : List Char) : Lexer :=
  { x with mark := x.mark.advanceAll text, gap := text.reverse ++ x.gap }

def emit (x : Lexer) (kind : Token.Kind) (text : List Char) : Token × Lexer :=
  let stop := x.mark.advanceAll text
  (⟨kind, String.ofList text, String.ofList x.gap.reverse, x.mark, stop⟩,
    { x with mark := stop, gap := [] })

/-- The symbol at the head of a text. -/
def symbol? (s : List Char) : Option (List Char) :=
  match longSymbols.find? (·.isPrefixOf s), s with
  | some l, _ => some l
  | none, c :: _ => if shortSymbols.contains c then some [c] else none
  | none, [] => none

/-- Takes a bracket into account; the answer says whether it fits the open ones. -/
def track (x : Lexer) (text : List Char) : Lexer × Bool :=
  match text with
  | [c] =>
    if c = '(' || c = '[' || c = '\x7b' then
      ({ x with opened := c :: x.opened }, x.opened.length < maxDepth)
    else if c = ')' || c = ']' || c = '\x7d' then
      match x.opened with
      | o :: os => ({ x with opened := os }, closes o == c)
      | [] => (x, false)
    else (x, true)
  | _ => (x, true)

def startsNumber (s : List Char) : Bool :=
  match s with
  | '.' :: c :: _ => c.isDigit
  | c :: _ => c.isDigit
  | [] => false

/-- The token at the head of a non-empty text that starts with no blank, with the text left. -/
def token (d : Dialect) (x : Lexer) (s : List Char) : Token × Lexer × List Char :=
  let word := s.takeWhile isWordRest
  let after := s.drop word.length
  let isQuote := fun c => c == '"' || c == '\''
  if startsNumber s then
    let n := Number.scan s
    let (t, y) := x.emit (if n.ok then .number else .invalid) n.taken
    (t, y, n.rest)
  else if (after.head?.map isQuote).getD false && literalLetters d word || (word = [] && (s.head?.map isQuote).getD false) then
    let plain := Quoted.scan after
    -- only a literal that is ill formed as it stands is read with literals nested in it
    let fine := plain.closed && ((Grammar.Literal.ofText (word ++ plain.taken)).check).isSome
    let q := if d == .tolerant && Quoted.isFormatted word && !fine then Quoted.scanNested after else plain
    let (t, y) := x.emit (if q.closed && (d == .tolerant || fine) then .quoted else .invalid) (word ++ q.taken)
    (t, y, q.rest)
  else if (s.head?.map isWordStart).getD false then
    -- letters that no literal has, right before a quote, are strictly no word either
    let ok := d == .tolerant || (word.all (·.toNat < 128) || isIdentifier word) &&
      !((after.head?.map isQuote).getD false && literalLetters .tolerant word)
    let (t, y) := x.emit (if ok then .word else .invalid) word
    (t, y, after)
  else match symbol? s with
    | some text =>
      let (y, ok) := x.track text
      let (t, y) := y.emit (if ok then .symbol else .invalid) text
      (t, y, s.drop text.length)
    | none =>
      let (t, y) := x.emit .invalid (s.take 1)
      (t, y, s.drop 1)

/-- The items of a text; `fresh` says that a line begins here. Every step takes a character. -/
def run (d : Dialect) : Nat → Lexer → Bool → List Char → List Item
  | 0, _, _, _ => []
  | fuel + 1, x, true, s =>
    let (m, taken, rest) := margin ⟨0, 0, 0⟩ none s
    let y := x.skip taken
    let y := if x.opened = [] then { y with gap := [] } else y
    let dangling := taken.getLast? = some '\n' && rest = []
    (if x.opened = [] then [.margin m] else []) ++
      (if dangling then [.token (y.emit .invalid []).1] else []) ++ run d fuel y false rest
  | _ + 1, x, false, [] =>
    if x.opened = [] then [] else [.token (x.emit .invalid []).1]
  | fuel + 1, x, false, c :: rest =>
    if c = '\n' then
      (if x.opened = [] then [.feed] else []) ++ run d fuel (x.skip [c]) true rest
    else if isGap d c then run d fuel (x.skip [c]) false rest
    else if c = '#' then
      let text := (c :: rest).takeWhile (· ≠ '\n')
      let y := x.skip text
      .comment y.mark :: run d fuel y false ((c :: rest).drop text.length)
    else if c = '\\' && d == .tolerant && rest.take 2 = ['\r', '\n'] then
      run d fuel (x.skip ['\\', '\r', '\n']) false (rest.drop 2)
    else if c = '\\' && rest.head? = some '\n' then
      let y := x.skip ['\\', '\n']
      (if rest.tail = [] then [.token (y.emit .invalid []).1] else []) ++ run d fuel y false rest.tail
    else
      let (t, y, left) := token d x (c :: rest)
      .token t :: run d fuel y false left

end Lexer

/-- The items of a source text. -/
def items (d : Dialect) (text : List Char) : List Item :=
  Lexer.run d (2 * text.length + 2) ⟨⟨0, 0⟩, [], []⟩ true text

end OutlineIndex.Source
