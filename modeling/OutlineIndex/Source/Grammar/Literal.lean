import OutlineIndex.Source.Token
import OutlineIndex.Text.Lines

namespace OutlineIndex.Source.Grammar

structure Literal where
  bytes : Bool
  raw : Bool
  formatted : Bool
  body : List Char

namespace Literal

/-- Takes a literal apart into its letters and what stands between its quotes. -/
def ofText (text : List Char) : Literal :=
  let isQuote := fun c => c == '"' || c == '\''
  let letters := (text.takeWhile (!isQuote ·)).map Char.toLower
  let quoted := text.drop letters.length
  let width := match quoted with
    | a :: b :: _ :: _ :: _ :: _ => if a = b && quoted.take 3 = [a, a, a] then 3 else 1
    | _ => 1
  ⟨letters.contains 'b', letters.contains 'r', letters.contains 'f',
    ((quoted.drop width).take (quoted.length - 2 * width))⟩

def isHex (c : Char) : Bool := c.isDigit || ('a' ≤ c && c ≤ 'f') || ('A' ≤ c && c ≤ 'F')

def hexValue (s : List Char) : Nat :=
  s.foldl (fun n c => 16 * n + (if c.isDigit then c.toNat - 48 else c.toLower.toNat - 87)) 0

def isNameChar (c : Char) : Bool := c.isAlphanum || c == ' ' || c == '-'

/-- Whether every escape is complete. -/
def escapesOk (bytes : Bool) : List Char → Bool
  | [] => true
  | '\\' :: c :: rest =>
    let digits := fun (n : Nat) => (rest.take n).length = n && (rest.take n).all isHex
    (match c with
      | 'x' => digits 2
      | 'u' => bytes || digits 4
      | 'U' => bytes || (digits 8 && hexValue (rest.take 8) ≤ 0x10FFFF)
      | 'N' => bytes || (
        let name := (rest.drop 1).takeWhile (· ≠ '\x7d')
        rest.head? = some '\x7b' && name ≠ [] && name.all isNameChar &&
          name.length + 1 < rest.length)
      | _ => true) && escapesOk bytes rest
  | _ :: rest => escapesOk bytes rest

/-- A scan inside a replacement field: the quote and its width of an open literal, and the open
brackets. -/
structure Field where
  quote : Option (Char × Bool)
  opened : List Char

def closes : Char → Char
  | '(' => ')'
  | '[' => ']'
  | _ => '\x7d'

/-- The expression text at the front of a replacement field and what follows it. -/
def expression : Nat → Field → List Char → Option (List Char × List Char)
  | 0, _, _ => none
  | _, _, [] => none
  | fuel + 1, f, c :: rest =>
    let take := fun (n : Nat) (f : Field) =>
      (expression fuel f (rest.drop n)).map fun (e, left) => (c :: rest.take n ++ e, left)
    let tripled := rest.take 2 = [c, c]
    if c = '\\' then none
    else match f.quote with
      | some (q, false) => take 0 { f with quote := if c = q then none else f.quote }
      | some (q, true) => if c = q && tripled then take 2 { f with quote := none } else take 0 f
      | none =>
        if c = '\'' || c = '"' then
          if tripled then take 2 { f with quote := some (c, true) }
          else take 0 { f with quote := some (c, false) }
        else if c = '(' || c = '[' || c = '\x7b' then take 0 { f with opened := c :: f.opened }
        else if c = '#' then none
        else if f.opened = [] &&
            (c = '!' || c = ':' || c = '\x7d' || c = '=' || c = '<' || c = '>') then
          if rest.head? = some '=' && c ≠ ':' && c ≠ '\x7d' then take 1 f
          else if c = '<' || c = '>' then take 0 f
          else some ([], c :: rest)
        else if c = ')' || c = ']' || c = '\x7d' then
          match f.opened with
          | o :: os => if closes o = c then take 0 { f with opened := os } else none
          | [] => none
        else take 0 f

def isSpace (c : Char) : Bool := c == ' ' || ('\t' ≤ c && c ≤ '\r')

/-- Everything after the expression of a field up to its format. -/
def conversion (s : List Char) : Option (List Char) :=
  let s := match s with
    | '=' :: rest => rest.dropWhile isSpace
    | _ => s
  match s with
  | '!' :: c :: rest => if c = 's' || c = 'r' || c = 'a' then some rest else none
  | '!' :: [] => none
  | _ => some s

/-- The expressions of a formatted literal, or nothing if it is ill formed. At the outer level,
doubled braces stand for themselves; formats may hold fields one level deep. -/
def fields (raw : Bool) : Nat → Nat → List Char → Option (List (List Char) × List Char)
  | 0, _, _ => none
  | _, _, [] => some ([], [])
  | fuel + 1, level, '\x7b' :: rest =>
    if level = 0 && rest.head? = some '\x7b' then fields raw fuel level rest.tail
    else if 2 ≤ level then none
    else do
      let (e, s) ← expression (rest.length + 1) ⟨none, []⟩ rest
      if e.all (fun c => c == ' ' || c == '\t' || c == '\n' || c == '\x0c') then none
      let s ← conversion s
      let (inner, s) ← match s with
        | ':' :: spec => if spec = [] then none else fields raw fuel (level + 1) spec
        | _ => some ([], s)
      match s with
      | '\x7d' :: s => do
        let (more, left) ← fields raw fuel level s
        return (e :: inner ++ more, left)
      | _ => none
  | fuel + 1, level, '\x7d' :: rest =>
    if level = 0 then
      if rest.head? = some '\x7d' then fields raw fuel level rest.tail else none
    else some ([], '\x7d' :: rest)
  | fuel + 1, level, '\\' :: c :: rest =>
    if raw then fields raw fuel level (c :: rest)
    else if c = 'N' then
      if rest.head? = some '\x7b' then
        fields raw fuel level ((rest.dropWhile (· ≠ '\x7d')).drop 1)
      else fields raw fuel level rest
    else if c = '\x7b' || c = '\x7d' then fields raw fuel level (c :: rest)
    else fields raw fuel level rest
  | fuel + 1, level, _ :: rest => fields raw fuel level rest

/-- The expressions to be checked, or nothing if the literal is ill formed. -/
def check (l : Literal) : Option (List (List Char)) :=
  if l.bytes && l.body.any (128 ≤ ·.toNat) then none
  else if !l.raw && !escapesOk l.bytes l.body then none
  else if l.formatted then (fields l.raw (l.body.length + 1) 0 l.body).map (·.1)
  else some []

end Literal

/-- Adjacent literals are all of bytes or all of text. -/
def Literal.agree (ls : List Literal) : Bool := ls.all (·.bytes) || ls.all (!·.bytes)

end OutlineIndex.Source.Grammar
