import OutlineIndex.Pattern.CharSet
import OutlineIndex.Text.Lines

namespace OutlineIndex

inductive Wildcard where
  | many
  | one
  | set (s : CharSet)
  | char (c : Char)
  deriving DecidableEq, Repr

namespace Wildcard

/-- What stands between an opening bracket and the one that closes it, which is not the first
character; and what follows. -/
def bracket? (isNegation : Char → Bool) (s : List Char) : Option (List Char × List Char) :=
  let sign := match s with
    | c :: _ => if isNegation c then [c] else []
    | [] => []
  let rest := s.drop sign.length
  let first := match rest with
    | ']' :: _ => [']']
    | _ => []
  let tail := rest.drop first.length
  let inside := tail.takeWhile (· ≠ ']')
  match tail.drop inside.length with
  | _ :: after => some (sign ++ first ++ inside, after)
  | [] => none

def parse : Nat → List Char → List Wildcard
  | 0, _ => []
  | _, [] => []
  | fuel + 1, '*' :: rest => many :: parse fuel rest
  | fuel + 1, '?' :: rest => one :: parse fuel rest
  | fuel + 1, '[' :: rest =>
    match bracket? (· == '!') rest with
    | some (inside, after) => set (.lenient inside) :: parse fuel after
    | none => char '[' :: parse fuel rest
  | fuel + 1, c :: rest => char c :: parse fuel rest

def ofChars (s : List Char) : List Wildcard := parse (s.length + 1) s

/-- The ways to go on after a wildcard. -/
def rests : Wildcard → List Char → List (List Char)
  | .many, s => Text.ends s
  | .one, _ :: s => [s]
  | .set x, c :: s => if x.test c then [s] else []
  | .char x, c :: s => if x = c then [s] else []
  | _, [] => []

def matchAll : List Wildcard → List Char → Bool
  | [], s => s.isEmpty
  | w :: ws, s => (w.rests s).any (matchAll ws)

end Wildcard

end OutlineIndex
