import OutlineIndex.Text.Lines

namespace OutlineIndex.Braces

def isBrace (c : Char) : Bool := c == '\x7b' || c == '\x7d'

/-- The text before, inside and after the first group that holds no brace. -/
def firstGroup? : List Char → Option (List Char × List Char × List Char)
  | [] => none
  | c :: rest =>
    let body := rest.takeWhile (!isBrace ·)
    let left := rest.dropWhile (!isBrace ·)
    if c = '\x7b' && left.head? = some '\x7d' then some ([], body, left.tail)
    else (firstGroup? rest).map fun (head, body, tail) => (c :: head, body, tail)

def openings (s : List Char) : Nat := s.count '\x7b'

/-- All alternatives; each step uses up an opening brace. -/
def expandWith : Nat → List Char → List (List Char)
  | 0, s => [s]
  | fuel + 1, s =>
    match firstGroup? s with
    | none => [s]
    | some (head, body, tail) =>
      (Text.split ',' body).flatMap fun option => expandWith fuel (head ++ option ++ tail)

def expand (s : List Char) : List (List Char) := expandWith (openings s) s

end OutlineIndex.Braces
