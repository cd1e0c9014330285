namespace OutlineIndex

structure CharSet where
  negated : Bool
  ranges : List (Char × Char)
  deriving DecidableEq, Repr

namespace CharSet

def test (s : CharSet) (c : Char) : Bool := s.ranges.any (fun (a, b) => a ≤ c && c ≤ b) != s.negated

def single (c : Char) : Char × Char := (c, c)

/-- Reads characters and ranges from left to right; a hyphen at either end stands for itself. -/
def rangesOf : List Char → List (Char × Char)
  | a :: '-' :: b :: rest => (a, b) :: rangesOf rest
  | a :: rest => single a :: rangesOf rest
  | [] => []

/-- Cuts the inside of a bracket at the hyphens that make ranges: one at the front makes none, and
after a range the next two characters make none. `k` counts the characters that cannot. -/
def chunksFrom : Nat → List Char → List (List Char)
  | _, [] => [[]]
  | k, c :: rest =>
    if k = 0 && c = '-' then [] :: chunksFrom 2 rest
    else match chunksFrom (k - 1) rest with
      | [] => [[c]]
      | l :: ls => (c :: l) :: ls

/-- An empty last piece means that the last hyphen stands for itself. -/
def closeChunks : List (List Char) → List (List Char)
  | [a, []] => [a ++ ['-']]
  | a :: rest => a :: closeChunks rest
  | [] => []

/-- Drops ranges whose ends are in the wrong order, from the right. -/
def dropEmpty : List (List Char) → List (List Char)
  | [] => []
  | a :: rest =>
    match a.getLast?, dropEmpty rest with
    | some x, (y :: b) :: more => if y < x then (a.dropLast ++ b) :: more else a :: (y :: b) :: more
    | _, rest => a :: rest

/-- Characters and ranges of pieces between range hyphens. -/
def ofChunks : List (List Char) → List (Char × Char)
  | [] => []
  | [a] => a.map single
  | a :: (y :: b) :: rest =>
    match a.getLast? with
    | some x => a.dropLast.map single ++ (x, y) :: ofChunks (b :: rest)
    | none => ofChunks ((y :: b) :: rest)
  | a :: [] :: rest => a.map single ++ ofChunks ([] :: rest)

/-- A bracket in which disordered ranges are dropped, given what stands between its brackets. -/
def lenient (inside : List Char) : CharSet :=
  let negated := inside.head? = some '!'
  let body := if negated then inside.tail else inside
  ⟨negated, ofChunks (dropEmpty (closeChunks (chunksFrom 1 body)))⟩

end CharSet

end OutlineIndex
