import OutlineIndex.Text.Blank

namespace OutlineIndex.Text

/-- A carriage return, with a line feed right after it or alone, becomes a line feed. -/
def foldReturns : List Char → List Char
  | [] => []
  | '\r' :: '\n' :: rest => '\n' :: foldReturns rest
  | c :: rest => (if c = '\r' then '\n' else c) :: foldReturns rest

def isBoundary (c : Char) : Bool :=
  let n := c.toNat
  (0x0A ≤ n && n ≤ 0x0D) || (0x1C ≤ n && n ≤ 0x1E) || n == 0x85 || n == 0x2028 || n == 0x2029

/-- The lines between boundaries, without them; a final boundary opens no further line. -/
def lines : List Char → List (List Char)
  | [] => []
  | '\r' :: '\n' :: rest => [] :: lines rest
  | c :: rest =>
    if isBoundary c then [] :: lines rest
    else match lines rest with
      | [] => [[c]]
      | l :: ls => (c :: l) :: ls

/-- The pieces between occurrences of a character. -/
def split (sep : Char) : List Char → List (List Char)
  | [] => [[]]
  | c :: rest =>
    match split sep rest with
    | [] => [[c]]
    | l :: ls => if c = sep then [] :: l :: ls else (c :: l) :: ls

/-- A text and all its ends, longest first. -/
def ends : List Char → List (List Char)
  | [] => [[]]
  | c :: rest => (c :: rest) :: ends rest

def join (sep : List Char) : List (List Char) → List Char
  | [] => []
  | [l] => l
  | l :: ls => l ++ sep ++ join sep ls

end OutlineIndex.Text
