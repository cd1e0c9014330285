import OutlineIndex.Decimal
import OutlineIndex.Digest.Blake2b
import OutlineIndex.Text.Lines
import OutlineIndex.Text.Lower
import OutlineIndex.Text.Utf8

namespace OutlineIndex

/-- The counts behind a vector. -/
structure Embedding where
  counts : List Int
  deriving DecidableEq, Repr

namespace Embedding

/-- A word has no slot in a vector of dimension zero or below. -/
inductive Error where
  | zeroDimension
  | negativeDimension
  deriving DecidableEq, Repr

def isWordChar (c : Char) : Bool := c.isAlphanum || c = '_'

/-- The maximal runs of letters, digits and underscores without their leading digits. -/
def words (s : List Char) : List (List Char) :=
  let runs := Text.split ' ' (s.map fun c => if isWordChar c then c else ' ')
  (runs.map (·.dropWhile Char.isDigit)).filter (!·.isEmpty)

/-- Where a word counts, before reduction to the dimension, and whether it adds. -/
def slot (word : List Char) : Nat × Bool :=
  let digest := Digest.blake2b 8 (Utf8.encode word)
  ((digest.take 4).foldl (fun n b => 256 * n + b.toNat) 0, (digest.getD 4 0).toNat % 2 = 0)

def addAt (counts : List Int) (i : Nat) (step : Int) : List Int :=
  counts.modify i (· + step)

def count (dimension : Nat) (counts : List Int) (word : List Char) : List Int :=
  let (place, adds) := slot word
  addAt counts (place % dimension) (if adds then 1 else -1)

def ofText (dimension : Int) (text : String) : Except Error Embedding :=
  let ws := words (Text.lower text.toList)
  if ws.isEmpty then .ok ⟨List.replicate dimension.toNat 0⟩
  else if dimension = 0 then .error .zeroDimension
  else if dimension < 0 then .error .negativeDimension
  else .ok ⟨ws.foldl (count dimension.toNat) (List.replicate dimension.toNat 0)⟩

def dot (a b : Embedding) : Int := (List.zipWith (· * ·) a.counts b.counts).foldl (· + ·) 0

/-- The square of the length of the counts. -/
def weight (e : Embedding) : Nat := (e.dot e).toNat

/-- The components that are not zero, with their places. -/
def components (e : Embedding) : List (Nat × Float) :=
  let length := Float.sqrt (Float.ofNat e.weight)
  (e.counts.zipIdx.filter (·.1 ≠ 0)).map fun (n, i) => (i, Float.ofInt n / length)

/-- The largest number whose square is at most `n`, below a bound on its bits. -/
def rootBelow : Nat → Nat → Nat
  | 0, _ => 0
  | bits + 1, n =>
    let r := 2 * rootBelow bits (n / 4)
    if (r + 1) * (r + 1) ≤ n then r + 1 else r

/-- Whether `a` is at least as near to `q` as `b`, by the cosine. -/
def nearer (q a b : Embedding) : Bool :=
  q.dot b * (q.dot b).natAbs * a.weight ≤ q.dot a * (q.dot a).natAbs * b.weight

/-- The cosine of two vectors in units of a hundred-thousandth, at least zero; none when one of
them is zero. -/
def similarity? (a b : Embedding) : Option Nat :=
  let weights := a.weight * b.weight
  let d := (a.dot b).toNat
  if weights = 0 then none
  else
    let doubled := 4 * Nat.pow (100000 * d) 2 / weights
    some ((rootBelow (Nat.log2 doubled + 1) doubled + 1) / 2)

end Embedding

/-- A cosine in units of a hundred-thousandth, written with three places. -/
def scoreText (units : Nat) : String := Decimal.fixed 3 (Float.ofScientific units true 5)

end OutlineIndex
