namespace OutlineIndex

/-- The number `digits` times ten to the `exponent`, with a sign. -/
structure Decimal where
  negative : Bool
  digits : Nat
  exponent : Int
  deriving DecidableEq, Repr

namespace Decimal

/-- A positive double `mantissa` times two to the `exponent`. -/
structure Binary where
  mantissa : Nat
  exponent : Int
  deriving DecidableEq, Repr

def Binary.ofBits (bits : Nat) : Binary :=
  let raised : Nat := bits / Nat.pow 2 52 % Nat.pow 2 11
  let fraction : Nat := bits % Nat.pow 2 52
  if raised = 0 then ⟨fraction, -1074⟩ else ⟨fraction + Nat.pow 2 52, (raised : Int) - 1075⟩

/-- The reals that round to a double, and the double itself, over a common denominator. -/
structure Rounding where
  low : Nat
  value : Nat
  high : Nat
  denominator : Nat
  closed : Bool

/-- The neighbour below a power of two is only half as far away as the one above. -/
def Binary.rounding (b : Binary) : Rounding :=
  let scale := Nat.pow 2 b.exponent.toNat
  let below := if b.mantissa = Nat.pow 2 52 && b.exponent ≠ -1074 then 1 else 2
  ⟨(4 * b.mantissa - below) * scale, 4 * b.mantissa * scale, (4 * b.mantissa + 2) * scale,
    4 * Nat.pow 2 (-b.exponent).toNat, b.mantissa % 2 = 0⟩

/-- The fraction `n / d` divided by ten to the `k`, as numerator and denominator. -/
def shift (n d : Nat) (k : Int) : Nat × Nat := (n * Nat.pow 10 (-k).toNat, d * Nat.pow 10 k.toNat)

/-- Whether `digits` times ten to the `k` rounds to the double. -/
def Rounding.holds (r : Rounding) (digits : Nat) (k : Int) : Bool :=
  let (low, d) := shift r.low r.denominator k
  let (high, _) := shift r.high r.denominator k
  if r.closed then low ≤ digits * d && digits * d ≤ high
  else low < digits * d && digits * d < high

/-- The nearest number with the given place, of those that round to the double. -/
def Rounding.atPlace? (r : Rounding) (k : Int) : Option Nat :=
  let (n, d) := shift r.value r.denominator k
  let floor := n / d
  let rest := 2 * (n % d)
  let first := if rest < d || (rest = d && floor % 2 = 0) then floor else floor + 1
  let second := if first = floor then floor + 1 else floor
  [first, second].find? (r.holds · k)

def digitCount (n : Nat) : Nat := (Nat.toDigits 10 n).length

/-- The place of the first digit of a positive fraction. -/
def leadingPlace (n d : Nat) : Int :=
  let guess := (digitCount n : Int) - digitCount d
  let (a, b) := shift n d guess
  if b ≤ a then guess else guess - 1

/-- Drops zeros from the end of the digits. -/
def trimZeros : Nat → Nat → Int → Nat × Int
  | 0, n, k => (n, k)
  | fuel + 1, n, k => if n ≠ 0 && n % 10 = 0 then trimZeros fuel (n / 10) (k + 1) else (n, k)

def ofDigits (negative : Bool) (n : Nat) (k : Int) : Decimal :=
  if n = 0 then ⟨negative, 0, 0⟩
  else
    let (n, k) := trimZeros (digitCount n) n k
    ⟨negative, n, k⟩

/-- The shortest decimal that reads back as the double with the given bits. -/
def ofBits (bits : Nat) : Decimal :=
  let b := Binary.ofBits (bits % Nat.pow 2 63)
  let negative := Nat.pow 2 63 ≤ bits
  if b.mantissa = 0 then ⟨negative, 0, 0⟩
  else
    let r := b.rounding
    let top := leadingPlace r.value r.denominator
    let found := (List.range 18).findSome? fun (n : Nat) =>
      (r.atPlace? (top - n)).map fun digits => ofDigits negative digits (top - n)
    found.getD ⟨negative, 0, 0⟩

def ofFloat (x : Float) : Decimal := ofBits x.toBits.toNat

/-- Above every finite double the value is infinite, far below all of them it is zero. -/
def magnitude (d : Decimal) : Float :=
  let point := digitCount d.digits + d.exponent
  if d.digits = 0 || point < -400 then 0.0
  else if 400 < point then 1.0 / 0.0
  else Float.ofScientific d.digits (d.exponent < 0) d.exponent.natAbs

def toFloat (d : Decimal) : Float := if d.negative then -d.magnitude else d.magnitude

/-- The decimal of the double nearest to a numeral. -/
def nearest (negative : Bool) (digits : Nat) (exponent : Int) : Decimal :=
  ofFloat (toFloat ⟨negative, digits, exponent⟩)

def zeros (n : Nat) : String := String.ofList (List.replicate n '0')

def sign (d : Decimal) : String := if d.negative then "-" else ""

/-- Written with a point; from ten to the sixteenth on and below a ten-thousandth, with an exponent
of at least two digits. -/
def text (d : Decimal) : String :=
  let ds := Nat.repr d.digits
  let point : Int := ds.length + d.exponent
  let body :=
    if d.digits = 0 then "0.0"
    else if -4 < point && point ≤ 16 then
      if point ≤ 0 then "0." ++ zeros (-point).toNat ++ ds
      else if ds.length ≤ point then ds ++ zeros d.exponent.toNat ++ ".0"
      else (ds.take point.toNat).toString ++ "." ++ (ds.drop point.toNat).toString
    else
      let lead := (ds.take 1).toString
      let tail := (ds.drop 1).toString
      let power := (point - 1).natAbs
      lead ++ (if tail = "" then "" else "." ++ tail) ++ "e" ++ (if point ≤ 0 then "-" else "+") ++
        (if power < 10 then "0" else "") ++ Nat.repr power
  d.sign ++ body

/-- A positive double with a fixed number of places; a tie goes to the even neighbour. -/
def fixed (places : Nat) (x : Float) : String :=
  let b := Binary.ofBits (x.toBits.toNat % Nat.pow 2 63)
  let n := b.mantissa * Nat.pow 2 b.exponent.toNat * Nat.pow 10 places
  let d := Nat.pow 2 (-b.exponent).toNat
  let floor := n / d
  let rest := 2 * (n % d)
  let units := if rest < d || (rest = d && floor % 2 = 0) then floor else floor + 1
  let low := Nat.repr (units % Nat.pow 10 places)
  Nat.repr (units / Nat.pow 10 places) ++ "." ++ zeros (places - low.length) ++ low

end Decimal

end OutlineIndex
