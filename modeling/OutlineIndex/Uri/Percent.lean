import OutlineIndex.Text.Utf8

namespace OutlineIndex.Percent

def isPlain (c : Char) : Bool := c.isAlphanum || c == '_' || c == '.' || c == '-' || c == '~' || c == '/'

def upperDigit (n : Nat) : Char := if n < 10 then Char.ofNat (48 + n) else Char.ofNat (55 + n)

def escape (b : UInt8) : List Char := ['%', upperDigit (b.toNat / 16), upperDigit (b.toNat % 16)]

def encodeChar (c : Char) : List Char :=
  if isPlain c then [c] else (String.utf8EncodeChar c).flatMap escape

def encode (s : List Char) : List Char := s.flatMap encodeChar

def digit? (c : Char) : Option Nat :=
  if c.isDigit then some (c.toNat - 48)
  else if 'a' ≤ c && c ≤ 'f' then some (c.toNat - 87)
  else if 'A' ≤ c && c ≤ 'F' then some (c.toNat - 55)
  else none

/-- The bytes that a text stands for. -/
def bytes : List Char → List UInt8
  | [] => []
  | '%' :: a :: b :: rest =>
    match digit? a, digit? b with
    | some m, some n => UInt8.ofNat (16 * m + n) :: bytes rest
    | _, _ => 0x25 :: bytes (a :: b :: rest)
  | c :: rest => String.utf8EncodeChar c ++ bytes rest

def decode (s : List Char) : List Char := Utf8.decodeReplacing (bytes s)

end OutlineIndex.Percent
