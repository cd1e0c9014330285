namespace OutlineIndex.Utf8

def encode (text : List Char) : List UInt8 := text.flatMap String.utf8EncodeChar

/-- A character under construction: the bits read so far, the bytes still owed, and the bounds of
the next byte. -/
structure Partial where
  bits : Nat
  owed : Nat
  low : UInt8
  high : UInt8

/-- What a byte says when no character is under construction. -/
inductive Lead where
  | char (c : Char)
  | begins (p : Partial)
  | bad

def lead (b : UInt8) : Lead :=
  if b < 0x80 then .char (Char.ofNat b.toNat)
  else if b < 0xC2 then .bad
  else if b < 0xE0 then .begins ⟨b.toNat - 0xC0, 1, 0x80, 0xBF⟩
  else if b < 0xF0 then
    .begins ⟨b.toNat - 0xE0, 2, if b = 0xE0 then 0xA0 else 0x80, if b = 0xED then 0x9F else 0xBF⟩
  else if b < 0xF5 then
    .begins ⟨b.toNat - 0xF0, 3, if b = 0xF0 then 0x90 else 0x80, if b = 0xF4 then 0x8F else 0xBF⟩
  else .bad

/-- The characters of a byte list, `none` standing for an ill-formed run. -/
def decodeFrom : Option Partial → List UInt8 → List (Option Char)
  | none, [] => []
  | some _, [] => [none]
  | none, b :: bs =>
    match lead b with
    | .char c => some c :: decodeFrom none bs
    | .begins p => decodeFrom (some p) bs
    | .bad => none :: decodeFrom none bs
  | some p, b :: bs =>
    if p.low ≤ b ∧ b ≤ p.high then
      let bits := p.bits * 64 + (b.toNat - 0x80)
      if p.owed ≤ 1 then some (Char.ofNat bits) :: decodeFrom none bs
      else decodeFrom (some ⟨bits, p.owed - 1, 0x80, 0xBF⟩) bs
    else
      none :: match lead b with
        | .char c => some c :: decodeFrom none bs
        | .begins q => decodeFrom (some q) bs
        | .bad => none :: decodeFrom none bs

def decode (bytes : List UInt8) : List (Option Char) := decodeFrom none bytes

/-- Ill-formed runs are dropped. -/
def decodeDropping (bytes : List UInt8) : List Char := (decode bytes).filterMap id

/-- Each ill-formed run is replaced by U+FFFD. -/
def decodeReplacing (bytes : List UInt8) : List Char := (decode bytes).map (·.getD '�')

end OutlineIndex.Utf8
