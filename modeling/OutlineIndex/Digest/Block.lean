namespace OutlineIndex.Digest

def hexDigit (n : Nat) : Char := if n < 10 then Char.ofNat (48 + n) else Char.ofNat (87 + n)

/-- Two lower-case digits a byte. -/
def hex (bytes : List UInt8) : List Char :=
  bytes.flatMap fun b => [hexDigit (b.toNat / 16), hexDigit (b.toNat % 16)]

/-- The `n` low bytes, most significant first. -/
def bigEndian : Nat → Nat → List UInt8
  | 0, _ => []
  | n + 1, v => bigEndian n (v / 256) ++ [UInt8.ofNat (v % 256)]

def word32 (bytes : List UInt8) : UInt32 := bytes.foldl (fun w b => w * 256 + b.toUInt32) 0

/-- Consecutive pieces of `k + 1` items. -/
def pieces {α : Type} (k : Nat) : Nat → List α → List (List α)
  | 0, _ => []
  | _, [] => []
  | fuel + 1, x :: xs => (x :: xs.take k) :: pieces k fuel (xs.drop k)

/-- One set bit, zeros up to eight bytes before a block's end, then the length in bits. -/
def pad (bytes : List UInt8) : List UInt8 :=
  let zeros := (119 - bytes.length % 64) % 64
  bytes ++ 0x80 :: (List.replicate zeros 0 ++ bigEndian 8 (8 * bytes.length))

/-- The padded message as blocks of sixteen words. -/
def blocks (bytes : List UInt8) : List (Array UInt32) :=
  let padded := pad bytes
  (pieces 63 padded.length padded).map fun block =>
    ((pieces 3 block.length block).map word32).toArray

def rotateLeft (w : UInt32) (n : UInt32) : UInt32 := (w <<< n) ||| (w >>> (32 - n))

def rotateRight (w : UInt32) (n : UInt32) : UInt32 := (w >>> n) ||| (w <<< (32 - n))

/-- A block's words followed by `count` further ones, each computed from those before it. -/
def extend (next : Array UInt32 → UInt32) (count : Nat) (block : Array UInt32) : Array UInt32 :=
  count.fold (fun _ _ ws => ws.push (next ws)) block

/-- The word `k` places before the end. -/
def back (ws : Array UInt32) (k : Nat) : UInt32 := ws.getD (ws.size - k) 0

end OutlineIndex.Digest
