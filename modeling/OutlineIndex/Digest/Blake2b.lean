import OutlineIndex.Digest.Block

namespace OutlineIndex.Digest

def blakeStart : Array UInt64 := #[
  0x6a09e667f3bcc908, 0xbb67ae8584caa73b, 0x3c6ef372fe94f82b, 0xa54ff53a5f1d36f1,
  0x510e527fade682d1, 0x9b05688c2b3e6c1f, 0x1f83d9abfb41bd6b, 0x5be0cd19137e2179]

/-- The order in which each of the ten distinct rounds reads the message words. -/
def blakeOrder : Array (Array Nat) := #[
  #[0, 1, 2, 3, 4, 5, 6, 7, 8, 9, 10, 11, 12, 13, 14, 15],
  #[14, 10, 4, 8, 9, 15, 13, 6, 1, 12, 0, 2, 11, 7, 5, 3],
  #[11, 8, 12, 0, 5, 2, 15, 13, 10, 14, 3, 6, 7, 1, 9, 4],
  #[7, 9, 3, 1, 13, 12, 11, 14, 2, 6, 5, 10, 4, 0, 15, 8],
  #[9, 0, 5, 7, 2, 4, 10, 15, 14, 1, 11, 12, 6, 8, 3, 13],
  #[2, 12, 6, 10, 0, 11, 8, 3, 4, 13, 7, 5, 15, 14, 1, 9],
  #[12, 5, 1, 15, 14, 13, 4, 10, 0, 7, 6, 3, 9, 2, 8, 11],
  #[13, 11, 7, 14, 12, 1, 3, 9, 5, 0, 15, 4, 8, 6, 2, 10],
  #[6, 15, 14, 9, 11, 3, 0, 8, 12, 2, 13, 7, 1, 4, 10, 5],
  #[10, 2, 8, 4, 7, 6, 1, 5, 15, 11, 9, 14, 3, 12, 13, 0]]

/-- The four words that each mixing step of a round touches. -/
def blakeQuads : List (Nat × Nat × Nat × Nat) :=
  [(0, 4, 8, 12), (1, 5, 9, 13), (2, 6, 10, 14), (3, 7, 11, 15),
    (0, 5, 10, 15), (1, 6, 11, 12), (2, 7, 8, 13), (3, 4, 9, 14)]

def rotateRight64 (w n : UInt64) : UInt64 := (w >>> n) ||| (w <<< (64 - n))

def blakeMix (v : Array UInt64) (quad : Nat × Nat × Nat × Nat) (x y : UInt64) : Array UInt64 :=
  let (ia, ib, ic, id) := quad
  let a := v.getD ia 0 + v.getD ib 0 + x
  let d := rotateRight64 (v.getD id 0 ^^^ a) 32
  let c := v.getD ic 0 + d
  let b := rotateRight64 (v.getD ib 0 ^^^ c) 24
  let a := a + b + y
  let d := rotateRight64 (d ^^^ a) 16
  let c := c + d
  let b := rotateRight64 (b ^^^ c) 63
  (((v.setIfInBounds ia a).setIfInBounds ib b).setIfInBounds ic c).setIfInBounds id d

def blakeRound (m : Array UInt64) (i : Nat) (v : Array UInt64) : Array UInt64 :=
  let order := blakeOrder.getD (i % 10) #[]
  blakeQuads.zipIdx.foldl
    (fun v (quad, k) =>
      blakeMix v quad (m.getD (order.getD (2 * k) 0) 0) (m.getD (order.getD (2 * k + 1) 0) 0)) v

/-- One block of 128 bytes; `seen` counts the message bytes up to the end of the block. -/
def blakeCompress (h : Array UInt64) (block : List UInt8) (seen : Nat) (last : Bool) :
    Array UInt64 :=
  let full := block ++ List.replicate (128 - block.length) 0
  let m := ((pieces 7 128 full).map fun bytes =>
    bytes.foldr (fun b (w : UInt64) => w * 256 + b.toUInt64) 0).toArray
  let tail := blakeStart.setIfInBounds 4 (blakeStart.getD 4 0 ^^^ UInt64.ofNat seen)
  let tail := if last then tail.setIfInBounds 6 (~~~(tail.getD 6 0)) else tail
  let v := Nat.fold 12 (fun i _ v => blakeRound m i v) (h ++ tail)
  h.mapIdx fun i w => w ^^^ v.getD i 0 ^^^ v.getD (i + 8) 0

def blakeFold (h : Array UInt64) (seen : Nat) : List (List UInt8) → Array UInt64
  | [] => blakeCompress h [] seen true
  | [block] => blakeCompress h block (seen + block.length) true
  | block :: rest =>
    blakeFold (blakeCompress h block (seen + block.length) false) (seen + block.length) rest

def blake2b (size : Nat) (bytes : List UInt8) : List UInt8 :=
  let h := blakeStart.setIfInBounds 0 (blakeStart.getD 0 0 ^^^ (0x01010000 + UInt64.ofNat size))
  let out := blakeFold h 0 (pieces 127 bytes.length bytes)
  (out.toList.flatMap fun w => (bigEndian 8 w.toNat).reverse).take size

end OutlineIndex.Digest
