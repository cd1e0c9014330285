import OutlineIndex.Digest.Block

namespace OutlineIndex.Digest

structure Sha1State where
  a : UInt32
  b : UInt32
  c : UInt32
  d : UInt32
  e : UInt32

namespace Sha1State

def start : Sha1State := ⟨0x67452301, 0xEFCDAB89, 0x98BADCFE, 0x10325476, 0xC3D2E1F0⟩

def add (s t : Sha1State) : Sha1State := ⟨s.a + t.a, s.b + t.b, s.c + t.c, s.d + t.d, s.e + t.e⟩

def round (i : Nat) (w : UInt32) (s : Sha1State) : Sha1State :=
  let (f, k) : UInt32 × UInt32 :=
    if i < 20 then ((s.b &&& s.c) ||| (~~~s.b &&& s.d), 0x5A827999)
    else if i < 40 then (s.b ^^^ s.c ^^^ s.d, 0x6ED9EBA1)
    else if i < 60 then ((s.b &&& s.c) ||| (s.b &&& s.d) ||| (s.c &&& s.d), 0x8F1BBCDC)
    else (s.b ^^^ s.c ^^^ s.d, 0xCA62C1D6)
  ⟨rotateLeft s.a 5 + f + s.e + k + w, s.a, rotateLeft s.b 30, s.c, s.d⟩

def compress (s : Sha1State) (block : Array UInt32) : Sha1State :=
  let words := extend
    (fun ws => rotateLeft (back ws 3 ^^^ back ws 8 ^^^ back ws 14 ^^^ back ws 16) 1) 64 block
  s.add ((Nat.fold 80 (fun i _ t => round i (words.getD i 0) t) s))

end Sha1State

def sha1 (bytes : List UInt8) : List UInt8 :=
  let s := (blocks bytes).foldl Sha1State.compress .start
  [s.a, s.b, s.c, s.d, s.e].flatMap fun w => bigEndian 4 w.toNat

end OutlineIndex.Digest
