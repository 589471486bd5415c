import SignedHttp.Crypto.Blocks

namespace SignedHttp.Crypto.Sha1

structure State where
  a : UInt32
  b : UInt32
  c : UInt32
  d : UInt32
  e : UInt32

def initial : State :=
  ⟨0x67452301, 0xefcdab89, 0x98badcfe, 0x10325476, 0xc3d2e1f0⟩

def rotl (x : UInt32) (n : UInt32) : UInt32 :=
  (x <<< n) ||| (x >>> (32 - n))

def nextWord (window : List UInt32) : UInt32 :=
  let w (i : Nat) := (window[i]?).getD 0
  rotl (w 13 ^^^ w 8 ^^^ w 2 ^^^ w 0) 1

def mix (round : Nat) (b c d : UInt32) : UInt32 :=
  if round < 20 then ((b &&& c) ||| (~~~b &&& d)) + 0x5a827999
  else if round < 40 then (b ^^^ c ^^^ d) + 0x6ed9eba1
  else if round < 60 then ((b &&& c) ||| (b &&& d) ||| (c &&& d)) + 0x8f1bbcdc
  else (b ^^^ c ^^^ d) + 0xca62c1d6

def step (s : State) (w : UInt32 × Nat) : State :=
  ⟨rotl s.a 5 + mix w.2 s.b s.c s.d + s.e + w.1, s.a, rotl s.b 30, s.c, s.d⟩

def compress (s : State) (block : List UInt32) : State :=
  let t := (schedule nextWord 64 block).zipIdx.foldl step s
  ⟨s.a + t.a, s.b + t.b, s.c + t.c, s.d + t.d, s.e + t.e⟩

def digest (message : Bytes) : Bytes :=
  let s := (wordBlocks 4 UInt32.ofNat message).foldl compress initial
  [s.a, s.b, s.c, s.d, s.e].flatMap (fun w => toBytes 4 w.toNat)

end SignedHttp.Crypto.Sha1
