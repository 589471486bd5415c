import SignedHttp.Crypto.P256
import SignedHttp.Hash

namespace SignedHttp.Crypto.Ecdsa

open P256 (order)

/-- A private key is a number from one to the order of the group less one. -/
def usable (d : Nat) : Bool :=
  0 < d && d < order

def publicPoint? (d : Nat) : Option P256.Point :=
  P256.times d (some P256.generator)

/-- The leftmost 32 bytes of a digest, zeros in front of a shorter one. -/
def truncated (digest : Bytes) : Bytes :=
  List.replicate (32 - digest.length) 0 ++ digest.take 32

def mac (key message : Bytes) : Bytes :=
  Hash.sha256.hmac key message

structure Generator where
  key : Bytes
  value : Bytes

def Generator.stir (g : Generator) (material : Bytes) : Generator :=
  let key := mac g.key (g.value ++ material)
  ⟨key, mac key g.value⟩

def Generator.start (d : Nat) (z : Bytes) : Generator :=
  let seed := toBytes 32 d ++ z
  let g : Generator := ⟨List.replicate 32 0, List.replicate 32 1⟩
  (g.stir (0 :: seed)).stir (1 :: seed)

/-- The first drawn number that is a private key, if one of the first `fuel` draws is. All but
one in 2³² draws are. -/
def Generator.draw? : Nat → Generator → Option Nat
  | 0, _ => none
  | fuel + 1, g =>
    let value := mac g.key g.value
    let k := ofBytes value
    if usable k then some k else draw? fuel (Generator.stir ⟨g.key, value⟩ [0])

def sign? (d : Nat) (digest : Bytes) : Option Bytes := do
  let z := truncated digest
  let k ← Generator.draw? 64 (Generator.start d z)
  let q ← publicPoint? k
  let r := q.x % order
  let s := invMod order k * (ofBytes z + r * d) % order
  if r == 0 || s == 0 then none else some (toBytes 32 r ++ toBytes 32 s)

def verify (key : P256.Point) (digest signature : Bytes) : Bool :=
  let r := ofBytes (signature.take 32)
  let s := ofBytes (signature.drop 32)
  if signature.length == 64 && usable r && usable s then
    let w := invMod order s
    let u := ofBytes (truncated digest) * w % order
    let v := r * w % order
    match P256.add (P256.times u (some P256.generator)) (P256.times v (some key)) with
    | some q => q.x % order == r
    | none => false
  else false

end SignedHttp.Crypto.Ecdsa
