import SignedHttp.Crypto.Modular
import SignedHttp.Hash

namespace SignedHttp.Crypto.Rsa

structure PublicKey where
  modulus : Nat
  exponent : Nat
  deriving DecidableEq, Repr

structure PrivateKey where
  publicHalf : PublicKey
  exponent : Nat
  deriving DecidableEq, Repr

def PublicKey.size (key : PublicKey) : Nat :=
  byteLength key.modulus

def PublicKey.usable (key : PublicKey) : Bool :=
  key.modulus < 1 <<< 4096 && key.exponent < key.modulus && key.modulus % 2 == 1 &&
    key.exponent % 2 == 1 && 2 ≤ key.exponent && key.exponent < 0x200000000

/-- What stands before a digest to name its hash function. -/
def digestInfo : Hash → Bytes
  | .sha1 => [0x30, 0x21, 0x30, 0x09, 0x06, 0x05, 0x2b, 0x0e, 0x03, 0x02, 0x1a, 0x05, 0x00, 0x04,
    0x14]
  | .sha256 => [0x30, 0x31, 0x30, 0x0d, 0x06, 0x09, 0x60, 0x86, 0x48, 0x01, 0x65, 0x03, 0x04,
    0x02, 0x01, 0x05, 0x00, 0x04, 0x20]
  | .sha384 => [0x30, 0x41, 0x30, 0x0d, 0x06, 0x09, 0x60, 0x86, 0x48, 0x01, 0x65, 0x03, 0x04,
    0x02, 0x02, 0x05, 0x00, 0x04, 0x30]
  | .sha512 => [0x30, 0x51, 0x30, 0x0d, 0x06, 0x09, 0x60, 0x86, 0x48, 0x01, 0x65, 0x03, 0x04,
    0x02, 0x03, 0x05, 0x00, 0x04, 0x40]

def encoded? (hash : Hash) (size : Nat) (message : Bytes) : Option Bytes :=
  let info := digestInfo hash ++ hash.digest message
  if size < info.length + 11 then none
  else some (0x00 :: 0x01 :: List.replicate (size - info.length - 3) 0xff ++ 0x00 :: info)

/-- There is none when the modulus is too short for the hash. -/
def sign? (key : PrivateKey) (hash : Hash) (message : Bytes) : Option Bytes :=
  (encoded? hash key.publicHalf.size message).map (fun m =>
    toBytes key.publicHalf.size (powMod key.publicHalf.modulus (ofBytes m) key.exponent))

/-- A signature has the length of the modulus and is, as a number, below it. -/
def verify (key : PublicKey) (hash : Hash) (message signature : Bytes) : Bool :=
  let s := ofBytes signature
  signature.length == key.size && s < key.modulus &&
    encoded? hash key.size message == some (toBytes key.size (powMod key.modulus s key.exponent))

end SignedHttp.Crypto.Rsa
