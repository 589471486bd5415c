import SignedHttp.Crypto.Aes

namespace SignedHttp.Crypto.Gcm

def nonceLength : Nat := 12

def tagLength : Nat := 16

/-- One more factor `x` in GF(2¹²⁸), whose coefficient of `x⁰` is the highest bit. -/
def timesX (v : Nat) : Nat :=
  if v % 2 == 0 then v / 2 else (v / 2) ^^^ (0xe1 <<< 120)

/-- The product of `y` and `v` over the lowest `bits` coefficients still to be read of `y`. -/
def product (y : Nat) : Nat → Nat → Nat → Nat
  | 0, _, acc => acc
  | bits + 1, v, acc => product y bits (timesX v) (if y.testBit bits then acc ^^^ v else acc)

def multiply (x y : Nat) : Nat :=
  product y 128 x 0

def ghash (h : Nat) (blocks : List Bytes) : Nat :=
  blocks.foldl (fun y block => multiply (y ^^^ ofBytes block) h) 0

def zeroFilled (block : Bytes) : Bytes :=
  block ++ List.replicate (16 - block.length) 0

def counterBlock (nonce : Bytes) (i : Nat) : Bytes :=
  nonce ++ toBytes 4 (i + 1)

/-- Encrypts and decrypts: the text combined with the encrypted counter blocks. -/
def combine (key nonce text : Bytes) : Bytes :=
  ((pieces 16 text).zipIdx.map (fun (block, i) =>
    Aes.xor block (Aes.encryptBlock key (counterBlock nonce (i + 1))))).flatten

def tag (key nonce ciphertext : Bytes) : Bytes :=
  let h := ofBytes (Aes.encryptBlock key (List.replicate 16 0))
  let lengths := toBytes 8 0 ++ toBytes 8 (8 * ciphertext.length)
  let sum := ghash h ((pieces 16 ciphertext).map zeroFilled ++ [lengths])
  Aes.xor (toBytes 16 sum) (Aes.encryptBlock key (counterBlock nonce 0))

def encrypt (key nonce plain : Bytes) : Bytes :=
  let ciphertext := combine key nonce plain
  ciphertext ++ tag key nonce ciphertext

/-- Undoes `encrypt`; `none` when the tag does not fit. -/
def decrypt? (key nonce locked : Bytes) : Option Bytes :=
  if locked.length < tagLength then none
  else
    let ciphertext := locked.take (locked.length - tagLength)
    if tag key nonce ciphertext == locked.drop (locked.length - tagLength) then
      some (combine key nonce ciphertext)
    else none

end SignedHttp.Crypto.Gcm
