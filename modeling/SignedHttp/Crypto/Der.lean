import SignedHttp.Crypto.Rsa

namespace SignedHttp.Crypto.Der

def sequenceTag : UInt8 := 0x30
def integerTag : UInt8 := 0x02
def bitStringTag : UInt8 := 0x03

/-- The algorithm identifier of RSA keys: its object identifier and the parameters `NULL`. -/
def rsaIdentifier : Bytes :=
  [0x06, 0x09, 0x2a, 0x86, 0x48, 0x86, 0xf7, 0x0d, 0x01, 0x01, 0x01, 0x05, 0x00]

def lengthBytes (n : Nat) : Bytes :=
  if n < 0x80 then [UInt8.ofNat n]
  else UInt8.ofNat (0x80 + byteLength n) :: minimalBytes n

def element (tag : UInt8) (value : Bytes) : Bytes :=
  tag :: lengthBytes value.length ++ value

/-- An unsigned integer: a zero byte in front keeps the sign bit clear. -/
def unsigned (n : Nat) : Bytes :=
  match minimalBytes n with
  | [] => [0]
  | b :: bs => if b ≥ 0x80 then 0 :: b :: bs else b :: bs

def encodeKey (key : Rsa.PublicKey) : Bytes :=
  let body := element sequenceTag
    (element integerTag (unsigned key.modulus) ++ element integerTag (unsigned key.exponent))
  element sequenceTag (element sequenceTag rsaIdentifier ++ element bitStringTag (0 :: body))

/-- Reads a length in its shortest form, of at most four bytes. -/
def readLength? : Bytes → Option (Nat × Bytes)
  | [] => none
  | b :: rest =>
    if b < 0x80 then some (b.toNat, rest)
    else
      let size := b.toNat - 0x80
      let n := ofBytes (rest.take size)
      if size == 0 || size > 4 || rest.length < size || lengthBytes n != b :: rest.take size then
        none
      else some (n, rest.drop size)

def readElement? (tag : UInt8) : Bytes → Option (Bytes × Bytes)
  | [] => none
  | b :: rest => do
    if b != tag then none
    let (n, rest) ← readLength? rest
    if rest.length < n then none
    return (rest.take n, rest.drop n)

def readWhole? (tag : UInt8) (bs : Bytes) : Option Bytes := do
  let (value, rest) ← readElement? tag bs
  if rest.isEmpty then some value else none

/-- Reads an unsigned integer in its shortest form. -/
def readUnsigned? (bs : Bytes) : Option (Nat × Bytes) := do
  let (value, rest) ← readElement? integerTag bs
  let n := ofBytes value
  if unsigned n == value then some (n, rest) else none

def decodeKey? (bs : Bytes) : Option Rsa.PublicKey := do
  let info ← readWhole? sequenceTag bs
  let (identifier, rest) ← readElement? sequenceTag info
  if identifier != rsaIdentifier then none
  match ← readWhole? bitStringTag rest with
  | 0 :: body =>
    let numbers ← readWhole? sequenceTag body
    let (modulus, rest) ← readUnsigned? numbers
    let (exponent, rest) ← readUnsigned? rest
    let key : Rsa.PublicKey := ⟨modulus, exponent⟩
    if rest.isEmpty && key.usable then some key else none
  | _ => none

end SignedHttp.Crypto.Der
