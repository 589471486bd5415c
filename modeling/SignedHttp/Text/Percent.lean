import SignedHttp.Text.Hex

namespace SignedHttp.Text.Percent

def isAscii (b : UInt8) : Bool :=
  b.toNat < 128

def digit? (b : UInt8) : Option Nat :=
  hexValue? (Char.ofNat b.toNat)

def escaped? (mark high low : UInt8) : Option UInt8 :=
  if mark == 37 then do
    let h ← digit? high
    let l ← digit? low
    return UInt8.ofNat (16 * h + l)
  else none

/-- Replaces every `%` and two hexadecimal digits by the byte they name. Other signs stay. -/
def decodeBytes : Bytes → Bytes
  | a :: b :: c :: rest =>
    match escaped? a b c with
    | some byte => byte :: decodeBytes rest
    | none => a :: decodeBytes (b :: c :: rest)
  | a :: rest => a :: decodeBytes rest
  | [] => []

def decode (cs : List Char) : List Char :=
  Utf8.decodeLossy (decodeBytes (Utf8.encode cs))

/-- A byte as it stands when `keep` holds of its character, else as `%` and two digits. -/
def encodeByte (keep : Char → Bool) (b : UInt8) : List Char :=
  if isAscii b && keep (Char.ofNat b.toNat) then [Char.ofNat b.toNat]
  else ['%', upperHexDigit (b.toNat / 16), upperHexDigit (b.toNat % 16)]

def encode (keep : Char → Bool) (cs : List Char) : List Char :=
  (Utf8.encode cs).flatMap (encodeByte keep)

end SignedHttp.Text.Percent
