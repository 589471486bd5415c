import SignedHttp.Text.Utf8

namespace SignedHttp.Text

def hexValue? (c : Char) : Option Nat :=
  if '0' ≤ c && c ≤ '9' then some (c.toNat - 48)
  else if 'a' ≤ c && c ≤ 'f' then some (c.toNat - 87)
  else if 'A' ≤ c && c ≤ 'F' then some (c.toNat - 55)
  else none

def upperHexDigit (d : Nat) : Char :=
  d.digitChar.toUpper

/-- Two lower-case digits a byte. -/
def hex (bs : Bytes) : List Char :=
  bs.flatMap (fun b => [Nat.digitChar (b.toNat / 16), Nat.digitChar (b.toNat % 16)])

/-- Reads pairs of digits of either case. -/
def ofHex? : List Char → Option Bytes
  | [] => some []
  | [_] => none
  | a :: b :: rest => do
    let high ← hexValue? a
    let low ← hexValue? b
    let bs ← ofHex? rest
    return UInt8.ofNat (16 * high + low) :: bs

end SignedHttp.Text
