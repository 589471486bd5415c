import SignedHttp.Fault
import SignedHttp.Text.Blank
import SignedHttp.Text.Utf8

namespace SignedHttp.Text.Base64

/-- Why a text is not base64. Offsets count bytes. -/
inductive Fault where
  | symbol (byte : UInt8) (offset : Nat)
  | length (symbols : Nat)
  | padding
  | lastSymbol (byte : UInt8) (offset : Nat)
  deriving DecidableEq, Repr

def Fault.text : Fault → String
  | .symbol byte offset => s!"Invalid symbol {byte.toNat}, offset {offset}."
  | .length symbols => s!"Invalid input length: {symbols}"
  | .padding => "Invalid padding"
  | .lastSymbol byte offset => s!"Invalid last symbol {byte.toNat}, offset {offset}."

instance : Reportable Fault where
  fault f := ⟨.invalidArgument, "invalid base64: " ++ f.text⟩

def symbol (v : Nat) : UInt8 :=
  UInt8.ofNat
    (if v < 26 then 65 + v
    else if v < 52 then 71 + v
    else if v < 62 then v - 4
    else if v == 62 then 43
    else 47)

def value? (b : UInt8) : Option Nat :=
  let n := b.toNat
  if 65 ≤ n && n ≤ 90 then some (n - 65)
  else if 97 ≤ n && n ≤ 122 then some (n - 71)
  else if 48 ≤ n && n ≤ 57 then some (n + 4)
  else if n == 43 then some 62
  else if n == 47 then some 63
  else none

def pad : UInt8 := 61

def encodeBytes : Bytes → Bytes
  | [] => []
  | [a] => [symbol (a.toNat / 4), symbol (a.toNat % 4 * 16), pad, pad]
  | [a, b] =>
    [symbol (a.toNat / 4), symbol (a.toNat % 4 * 16 + b.toNat / 16),
      symbol (b.toNat % 16 * 4), pad]
  | a :: b :: c :: rest =>
    symbol (a.toNat / 4) :: symbol (a.toNat % 4 * 16 + b.toNat / 16) ::
      symbol (b.toNat % 16 * 4 + c.toNat / 64) :: symbol (c.toNat % 64) :: encodeBytes rest

def encode (bs : Bytes) : String :=
  String.ofList ((encodeBytes bs).map (fun b => Char.ofNat b.toNat))

def valueAt (b : UInt8) (offset : Nat) : Except Fault Nat :=
  match value? b with
  | some v => .ok v
  | none => .error (.symbol b offset)

/-- The values of the signs of the last quad, which stands at `start`, and the number of pads
after them. The first pad must not be among its first two signs, and no other sign follows it. -/
def lastValues (start : Nat) : List UInt8 → List Nat → Nat → Except Fault (List Nat × Nat)
  | [], values, pads => .ok (values, pads)
  | b :: rest, values, pads =>
    if b == pad then
      if values.length + pads < 2 then .error (.symbol b (start + values.length + pads))
      else lastValues start rest values (pads + 1)
    else if pads > 0 then .error (.symbol pad (start + values.length))
    else
      match value? b with
      | some v => lastValues start rest (values ++ [v]) 0
      | none => .error (.symbol b (start + values.length))

def decodeLast (start : Nat) (quad : Bytes) : Except Fault Bytes := do
  let (values, pads) ← lastValues start quad [] 0
  if values.length < 2 then throw (.length (start + values.length))
  if (values.length + pads) % 4 != 0 then throw .padding
  let last := (quad[values.length - 1]?).getD pad
  let unused : Except Fault Bytes := .error (.lastSymbol last (start + values.length - 1))
  match values with
  | [a, b] => if b % 16 == 0 then return [UInt8.ofNat (a * 4 + b / 16)] else unused
  | [a, b, c] =>
    if c % 4 == 0 then
      return [UInt8.ofNat (a * 4 + b / 16), UInt8.ofNat (b % 16 * 16 + c / 4)]
    else unused
  | [a, b, c, d] =>
    return [UInt8.ofNat (a * 4 + b / 16), UInt8.ofNat (b % 16 * 16 + c / 4),
      UInt8.ofNat (c % 4 * 64 + d)]
  | _ => throw .padding

def decodeQuads (start : Nat) : Bytes → Except Fault Bytes
  | a :: b :: c :: d :: e :: rest => do
    let a ← valueAt a start
    let b ← valueAt b (start + 1)
    let c ← valueAt c (start + 2)
    let d ← valueAt d (start + 3)
    let bs ← decodeQuads (start + 4) (e :: rest)
    return UInt8.ofNat (a * 4 + b / 16) :: UInt8.ofNat (b % 16 * 16 + c / 4) ::
      UInt8.ofNat (c % 4 * 64 + d) :: bs
  | [] => .ok []
  | quad => decodeLast start quad

/-- A text with one sign too many is refused for that sign when it belongs nowhere. -/
def lengthFault? (bs : Bytes) : Option Fault :=
  match bs.getLast? with
  | some b =>
    if bs.length % 4 == 1 && b != pad && (value? b).isNone then
      some (.symbol b (bs.length - 1))
    else none
  | none => none

def decodeBytes (bs : Bytes) : Except Fault Bytes :=
  match lengthFault? bs with
  | some fault => .error fault
  | none => decodeQuads 0 bs

/-- Decodes a text, white space around it ignored. -/
def decode (s : String) : Except Fault Bytes :=
  decodeBytes (Utf8.encode (trim s.toList))

end SignedHttp.Text.Base64
