import SignedHttp.Crypto.Blocks
import SignedHttp.Crypto.Modular

namespace SignedHttp.Crypto.P256

def p : Nat := 0xffffffff00000001000000000000000000000000ffffffffffffffffffffffff

def order : Nat := 0xffffffff00000000ffffffffffffffffbce6faada7179e84f3b9cac2fc632551

/-- The constant of the curve `y² = x³ - 3x + b`. -/
def b : Nat := 0x5ac635d8aa3a93e7b3ebbd55769886bc651d06b0cc53b0f63bce3c3e27d2604b

structure Point where
  x : Nat
  y : Nat
  deriving DecidableEq, Repr

def generator : Point :=
  ⟨0x6b17d1f2e12c4247f8bce6e563a440f277037d812deb33a0f4a13945d898c296,
    0x4fe342e2fe1a7f9b8ee7eb4a7c0f9e162bce33576b315ececbb6406837bf51f5⟩

def square (x : Nat) : Nat :=
  (x * x * x + b + (p - 3) * x) % p

def onCurve (q : Point) : Bool :=
  q.x < p && q.y < p && q.y * q.y % p == square q.x

/-- The third point of the line with the given slope through two points, mirrored. -/
def third (slope : Nat) (q r : Point) : Point :=
  let x := (slope * slope + 2 * p - q.x - r.x) % p
  ⟨x, subMod p (slope * subMod p q.x x % p) q.y⟩

/-- The group law; `none` is the point at infinity. -/
def add : Option Point → Option Point → Option Point
  | none, r => r
  | q, none => q
  | some q, some r =>
    if q.x == r.x then
      if (q.y + r.y) % p == 0 then none
      else some (third ((3 * q.x * q.x + p - 3) * invMod p (2 * q.y) % p) q r)
    else some (third (subMod p r.y q.y * invMod p (subMod p r.x q.x) % p) q r)

def times (k : Nat) (q : Option Point) : Option Point :=
  if k = 0 then none
  else
    let half := times (k / 2) (add q q)
    if k % 2 == 1 then add q half else half
termination_by k
decreasing_by omega

/-- The uncompressed form: a tag and both coordinates. -/
def encode (q : Point) : Bytes :=
  0x04 :: toBytes 32 q.x ++ toBytes 32 q.y

/-- The points over `x`, if any: the one with the smaller ordinate first. -/
def over? (x : Nat) : Option (Point × Point) :=
  let y := powMod p (square x) ((p + 1) / 4)
  if x < p && y * y % p == square x then
    let mirrored := subMod p 0 y
    if y ≤ mirrored then some (⟨x, y⟩, ⟨x, mirrored⟩) else some (⟨x, mirrored⟩, ⟨x, y⟩)
  else none

/-- Reads a point in uncompressed or compressed form, or from its abscissa alone, which means the
smaller ordinate. The point at infinity is none. -/
def decode? : Bytes → Option Point
  | [] => none
  | tag :: rest =>
    if tag == 0x04 && rest.length == 64 then
      let q : Point := ⟨ofBytes (rest.take 32), ofBytes (rest.drop 32)⟩
      if onCurve q then some q else none
    else if (tag == 0x02 || tag == 0x03 || tag == 0x05) && rest.length == 32 then
      (over? (ofBytes rest)).map (fun (low, high) =>
        if tag == 0x05 || low.y % 2 == tag.toNat % 2 then low else high)
    else none

end SignedHttp.Crypto.P256
