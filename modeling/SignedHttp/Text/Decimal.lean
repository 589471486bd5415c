namespace SignedHttp.Text

def signedDigits (n : Int) : List Char :=
  if n < 0 then '-' :: Nat.toDigits 10 n.natAbs else Nat.toDigits 10 n.natAbs

def signedDecimal (n : Int) : String :=
  String.ofList (signedDigits n)

/-- At least `width` characters, zeros in front. -/
def padded (width n : Nat) : List Char :=
  (Nat.toDigits 10 n).leftpad width '0'

/-- Reads one or more ASCII digits and nothing else. -/
def natural? (cs : List Char) : Option Nat :=
  if !cs.isEmpty && cs.all Char.isDigit then some (Nat.ofDigitChars 10 cs 0) else none

/-- Reads an optional sign and digits. -/
def integer? : List Char → Option Int
  | '+' :: cs => (natural? cs).map Int.ofNat
  | '-' :: cs => (natural? cs).map (fun n => -Int.ofNat n)
  | cs => (natural? cs).map Int.ofNat

/-- Reads a signed 64-bit number; a larger one is no number. -/
def int64? (s : String) : Option Int :=
  (integer? s.toList).filter (fun n => -0x8000000000000000 ≤ n && n < 0x8000000000000000)

/-- Reads an unsigned 64-bit number. A plus sign may stand in front, a minus sign may not. -/
def uint64? (s : String) : Option Nat :=
  let number :=
    match s.toList with
    | '+' :: cs => natural? cs
    | cs => natural? cs
  number.filter (· < 0x10000000000000000)

end SignedHttp.Text
