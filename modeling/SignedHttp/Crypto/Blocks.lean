import SignedHttp.Text.Utf8

namespace SignedHttp.Crypto

/-- The number that bytes spell, the first one weighing most. -/
def ofBytes (bs : Bytes) : Nat :=
  bs.foldl (fun n b => 256 * n + b.toNat) 0

/-- The last `len` bytes of `n`, the one that weighs most first. -/
def toBytes (len n : Nat) : Bytes :=
  match len with
  | 0 => []
  | len + 1 => toBytes len (n / 256) ++ [UInt8.ofNat n]

def byteLength (n : Nat) : Nat :=
  if n = 0 then 0 else n.log2 / 8 + 1

/-- The bytes of `n` without leading zeros; none for zero. -/
def minimalBytes (n : Nat) : Bytes :=
  toBytes (byteLength n) n

/-- Pieces of `size` items, the last one possibly shorter. A size of zero counts as one. -/
def pieces {α : Type} (size : Nat) : List α → List (List α)
  | [] => []
  | x :: xs => (x :: xs.take (size - 1)) :: pieces size (xs.drop (size - 1))
termination_by xs => xs.length
decreasing_by
  simp only [List.length_drop, List.length_cons]
  omega

/-- A message, a one bit, zeros, and the number of bits of the message in `counter` bytes: a
whole number of blocks. -/
def strengthened (block counter : Nat) (message : Bytes) : Bytes :=
  let used := message.length + 1 + counter
  let zeros := (block - used % block) % block
  message ++ 0x80 :: List.replicate zeros 0 ++ toBytes counter (8 * message.length)

def wordBlocks {ω : Type} (wordBytes : Nat) (ofNat : Nat → ω) (message : Bytes) :
    List (List ω) :=
  let padded := strengthened (16 * wordBytes) (2 * wordBytes) message
  (pieces (16 * wordBytes) padded).map (fun block =>
    (pieces wordBytes block).map (fun w => ofNat (ofBytes w)))

/-- The words of a block and `more` further ones, each computed from the sixteen before it. -/
def schedule {ω : Type} (next : List ω → ω) : Nat → List ω → List ω
  | 0, window => window
  | more + 1, w :: window => w :: schedule next more (window ++ [next (w :: window)])
  | _ + 1, [] => []

end SignedHttp.Crypto
