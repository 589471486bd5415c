import SignedHttp.Text.Decimal

namespace SignedHttp

abbrev billion : Nat := 1000000000

/-- A length of time. Its whole seconds fit 64 bits. -/
structure Duration where
  nanos : Nat
  lt_bound : nanos < 0x10000000000000000 * billion := by decide
  deriving DecidableEq

namespace Duration

instance : Inhabited Duration := ⟨⟨0, by decide⟩⟩

def longest : Duration :=
  ⟨0x10000000000000000 * billion - 1, by decide⟩

/-- The length nearest to a number of nanoseconds. -/
def ofNanos (n : Nat) : Duration :=
  if h : n < 0x10000000000000000 * billion then ⟨n, h⟩ else longest

def ofSeconds (n : Nat) : Duration :=
  ofNanos (n * billion)

def ofMillis (n : Nat) : Duration :=
  ofNanos (n * 1000000)

def seconds (d : Duration) : Nat :=
  d.nanos / billion

def subsecond (d : Duration) : Nat :=
  d.nanos % billion

def isZero (d : Duration) : Bool :=
  d.nanos == 0

/-- Twice the length, or the longest one. -/
def doubled (d : Duration) : Duration :=
  ofNanos (2 * d.nanos)

/-- Whole milliseconds, a part of one counting as one. -/
def millisUp (d : Duration) : Nat :=
  (d.nanos + 999999) / 1000000

def micros (d : Duration) : Nat :=
  d.nanos / 1000

/-- The text of a length of at least a second: seconds, and the fraction in as few digits as it
has. -/
def text (d : Duration) : String :=
  let fraction := ((Text.padded 9 d.subsecond).reverse.dropWhile (· == '0')).reverse
  toString d.seconds ++ (if fraction.isEmpty then "" else "." ++ String.ofList fraction) ++ "s"

theorem nanos_ofNanos (n : Nat) : (ofNanos n).nanos = min n (0x10000000000000000 * billion - 1) := by
  unfold ofNanos longest
  split <;> simp <;> omega

end Duration

end SignedHttp
