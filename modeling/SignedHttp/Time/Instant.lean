import SignedHttp.Time.Duration

namespace SignedHttp

structure Instant where
  nanos : Int
  earliest_le : -8334601228800000000000 ≤ nanos := by decide
  le_latest : nanos ≤ 8210266876799999999999 := by decide
  deriving DecidableEq

namespace Instant

theorem ext {s t : Instant} (h : s.nanos = t.nanos) : s = t := by
  cases s
  cases t
  simp_all

def earliest : Instant := ⟨-8334601228800000000000, by decide, by decide⟩

def latest : Instant := ⟨8210266876799999999999, by decide, by decide⟩

instance : Inhabited Instant := ⟨⟨0, by decide, by decide⟩⟩

def ofNanos? (n : Int) : Option Instant :=
  if h : earliest.nanos ≤ n ∧ n ≤ latest.nanos then some ⟨n, h.1, h.2⟩ else none

def ofSeconds? (s : Int) : Option Instant :=
  ofNanos? (s * 1000000000)

/-- The instant nearest to a number of nanoseconds. -/
def clamped (n : Int) : Instant :=
  ⟨max (-8334601228800000000000) (min n 8210266876799999999999), by omega, by omega⟩

def seconds (t : Instant) : Int :=
  t.nanos / 1000000000

def subsecond (t : Instant) : Nat :=
  (t.nanos % 1000000000).toNat

def wholeSeconds (t : Instant) : Instant :=
  ⟨t.nanos - t.nanos % 1000000000, by have := t.earliest_le; omega, by have := t.le_latest; omega⟩

def shift? (t : Instant) (offset : Int) : Option Instant :=
  ofNanos? (t.nanos + offset)

/-- The instant a duration later, or the latest one. -/
def later (t : Instant) (d : Duration) : Instant :=
  clamped (t.nanos + d.nanos)

/-- The instant a duration earlier, or the earliest one. -/
def sooner (t : Instant) (d : Duration) : Instant :=
  clamped (t.nanos - d.nanos)

instance : LE Instant := ⟨fun s t => s.nanos ≤ t.nanos⟩

instance : LT Instant := ⟨fun s t => s.nanos < t.nanos⟩

instance (s t : Instant) : Decidable (s ≤ t) := inferInstanceAs (Decidable (s.nanos ≤ t.nanos))

instance (s t : Instant) : Decidable (s < t) := inferInstanceAs (Decidable (s.nanos < t.nanos))

theorem le_def {s t : Instant} : s ≤ t ↔ s.nanos ≤ t.nanos := Iff.rfl

theorem lt_def {s t : Instant} : s < t ↔ s.nanos < t.nanos := Iff.rfl

theorem ofNanos?_nanos (t : Instant) : ofNanos? t.nanos = some t := by
  simp [ofNanos?, earliest, latest, t.earliest_le, t.le_latest]

theorem nanos_clamped (n : Int) :
    (clamped n).nanos = max earliest.nanos (min n latest.nanos) := rfl

end Instant

end SignedHttp
