import SignedHttp.Time.Instant

namespace SignedHttp

/-- Purges after a number of requests, or after a time. -/
structure Periodic where
  every : UInt32
  period : Duration
  count : UInt32
  since : Int
  deriving DecidableEq

namespace Periodic

def start (every : UInt32) (period : Duration) (now : Instant) : Periodic :=
  ⟨every, period, 0, now.seconds⟩

/-- Whether the period is over. It is not, if the clock went back. -/
def elapsed (p : Periodic) (now : Instant) : Bool :=
  p.since ≤ now.seconds && p.period.seconds ≤ now.seconds - p.since

def ask (p : Periodic) (now : Instant) : Bool × Periodic :=
  let q := { p with count := p.count + 1 }
  (q.count ≥ q.every || q.elapsed now, q)

def purged (p : Periodic) (now : Instant) : Periodic :=
  { p with count := 0, since := now.seconds }

end Periodic

inductive PurgePolicy where
  | periodic (p : Periodic)
  | never
  /-- Gives the answers in order, and no more purges after them. -/
  | scripted (answers : List Bool)
  deriving DecidableEq

namespace PurgePolicy

/-- A hundred requests or five minutes. -/
def standard (now : Instant) : PurgePolicy :=
  periodic (.start 100 (.ofSeconds 300) now)

def ask (now : Instant) : PurgePolicy → Bool × PurgePolicy
  | periodic p => ((p.ask now).1, periodic (p.ask now).2)
  | never => (false, never)
  | scripted [] => (false, scripted [])
  | scripted (answer :: answers) => (answer, scripted answers)

def purged (now : Instant) : PurgePolicy → PurgePolicy
  | periodic p => periodic (p.purged now)
  | policy => policy

end PurgePolicy

end SignedHttp
