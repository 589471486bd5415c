import SignedHttp.Rejection
import SignedHttp.Store.Table
import SignedHttp.Time.Duration

namespace SignedHttp

namespace Metrics

inductive Ending where
  | accepted
  | rejected (code : Failure.Code)
  /-- Neither: a store failed. -/
  | failed
  deriving DecidableEq, Repr

inductive Event where
  | signed (took : Duration)
  | verified (took : Duration) (ending : Ending)
  | stored (took : Duration) (success : Bool)
  | purged (removed : Nat)
  deriving DecidableEq

end Metrics

structure Metrics where
  signed : UInt64
  attempts : UInt64
  accepted : UInt64
  refused : UInt64
  refusedBy : Table Failure.Code UInt64
  storeCalls : UInt64
  storeErrors : UInt64
  purges : UInt64
  purgedNonces : UInt64
  /-- The microseconds of all signings, of all attempts and of all calls of stores. -/
  signingTime : UInt64
  attemptTime : UInt64
  storeTime : UInt64

namespace Metrics

def zero : Metrics :=
  ⟨0, 0, 0, 0, .empty, 0, 0, 0, 0, 0, 0, 0⟩

/-- The microseconds of a duration, or the largest number of 64 bits. -/
def micros (d : Duration) : UInt64 :=
  UInt64.ofNat (min d.micros 0xFFFFFFFFFFFFFFFF)

def refusals (m : Metrics) (code : Failure.Code) : UInt64 :=
  (m.refusedBy.find? code).getD 0

def close (m : Metrics) : Ending → Metrics
  | .accepted => { m with accepted := m.accepted + 1 }
  | .failed => { m with refused := m.refused + 1 }
  | .rejected code =>
    { m with
      refused := m.refused + 1
      refusedBy := m.refusedBy.put code (m.refusals code + 1) }

def record (m : Metrics) : Event → Metrics
  | .signed took =>
    { m with signed := m.signed + 1, signingTime := m.signingTime + micros took }
  | .verified took ending =>
    { m.close ending with
      attempts := m.attempts + 1
      attemptTime := m.attemptTime + micros took }
  | .stored took success =>
    { m with
      storeCalls := m.storeCalls + 1
      storeErrors := if success then m.storeErrors else m.storeErrors + 1
      storeTime := m.storeTime + micros took }
  | .purged removed =>
    { m with
      purges := m.purges + 1
      purgedNonces := m.purgedNonces + UInt64.ofNat removed }

/-- Nothing, if there are no samples. -/
def average (total samples : UInt64) : UInt64 :=
  if samples > 0 then total / samples else 0

def averageSigning (m : Metrics) : UInt64 := average m.signingTime m.signed

def averageAttempt (m : Metrics) : UInt64 := average m.attemptTime m.attempts

def averageStore (m : Metrics) : UInt64 := average m.storeTime m.storeCalls

def refusalCounts (m : Metrics) : List (Failure.Code × UInt64) :=
  m.refusedBy.rows

end Metrics

inductive Collector where
  | counting (m : Metrics)
  | discarding

namespace Collector

def record (e : Metrics.Event) : Collector → Collector
  | counting m => counting (m.record e)
  | discarding => discarding

def metrics : Collector → Metrics
  | counting m => m
  | discarding => .zero

def reset : Collector → Collector
  | counting _ => counting .zero
  | discarding => discarding

end Collector

end SignedHttp
