import SignedHttp.Check
import SignedHttp.Metrics
import SignedHttp.PurgePolicy
import SignedHttp.Store.Basic

namespace SignedHttp

inductive Stage where
  | lookup
  | registration
  | purge
  | verification
  deriving DecidableEq, Repr

/-- What the clocks show in the course of a verification. -/
structure Readings where
  now : Instant
  asked : Instant
  told : Instant
  took : Stage → Duration

inductive Verdict (κ : Type) where
  | accepted (signature : Signature) (client : Client κ)
  /-- Holds the signature and the client, if it came so far. -/
  | rejected (reason : Rejection) (signature : Option Signature) (client : Option (Client κ))

namespace Verdict

variable {κ : Type}

def success : Verdict κ → Bool
  | accepted .. => true
  | rejected .. => false

def rejection? : Verdict κ → Option Rejection
  | accepted .. => none
  | rejected reason .. => some reason

def signature? : Verdict κ → Option Signature
  | accepted signature _ => some signature
  | rejected _ signature _ => signature

def client? : Verdict κ → Option (Client κ)
  | accepted _ client => some client
  | rejected _ _ client => client

/-- Only an accepted request says who sent it. -/
def principal? : Verdict κ → Option Principal
  | accepted _ client => some (.ofClient client)
  | rejected .. => none

end Verdict

structure Verifier (ω : Type) where
  scheme : String
  /-- Checks in place of the standard ones. Their calls of the store are not counted. -/
  ownChecks : Option (List Check)
  policy : PurgePolicy
  collector : Option Collector
  store : ω

namespace Verifier

variable {ω κ ε α : Type}

/-- A verifier with nothing but a store. -/
def standard (store : ω) (now : Instant) : Verifier ω :=
  ⟨Authorization.defaultScheme, none, .standard now, none, store⟩

def checks (v : Verifier ω) : List Check :=
  v.ownChecks.getD Check.standard

def record (e : Metrics.Event) (v : Verifier ω) : Verifier ω :=
  { v with collector := v.collector.map (Collector.record e) }

def after (result : Except ε α × ω) (v : Verifier ω) : Except ε α × Verifier ω :=
  (result.1, { v with store := result.2 })

def afterCounted (took : Duration) (result : Except ε α × ω) (v : Verifier ω) :
    Except ε α × Verifier ω :=
  (result.1, { v with store := result.2 }.record (.stored took result.1.isOk))

section Nonces

variable [NonceStore ω ε]

def registerNonce (took : Duration) (n : Nonce) (v : Verifier ω) :
    Except ε Unit × Verifier ω :=
  v.afterCounted took (NonceStore.register n v.store)

def findNonce (took : Duration) (client value : String) (v : Verifier ω) :
    Except ε (Option Nonce) × Verifier ω :=
  v.afterCounted took (NonceStore.find? client value v.store, v.store)

def tryRegisterNonce (took : Duration) (n : Nonce) (now : Instant) (v : Verifier ω) :
    Except ε Bool × Verifier ω :=
  v.afterCounted took (NonceStore.tryRegister n now v.store)

def purgeNonces (took : Duration) (now : Instant) (v : Verifier ω) :
    Except ε Nat × Verifier ω :=
  v.afterCounted took (NonceStore.purge now v.store)

def registration (clocks : Readings) (n : Nonce) (v : Verifier ω) : Except ε Bool × Verifier ω :=
  match v.ownChecks with
  | some _ => v.after (NonceStore.tryRegister n clocks.now v.store)
  | none => v.tryRegisterNonce (clocks.took .registration) n clocks.now

/-- Purges expired nonces. A purge that fails has no other effect than that it is counted. -/
def purge (clocks : Readings) (v : Verifier ω) : Verifier ω :=
  let (result, v) := v.purgeNonces (clocks.took .purge) clocks.now
  let v :=
    match result with
    | .ok removed => v.record (.purged removed)
    | .error _ => v
  { v with policy := v.policy.purged clocks.told }

/-- Asks the purge policy after a request with a nonce, and purges if it says so. -/
def tidy (clocks : Readings) (v : Verifier ω) : Verifier ω :=
  let (due, policy) := v.policy.ask clocks.asked
  let v := { v with policy := policy }
  if due then v.purge clocks else v

end Nonces

variable [ClientStore ω κ ε] [NonceStore ω ε]

def lookup (clocks : Readings) (s : Signature) (v : Verifier ω) :
    Except ε (Option (Client κ)) × Verifier ω :=
  v.afterCounted (clocks.took .lookup) (ClientStore.find? s.keyId v.store, v.store)

/-- Makes the checks, and tidies up after an accepted request with a nonce. -/
def judge [SigningKey κ] (clocks : Readings) (r : Request) (s : Signature) (c : Client κ)
    (v : Verifier ω) : Except ε (Verdict κ) × Verifier ω :=
  match Attempt.run (registration clocks) ⟨r, s, c, clocks.now⟩ v.checks v with
  | (.error e, v) => (.error e, v)
  | (.ok (some reason), v) => (.ok (.rejected reason (some s) (some c)), v)
  | (.ok none, v) => (.ok (.accepted s c), if s.nonce.isSome then v.tidy clocks else v)

def decideOn [SigningKey κ] (clocks : Readings) (r : Request) (v : Verifier ω) :
    Except ε (Verdict κ) × Verifier ω :=
  match Authorization.ofRequest v.scheme r with
  | .error d => (.ok (.rejected (.unreadable d) none none), v)
  | .ok s =>
    match v.lookup clocks s with
    | (.error e, v) => (.error e, v)
    | (.ok none, v) => (.ok (.rejected (.unknownClient s.keyId) (some s) none), v)
    | (.ok (some c), v) => v.judge clocks r s c

def ending : Except ε (Verdict κ) → Metrics.Ending
  | .ok (.accepted ..) => .accepted
  | .ok (.rejected reason ..) => .rejected reason.code
  | .error _ => .failed

/-- Verifies a request. A failure means that a store failed. -/
def verify [SigningKey κ] (clocks : Readings) (r : Request) (v : Verifier ω) :
    Except ε (Verdict κ) × Verifier ω :=
  let (result, v) := v.decideOn clocks r
  (result, v.record (.verified (clocks.took .verification) (ending result)))

end Verifier

end SignedHttp
