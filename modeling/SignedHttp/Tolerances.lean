import SignedHttp.Text.Blank
import SignedHttp.Time.Duration

namespace SignedHttp

structure Tolerances where
  clockSkew : Duration
  nonceLifetime : Duration
  deriving DecidableEq

namespace Tolerances

def ofSeconds (clockSkew nonceLifetime : Nat) : Tolerances :=
  ⟨.ofSeconds clockSkew, .ofSeconds nonceLifetime⟩

def production : Tolerances := ofSeconds 60 300

def development : Tolerances := ofSeconds 120 600

def highSecurity : Tolerances := ofSeconds 30 120

def secondsOr (standard : Nat) (setting : Option String) : Nat :=
  ((setting.map Text.trimmed).bind Text.uint64?).getD standard

def ofEnvironment (clockSkew nonceLifetime : Option String) : Tolerances :=
  ofSeconds (secondsOr 60 clockSkew) (secondsOr 300 nonceLifetime)

def ofPreset? (name : String) : Option Tolerances :=
  match name with
  | "production" => some production
  | "development" => some development
  | "high-security" => some highSecurity
  | _ => none

inductive Warning where
  | zeroSkew
  | shortSkew
  | longSkew
  | shortLifetime
  | longLifetime
  /-- A signature may be in time after its nonce is forgotten. -/
  | lifetimeBelowSkew
  deriving DecidableEq, Repr

def Warning.text : Warning → String
  | .zeroSkew => "Zero clock skew rejects every request from a drifting clock"
  | .shortSkew => "Very short clock skew (< 10 seconds) may cause clock sync issues"
  | .longSkew => "Long clock skew (> 5 minutes) may increase replay attack risk"
  | .shortLifetime => "Very short nonce lifetime (< 1 minute) weakens replay protection"
  | .longLifetime => "Long nonce lifetime (> 1 hour) grows the nonce store"
  | .lifetimeBelowSkew => "Nonce lifetime should be at least twice the clock skew"

def deserves (t : Tolerances) : Warning → Bool
  | .zeroSkew => t.clockSkew.isZero
  | .shortSkew => !t.clockSkew.isZero && t.clockSkew.seconds < 10
  | .longSkew => t.clockSkew.seconds > 300
  | .shortLifetime => t.nonceLifetime.seconds < 60
  | .longLifetime => t.nonceLifetime.seconds > 3600
  | .lifetimeBelowSkew => t.nonceLifetime.nanos < t.clockSkew.doubled.nanos

def warnings (t : Tolerances) : List Warning :=
  [.zeroSkew, .shortSkew, .longSkew, .shortLifetime, .longLifetime, .lifetimeBelowSkew].filter
    t.deserves

def summary (t : Tolerances) : String :=
  "VerificationConfig \x7b Clock Skew: " ++ toString t.clockSkew.seconds ++
    "s, Nonce Lifetime: " ++ toString t.nonceLifetime.seconds ++ "s \x7d"

end Tolerances

end SignedHttp
