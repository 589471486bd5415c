import SignedHttp.HeaderName
import SignedHttp.Time.Instant

namespace SignedHttp

/-- The algorithm parameter that leaves the algorithm to the key. -/
def hs2019 : String := "hs2019"

structure Signature where
  keyId : String
  /-- Either `hs2019`, or family and hash as in `rsa-sha256`. -/
  algorithm : Option String
  created : Option Instant
  expires : Option Instant
  headers : Option (List HeaderName)
  nonce : Option String
  /-- The signature proper, in base64. -/
  value : String
  deriving DecidableEq

namespace Signature

inductive Defect where
  | noKeyId
  | noValue
  | noHeaders
  deriving DecidableEq, Repr

instance : Reportable Defect where
  fault
    | .noKeyId => ⟨.validation, "the signature has no key id"⟩
    | .noValue => ⟨.validation, "the signature has no signature value"⟩
    | .noHeaders => ⟨.validation, "the signature does not list any headers"⟩

def defect? (s : Signature) : Option Defect :=
  if s.keyId.isEmpty then some .noKeyId
  else if s.value.isEmpty then some .noValue
  else if (s.headers.getD []).isEmpty then some .noHeaders
  else none

def lists (s : Signature) (h : HeaderName) : Bool :=
  (s.headers.getD []).contains h

/-- The nonce, an empty one counting as none. -/
def nonce? (s : Signature) : Option String :=
  s.nonce.filter (fun n => !n.isEmpty)

end Signature

end SignedHttp
