import SignedHttp.Authorization
import SignedHttp.Key
import SignedHttp.SigningString

namespace SignedHttp

/-- What may be done with the intermediate results of signing. The first two replace what they
are given, the last one only observes. -/
structure Hooks where
  composed : Option (Request → String → String)
  created : Option (Request → Signature → Signature)
  observesSigned : Bool

def Hooks.none : Hooks := ⟨.none, .none, false⟩

def Hooks.summary (h : Hooks) : String :=
  let flag (b : Bool) := if b then "true" else "false"
  "SigningEvents \x7b signing_string_composed: " ++ flag h.composed.isSome ++
    ", signature_created: " ++ flag h.created.isSome ++
    ", request_signed: " ++ flag h.observesSigned ++ " \x7d"

structure Settings (κ : Type) where
  keyId : String
  key : Option κ
  bodyHash : Option Hash
  /-- From the creation of a signature to its end. -/
  lifetime : Duration
  headers : List HeaderName
  usesNonce : Bool
  /-- Times and digest are signed where they apply. -/
  addsRecommended : Bool
  /-- The algorithm parameter names family and hash, not `hs2019`. -/
  namesAlgorithm : Bool
  escaping : Escaping
  scheme : String
  hooks : Hooks

namespace Settings

variable {κ : Type}

/-- Settings with nothing but a key id, and no key yet. -/
def standard (keyId : String) : Settings κ where
  keyId := keyId
  key := none
  bodyHash := none
  lifetime := .ofSeconds 300
  headers := []
  usesNonce := false
  addsRecommended := true
  namesAlgorithm := false
  escaping := .rfc3986
  scheme := Authorization.defaultScheme
  hooks := .none

inductive Defect where
  | noKeyId
  | noKey
  | cannotSign (f : Family)
  | zeroLifetime
  | emptyName
  | forbiddenName (h : HeaderName) (algorithm : String)
  | noScheme
  deriving DecidableEq

instance : Reportable Defect where
  fault
    | .noKeyId => ⟨.validation, "a key id is required for signing"⟩
    | .noKey => ⟨.validation, "a signature algorithm is required for signing"⟩
    | .cannotSign f => ⟨.validation, s!"the {f.name} algorithm holds no signing key"⟩
    | .zeroLifetime => ⟨.validation, "signature expiration must be positive"⟩
    | .emptyName => ⟨.validation, "the empty header name cannot be signed"⟩
    | .forbiddenName h algorithm =>
      ⟨.validation, s!"'{h.text}' cannot be signed with the '{algorithm}' algorithm parameter"⟩
    | .noScheme => ⟨.validation, "an authorization scheme is required"⟩

variable [SigningKey κ]

def forbiddenName? (s : Settings κ) : Option HeaderName :=
  if s.namesAlgorithm then
    [HeaderName.created, HeaderName.expires].find? (fun h => s.headers.contains h)
  else none

def check (s : Settings κ) : Except Defect κ := do
  if s.keyId.isEmpty then throw .noKeyId
  let some key := s.key | throw .noKey
  if !canSign key then throw (.cannotSign (family key))
  if s.lifetime.isZero then throw .zeroLifetime
  if s.headers.any HeaderName.isEmpty then throw .emptyName
  if let some h := s.forbiddenName? then throw (.forbiddenName h (algorithmName key))
  if (Text.trim s.scheme.toList).isEmpty then throw .noScheme
  return key

def algorithmParameter (s : Settings κ) (key : κ) : String :=
  if s.namesAlgorithm then algorithmName key else hs2019

end Settings

end SignedHttp
