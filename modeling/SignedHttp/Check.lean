import SignedHttp.Client
import SignedHttp.Nonce
import SignedHttp.Rejection
import SignedHttp.Text.Base64

namespace SignedHttp

inductive Check where
  | headersPresent
  | knownAlgorithm
  | matchingAlgorithm
  | createdGuard
  | creationTime
  | expiresGuard
  | expirationTime
  | digest
  | nonce
  | signatureString
  deriving DecidableEq, Repr

namespace Check

/-- All checks, in the order in which they are made unless another one is asked for. -/
def standard : List Check :=
  [headersPresent, knownAlgorithm, matchingAlgorithm, createdGuard, creationTime, expiresGuard,
    expirationTime, digest, nonce, signatureString]

def name : Check → String
  | headersPresent => "all-headers-present"
  | knownAlgorithm => "known-algorithm"
  | matchingAlgorithm => "matching-algorithm"
  | createdGuard => "created-header-guard"
  | creationTime => "creation-time"
  | expiresGuard => "expires-header-guard"
  | expirationTime => "expiration-time"
  | digest => "digest"
  | nonce => "nonce"
  | signatureString => "matching-signature-string"

def ofName? (s : String) : Option Check :=
  standard.find? (fun c => c.name == s)

end Check

namespace Signature

/-- Family and hash that the algorithm parameter names, if it names any: what stands before and
behind its first hyphen. -/
def familyAndHash? (s : Signature) : Option (String × String) :=
  s.algorithm.bind (fun algorithm =>
    if Text.equalIgnoringCase algorithm hs2019 then none else Text.cut '-' algorithm)

/-- The starts of the algorithm parameters that go with a date in place of the two times. -/
def datedAlgorithms : List (List Char) :=
  ["rsa-".toList, "hmac-".toList, "ecdsa-".toList]

def isDated (s : Signature) : Bool :=
  s.algorithm.any (fun algorithm =>
    datedAlgorithms.any (fun start => start.isPrefixOf (Text.lower algorithm.toList)))

def requiredNames (s : Signature) : List HeaderName :=
  if s.isDated then [.requestTarget, .date] else [.requestTarget, .created, .expires]

def bound? (s : Signature) : Bound → Option Instant
  | .created => s.created
  | .expires => s.expires

def composition (s : Signature) (e : Escaping) : Composition where
  headers := s.headers.getD []
  escaping := e
  time := s.created
  offset := s.created.bind (fun created =>
    s.expires.map (fun expires => expires.nanos - created.nanos))
  nonce := s.nonce

end Signature

/-- A signed request that claims to come from a client, at the time of its verification. -/
structure Attempt (κ : Type) where
  request : Request
  signature : Signature
  client : Client κ
  now : Instant

namespace Attempt

variable {κ : Type}

def absentHeader? (a : Attempt κ) (headers : List HeaderName) : Option HeaderName :=
  headers.find? (fun h => !h.isPseudo && !h.isEmpty && !a.request.hasHeader h.text)

def headersRejection? (a : Attempt κ) : Option Rejection :=
  match a.signature.headers with
  | none => some .noHeaderList
  | some headers =>
    match a.signature.requiredNames.find? (fun h => !headers.contains h) with
    | some h => some (.notSigned h)
    | none => (a.absentHeader? headers).map .notPresent

def isKnown (family hash : String) : Bool :=
  Family.all.any (fun f => Text.equalIgnoringCase family f.name) && (Hash.ofName? hash).isSome

def algorithmRejection? (a : Attempt κ) : Option Rejection :=
  match a.signature.algorithm with
  | none => none
  | some algorithm =>
    if Text.equalIgnoringCase algorithm hs2019 then none
    else
      match a.signature.familyAndHash? with
      | some (family, hash) =>
        if isKnown family hash then none else some (.unknownAlgorithm algorithm)
      | none => some (.unknownAlgorithm algorithm)

def mismatchRejection? [SigningKey κ] (a : Attempt κ) : Option Rejection :=
  match a.signature.familyAndHash? with
  | none => none
  | some (given, hashName) =>
    if !Text.equalIgnoringCase given (family a.client.key).name then
      some (.otherFamily (family a.client.key) given)
    else if Hash.ofName? hashName ≠ some (hash a.client.key) then
      some (.otherHash (hash a.client.key) hashName)
    else none

/-- A time that is signed must be there, and a field that repeats it must agree. -/
def boundRejection? (a : Attempt κ) (b : Bound) : Option Rejection :=
  if !a.signature.lists b.name then none
  else if a.signature.isDated then
    some (.boundNotAllowed b (a.signature.algorithm.getD ""))
  else
    match a.signature.bound? b with
    | none => some (.boundMissing b)
    | some t =>
      match a.request.header? b.word with
      | none => none
      | some text =>
        if Text.int64? (Text.trimmed text) = some t.seconds then none
        else some (.boundContradicted b)

def creationRejection? (a : Attempt κ) : Option Rejection :=
  match a.signature.created with
  | none => none
  | some t => if a.now.later a.client.clockSkew < t then some (.notYetCreated t) else none

def expirationRejection? (a : Attempt κ) : Option Rejection :=
  match a.signature.expires with
  | none => none
  | some t => if t < a.now.sooner a.client.clockSkew then some (.expired t) else none

def digestRejection (header : String) (body : Bytes) : Option Rejection :=
  match Text.cut '=' (Text.trimmed header) with
  | none => some (.digestMalformed header)
  | some (name, encoded) =>
    match Hash.ofName? name with
    | none => some (.digestHashUnknown name)
    | some hash =>
      match Text.Base64.decode encoded with
      | .error _ => some .digestNotBase64
      | .ok expected => if hash.digest body = expected then none else some .digestMismatch

def digestRejection? (a : Attempt κ) : Option Rejection :=
  if !a.signature.lists .digest then none
  else
    match a.request.body, a.request.header? "digest" with
    | none, _ => some .digestWithoutBody
    | some _, none => some .digestMissing
    | some body, some header => digestRejection header body

def stringRejection? [SigningKey κ] (a : Attempt κ) : Option Rejection :=
  match signingString a.request (a.signature.composition a.client.terms.escaping) with
  | .error d => some (.notComposed d)
  | .ok text =>
    match Text.Base64.decode a.signature.value with
    | .error _ => some .valueNotBase64
    | .ok received =>
      if SigningKey.verify a.client.key text received then none else some .valueMismatch

def nonce? (a : Attempt κ) : Option Nonce :=
  a.signature.nonce?.map (fun value =>
    ⟨a.client.id, value, a.now.later a.client.nonceLifetime⟩)

def rejection? [SigningKey κ] (a : Attempt κ) : Check → Option Rejection
  | .headersPresent => a.headersRejection?
  | .knownAlgorithm => a.algorithmRejection?
  | .matchingAlgorithm => a.mismatchRejection?
  | .createdGuard => a.boundRejection? .created
  | .creationTime => a.creationRejection?
  | .expiresGuard => a.boundRejection? .expires
  | .expirationTime => a.expirationRejection?
  | .digest => a.digestRejection?
  | .nonce => none
  | .signatureString => a.stringRejection?

variable {ω ε : Type}

def nonceStep (register : Nonce → ω → Except ε Bool × ω) (a : Attempt κ) (s : ω) :
    Except ε (Option Rejection) × ω :=
  match a.nonce? with
  | none => (.ok none, s)
  | some n =>
    match register n s with
    | (.ok true, s) => (.ok none, s)
    | (.ok false, s) => (.ok (some (.replayed n.value)), s)
    | (.error e, s) => (.error e, s)

/-- One check. `register` tries to register a nonce with the store and says whether it was new. -/
def step [SigningKey κ] (register : Nonce → ω → Except ε Bool × ω) (a : Attempt κ) (c : Check)
    (s : ω) : Except ε (Option Rejection) × ω :=
  if c = .nonce then a.nonceStep register s else (.ok (a.rejection? c), s)

/-- Makes checks in order, up to the first that rejects or fails. -/
def run [SigningKey κ] (register : Nonce → ω → Except ε Bool × ω) (a : Attempt κ) :
    List Check → ω → Except ε (Option Rejection) × ω
  | [], s => (.ok none, s)
  | c :: cs, s =>
    match a.step register c s with
    | (.ok none, s) => a.run register cs s
    | (.ok (some r), s) => (.ok (some r), s)
    | (.error e, s) => (.error e, s)

end Attempt

end SignedHttp
