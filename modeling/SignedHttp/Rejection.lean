import SignedHttp.Authorization
import SignedHttp.Key
import SignedHttp.SigningString

namespace SignedHttp

inductive Failure.Code where
  | invalidSignature
  | invalidClient
  | headerMissing
  | invalidAlgorithm
  | invalidCreated
  | invalidExpires
  | expired
  | invalidDigest
  | replayed
  | invalidString
  deriving DecidableEq, Repr

structure Failure where
  code : Failure.Code
  message : String
  deriving DecidableEq, Repr

namespace Failure

def Code.all : List Code :=
  [invalidSignature, invalidClient, headerMissing, invalidAlgorithm, invalidCreated,
    invalidExpires, expired, invalidDigest, replayed, invalidString]

def Code.text : Code → String
  | invalidSignature => "INVALID_SIGNATURE"
  | invalidClient => "INVALID_CLIENT"
  | headerMissing => "HEADER_MISSING"
  | invalidAlgorithm => "INVALID_SIGNATURE_ALGORITHM"
  | invalidCreated => "INVALID_CREATED_HEADER"
  | invalidExpires => "INVALID_EXPIRES_HEADER"
  | expired => "SIGNATURE_EXPIRED"
  | invalidDigest => "INVALID_DIGEST_HEADER"
  | replayed => "REPLAYED_REQUEST"
  | invalidString => "INVALID_SIGNATURE_STRING"

def Code.ofText? (s : String) : Option Code :=
  Code.all.find? (fun c => c.text == s)

def text (f : Failure) : String :=
  f.code.text ++ ": " ++ f.message

end Failure

inductive Bound where
  | created
  | expires
  deriving DecidableEq, Repr

namespace Bound

def name : Bound → HeaderName
  | created => .created
  | expires => .expires

/-- The name of the parameter, and of a field that repeats it. -/
def word : Bound → String
  | created => "created"
  | expires => "expires"

def code : Bound → Failure.Code
  | created => .invalidCreated
  | expires => .invalidExpires

end Bound

inductive Rejection where
  | unreadable (d : Authorization.Defect)
  | unknownClient (id : String)
  | noHeaderList
  | notSigned (h : HeaderName)
  | notPresent (h : HeaderName)
  | unknownAlgorithm (given : String)
  | otherFamily (expected : Family) (given : String)
  | otherHash (expected : Hash) (given : String)
  | boundNotAllowed (b : Bound) (algorithm : String)
  | boundMissing (b : Bound)
  | boundContradicted (b : Bound)
  | notYetCreated (t : Instant)
  | expired (t : Instant)
  | digestWithoutBody
  | digestMissing
  | digestMalformed (header : String)
  | digestHashUnknown (name : String)
  | digestNotBase64
  | digestMismatch
  | replayed (nonce : String)
  | notComposed (d : SigningString.Defect)
  | valueNotBase64
  | valueMismatch
  deriving DecidableEq

namespace Rejection

def code : Rejection → Failure.Code
  | unreadable _ | notYetCreated _ => .invalidSignature
  | unknownClient _ => .invalidClient
  | noHeaderList | notSigned _ | notPresent _ => .headerMissing
  | unknownAlgorithm _ | otherFamily .. | otherHash .. => .invalidAlgorithm
  | boundNotAllowed b _ | boundMissing b | boundContradicted b => b.code
  | expired _ => .expired
  | digestWithoutBody | digestMissing | digestMalformed _ | digestHashUnknown _
  | digestNotBase64 | digestMismatch => .invalidDigest
  | replayed _ => .replayed
  | notComposed _ | valueNotBase64 | valueMismatch => .invalidString

def message : Rejection → String
  | unreadable d => (Reportable.fault d).message
  | unknownClient id => s!"no client is registered with id '{id}'"
  | noHeaderList => "the signature does not list its headers"
  | notSigned h => s!"the {h.text} header is required to be part of the signature"
  | notPresent h => s!"the signed header {h.text} is missing from the request"
  | unknownAlgorithm given => s!"the signature algorithm '{given}' is not supported"
  | otherFamily expected given =>
    s!"the client uses {expected.name}, but the signature claims {given}"
  | otherHash expected given =>
    s!"the client hashes with {expected.name}, but the signature claims {given}"
  | boundNotAllowed b algorithm =>
    s!"the {b.name.text} header is not allowed with the '{algorithm}' algorithm"
  | boundMissing b =>
    s!"the {b.name.text} header is signed, but the signature has no {b.word} parameter"
  | boundContradicted b =>
    s!"the {b.word} header of the request does not match the signature"
  | notYetCreated t =>
    s!"the signature was created in the future ({Text.signedDecimal t.seconds})"
  | expired t => s!"the signature expired at {Text.signedDecimal t.seconds}"
  | digestWithoutBody => "the digest header is signed, but the request has no body"
  | digestMissing => "the digest header is signed, but missing from the request"
  | digestMalformed header => s!"the digest header '{header}' is malformed"
  | digestHashUnknown name => s!"the digest algorithm '{name}' is not supported"
  | digestNotBase64 => "the digest value is not valid base64"
  | digestMismatch => "the digest header does not match the body"
  | replayed nonce => s!"the nonce '{nonce}' was already used by this client"
  | notComposed d => s!"the signing string could not be composed: {(Reportable.fault d).message}"
  | valueNotBase64 => "the signature is not valid base64"
  | valueMismatch => "the signature does not match the signing string"

def failure (r : Rejection) : Failure :=
  ⟨r.code, r.message⟩

end Rejection

end SignedHttp
