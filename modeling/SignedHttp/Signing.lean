import SignedHttp.Settings
import SignedHttp.Text.Base64

namespace SignedHttp

inductive SigningDefect where
  | settings (d : Settings.Defect)
  | string (d : SigningString.Defect)
  | key (d : KeyDefect)
  | field (d : Field.Defect)
  | overflow
  | digestWithoutBody
  | digestWithoutHash
  deriving DecidableEq

instance : Reportable SigningDefect where
  fault
    | .settings d => Reportable.fault d
    | .string d => Reportable.fault d
    | .key d => Reportable.fault d
    | .field d => Reportable.fault d
    | .overflow => ⟨.outOfRange, "expiration time overflows"⟩
    | .digestWithoutBody =>
      ⟨.signing, "the digest header is signed but the request has no body"⟩
    | .digestWithoutHash =>
      ⟨.signing, "the digest header is signed but no digest hash algorithm is configured"⟩

inductive Notice where
  | composed (text : String)
  | created (s : Signature)
  | signed (r : Request) (s : Signature)
  deriving DecidableEq

namespace Settings

variable {κ : Type}

/-- Puts `(request-target)` in front, if it is missing. -/
def withTarget (headers : List HeaderName) : List HeaderName :=
  if headers.contains .requestTarget then headers else .requestTarget :: headers

/-- The name put behind the first occurrence of another one. -/
def insertAfter (place h : HeaderName) : List HeaderName → List HeaderName
  | [] => [h]
  | g :: gs => if g = place then g :: h :: gs else g :: insertAfter place h gs

/-- Puts `date` behind the first `(request-target)`, if it is missing. -/
def withDate (headers : List HeaderName) : List HeaderName :=
  if headers.contains .date then headers else insertAfter .requestTarget .date headers

def withName (headers : List HeaderName) (h : HeaderName) : List HeaderName :=
  if headers.contains h then headers else headers ++ [h]

def headersFor (s : Settings κ) (r : Request) : List HeaderName :=
  let headers := withDate (withTarget s.headers)
  if s.addsRecommended then
    let headers :=
      if s.namesAlgorithm then headers else withName (withName headers .created) .expires
    if r.hasBody && s.bodyHash.isSome then withName headers .digest else headers
  else headers

end Settings

namespace Request

def withDate (r : Request) (headers : List HeaderName) (t : Instant) :
    Except Field.Defect Request :=
  if headers.contains .date && !r.hasHeader "date" then
    r.setHeader "date" (HttpDate.write (.ofInstant t))
  else .ok r

def digestText (hash : Hash) (body : Bytes) : String :=
  hash.digestName ++ "=" ++ Text.Base64.encode (hash.digest body)

def withDigest (r : Request) (headers : List HeaderName) (hash : Option Hash) :
    Except SigningDefect Request :=
  if !headers.contains .digest then .ok r
  else
    match r.body with
    | none => .error .digestWithoutBody
    | some body =>
      if r.hasHeader "digest" then .ok r
      else
        match hash with
        | none => .error .digestWithoutHash
        | some hash => (r.setHeader "digest" (digestText hash body)).mapError .field

end Request

namespace Settings

variable {κ : Type} [SigningKey κ]

/-- What a signing that may fail leaves behind besides its result: the notices of the hooks. -/
abbrev Noted (α : Type) : Type := Except SigningDefect α × List Notice

def hookComposed (s : Settings κ) (r : Request) (text : String) : String × List Notice :=
  match s.hooks.composed with
  | some hook => (hook r text, [.composed text])
  | none => (text, [])

def hookCreated (s : Settings κ) (r : Request) (signature : Signature) :
    Signature × List Notice :=
  match s.hooks.created with
  | some hook => (hook r signature, [.created signature])
  | none => (signature, [])

def composition (s : Settings κ) (headers : List HeaderName) (t : Instant) (lifetime : Duration)
    (nonce : Option String) : Composition where
  headers := headers
  escaping := s.escaping
  time := some t
  offset := some lifetime.nanos
  nonce := nonce

def signatureFor (s : Settings κ) (r : Request) (headers : List HeaderName) (t : Instant)
    (lifetime : Duration) (nonce : Option String) : Noted Signature :=
  match s.check with
  | .error d => (.error (.settings d), [])
  | .ok key =>
    let t := t.wholeSeconds
    match t.shift? lifetime.nanos with
    | none => (.error .overflow, [])
    | some expires =>
      match signingString r (s.composition headers t lifetime nonce) with
      | .error d => (.error (.string d), [])
      | .ok text =>
        let (text, notices) := s.hookComposed r text
        match SigningKey.sign key text with
        | .error d => (.error (.key d), notices)
        | .ok bytes =>
          let (signature, more) := s.hookCreated r {
            keyId := s.keyId
            algorithm := some (s.algorithmParameter key)
            created := some t
            expires := some expires
            headers := some headers
            nonce := nonce
            value := Text.Base64.encode bytes }
          (.ok signature, notices ++ more)

structure Outcome where
  result : Except SigningDefect Signature
  /-- The request afterwards, also when signing failed half way. -/
  request : Request
  notices : List Notice

def authorization (s : Settings κ) (signature : Signature) : String :=
  s.scheme ++ " " ++ Authorization.write signature

/-- Signs a request at a time, for a lifetime, with the nonce that a generator gave. -/
def signRequest (s : Settings κ) (r : Request) (t : Instant) (lifetime : Duration)
    (nonce : String) : Outcome :=
  match s.check with
  | .error d => ⟨.error (.settings d), r, []⟩
  | .ok _ =>
    let headers := s.headersFor r
    match r.withDate headers t.wholeSeconds with
    | .error d => ⟨.error (.field d), r, []⟩
    | .ok dated =>
      match dated.withDigest headers s.bodyHash with
      | .error d => ⟨.error d, dated, []⟩
      | .ok ready =>
        let nonce := if s.usesNonce then some nonce else none
        match s.signatureFor ready headers t lifetime nonce with
        | (.error d, notices) => ⟨.error d, ready, notices⟩
        | (.ok signature, notices) =>
          match ready.setHeader "authorization" (s.authorization signature) with
          | .error d => ⟨.error (.field d), ready, notices⟩
          | .ok signed =>
            ⟨.ok signature, signed,
              notices ++ if s.hooks.observesSigned then [.signed signed signature] else []⟩

end Settings

end SignedHttp
