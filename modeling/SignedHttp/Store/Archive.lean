import SignedHttp.Crypto.Der
import SignedHttp.Document
import SignedHttp.Protection
import SignedHttp.Store.Basic
import SignedHttp.Store.Schema

namespace SignedHttp

/-- Families whose keys are secrets that both sides share. -/
def Family.isSecret : Family → Bool
  | .hmac => true
  | .rsa => false
  | .ecdsa => false

/-- Types of keys that can be stored as bytes. -/
class StorableKey (κ : Type) where
  material : κ → Bytes
  ofMaterial? : Family → Hash → Bytes → Option κ

/-- Private halves are not stored. -/
instance : StorableKey Key where
  material
    | .hmac secret _ => secret
    | .rsa publicHalf _ _ => Crypto.Der.encodeKey publicHalf
    | .ecdsa point _ _ => Crypto.P256.encode point
  ofMaterial? family hash bytes :=
    match family with
    | .hmac => some (.hmac bytes hash)
    | .rsa => (Crypto.Der.decodeKey? bytes).map (fun k => .rsa k none hash)
    | .ecdsa => (Crypto.P256.decode? bytes).map (fun q => .ecdsa q none hash)

/-- A database and the way to protect the secrets in it. -/
structure Archive (κ : Type) where
  database : Database
  protector : Option Protector

namespace Archive

inductive Defect where
  | database (d : Database.Defect)
  | protection (d : ProtectionDefect)
  | noProtector
  | unknownHash (name : String)
  | unknownFamily (name : String)
  | notBase64 (f : Text.Base64.Fault)
  | malformedKey (f : Family)
  | claims (d : Document.Defect)
  | negative (what : String) (millis : Int)
  | escaping (d : Escaping.Defect)
  | client (d : Client.Defect)
  | tooLong (what : String) (d : Duration)
  | noInstant (second : Int)
  deriving DecidableEq

instance : Reportable Defect where
  fault
    | .database d => Reportable.fault d
    | .protection d => Reportable.fault d
    | .noProtector =>
      ⟨.storage, "the client secret is protected, but no protector is configured"⟩
    | .unknownHash name => ⟨.storage, s!"unknown hash algorithm '{name}'"⟩
    | .unknownFamily name => ⟨.storage, s!"unsupported signature algorithm '{name}'"⟩
    | .notBase64 f => Reportable.fault f
    | .malformedKey .ecdsa => ⟨.crypto, "cannot decode ECDSA key: signature error"⟩
    | .malformedKey f => ⟨.crypto, s!"cannot decode {f.name} key"⟩
    | .claims d => Reportable.fault d
    | .negative what millis =>
      ⟨.storage, s!"stored {what} is negative: {Text.signedDecimal millis}"⟩
    | .escaping d => Reportable.fault d
    | .client d => Reportable.fault d
    | .tooLong what d => ⟨.outOfRange, s!"{what} of {d.text} cannot be stored"⟩
    | .noInstant second => ⟨.outOfRange, s!"timestamp {Text.signedDecimal second}"⟩

variable {κ α : Type}

def skewTitle : String := "clock skew"

def lifetimeTitle : String := "nonce lifetime"

/-- The milliseconds in which a duration is stored: at least one for any that is not zero. -/
def storeDuration (what : String) (d : Duration) : Except Defect Int :=
  if d.millisUp < 0x8000000000000000 then .ok d.millisUp else .error (.tooLong what d)

def readDuration (what : String) (millis : Int) : Except Defect Duration :=
  if millis < 0 then .error (.negative what millis) else .ok (.ofMillis millis.toNat)

def storeKey [SigningKey κ] [StorableKey κ] (protector : Option Protector) (k : κ) :
    Except Defect (String × Bool) :=
  let encoded := Text.Base64.encode (StorableKey.material k)
  match protector, (family k).isSecret with
  | some p, true => (p.protect encoded).mapError .protection |>.map (·, true)
  | _, _ => .ok (encoded, false)

def plainKey (protector : Option Protector) (f : Family) (row : ClientRow) :
    Except Defect String :=
  if f.isSecret && row.guarded then
    match protector with
    | none => .error .noProtector
    | some p => (p.unprotect row.key).mapError .protection
  else .ok row.key

def readKey [StorableKey κ] (protector : Option Protector) (row : ClientRow) :
    Except Defect κ := do
  let some hash := Hash.ofName? row.hash | throw (.unknownHash row.hash)
  let some f := Family.ofName? row.algorithm | throw (.unknownFamily row.algorithm)
  let bytes ← (Text.Base64.decode (← plainKey protector f row)).mapError .notBase64
  let some k := StorableKey.ofMaterial? f hash bytes | throw (.malformedKey f)
  return k

def storeClient [SigningKey κ] [StorableKey κ] (protector : Option Protector) (c : Client κ) :
    Except Defect ClientRow := do
  let (key, guarded) ← storeKey protector c.key
  let clockSkew ← storeDuration skewTitle c.clockSkew
  let nonceLifetime ← storeDuration lifetimeTitle c.nonceLifetime
  return {
    name := c.name
    algorithm := (family c.key).name
    hash := (hash c.key).name
    key := key
    guarded := guarded
    clockSkew := clockSkew
    nonceLifetime := nonceLifetime
    escaping := c.terms.escaping.ordinal
    claims := Document.writeClaims c.terms.claims }

def readClient [StorableKey κ] (protector : Option Protector) (id : String) (row : ClientRow) :
    Except Defect (Client κ) := do
  let key ← readKey protector row
  let claims ← (Document.readClaims row.claims).mapError .claims
  let clockSkew ← readDuration skewTitle row.clockSkew
  let nonceLifetime ← readDuration lifetimeTitle row.nonceLifetime
  let escaping ← (Escaping.ofOrdinal row.escaping).mapError .escaping
  (Client.make id row.name key ⟨⟨clockSkew, nonceLifetime⟩, escaping, claims⟩).mapError .client

def run (statement : Database.Statement α) (s : Archive κ) : Except Defect α × Archive κ :=
  let (result, db) := statement s.database
  (result.mapError .database, { s with database := db })

def prepare (part : Schema.Part) (s : Archive κ) :
    Except (Migration.Defect Database.Defect) Unit × Archive κ :=
  let (result, db) := Schema.prepare part s.database
  (result.map (fun _ => ()), { s with database := db })

instance [SigningKey κ] [StorableKey κ] : ClientStore (Archive κ) κ Defect where
  register c s :=
    match storeClient s.protector c with
    | .error d => (.error d, s)
    | .ok row => run (Database.putClient c.id row) s
  find? id s := do
    match ← (s.database.client? id).mapError .database with
    | none => return none
    | some row => return some (← readClient s.protector id row)

def readNonce (client value : String) (second : Int) : Except Defect Nonce :=
  match Instant.ofSeconds? second with
  | some t => .ok ⟨client, value, t⟩
  | none => .error (.noInstant second)

/-- Whether a nonce is stored that expires in the second of `now` or later. -/
def live (key : String × String) (now : Instant) (db : Database) :
    Except Database.Defect Bool :=
  (db.nonce? key).map (fun found => found.any (fun second => now.seconds ≤ second))

def putUnlessLive (n : Nonce) (now : Instant) : Database.Statement Bool := fun db =>
  match live n.key now db with
  | .error d => (.error d, db)
  | .ok true => (.ok false, db)
  | .ok false =>
    let (result, db) := Database.putNonce n.key n.expiration.seconds db
    (result.map (fun _ => true), db)

instance : NonceStore (Archive κ) Defect where
  register n := run (Database.putNonce n.key n.expiration.seconds)
  find? client value s := do
    match ← (s.database.nonce? (client, value)).mapError .database with
    | none => return none
    | some second => return some (← readNonce client value second)
  tryRegister n now := run (putUnlessLive n now)
  purge now := run (Database.deleteNonces now.seconds)
  size s := (s.database.nonceRows.map Table.size).mapError .database
  title _ := "SQLite storage"

end Archive

end SignedHttp
