import SignedHttp.Crypto.Ecdsa
import SignedHttp.Crypto.Rsa
import SignedHttp.Fault

namespace SignedHttp

inductive Family where
  | hmac
  | rsa
  | ecdsa
  deriving DecidableEq, Repr

def Family.all : List Family := [.hmac, .rsa, .ecdsa]

def Family.name : Family → String
  | .hmac => "HMAC"
  | .rsa => "RSA"
  | .ecdsa => "ECDSA"

def Family.ofName? (name : String) : Option Family :=
  Family.all.find? (fun f => f.name == name)

inductive KeyDefect where
  | checksOnly (f : Family)
  | tooShort
  | noEphemeral
  deriving DecidableEq, Repr

instance : Reportable KeyDefect where
  fault
    | .checksOnly .ecdsa => ⟨.crypto, "ECDSA algorithm has no signing key"⟩
    | .checksOnly f => ⟨.crypto, s!"{f.name} algorithm has no private key"⟩
    | .tooShort => ⟨.crypto, "RSA signing failed: signature error: message too long"⟩
    | .noEphemeral => ⟨.crypto, "ECDSA signing failed: signature error"⟩

/-- Types of keys. A key is bound to a family and a hash. -/
class SigningKey (κ : Type) where
  family : κ → Family
  hash : κ → Hash
  canSign : κ → Bool
  sign : κ → String → Except KeyDefect Bytes
  verify : κ → String → Bytes → Bool

export SigningKey (family hash canSign)

/-- Family and hash in one word, as in `rsa-sha256`. -/
def algorithmName {κ : Type} [SigningKey κ] (k : κ) : String :=
  Text.lowered (family k).name ++ "-" ++ (hash k).name

def keySummary {κ : Type} [SigningKey κ] (k : κ) : String :=
  "SignatureAlgorithm \x7b name: \"" ++ (family k).name ++ "\", hash: " ++ (hash k).title ++
    ", can_sign: " ++ (if canSign k then "true" else "false") ++ " \x7d"

/-- The keys of the three families. The private half may be missing. -/
inductive Key where
  | hmac (secret : Bytes) (hash : Hash)
  | rsa (publicHalf : Crypto.Rsa.PublicKey) (exponent : Option Nat) (hash : Hash)
  | ecdsa (point : Crypto.P256.Point) (scalar : Option Nat) (hash : Hash)
  deriving DecidableEq

namespace Key

def sign : Key → Bytes → Except KeyDefect Bytes
  | hmac secret hash, message => .ok (hash.hmac secret message)
  | rsa publicHalf (some exponent) hash, message =>
    (Crypto.Rsa.sign? ⟨publicHalf, exponent⟩ hash message).elim (.error .tooShort) .ok
  | rsa _ none _, _ => .error (.checksOnly .rsa)
  | ecdsa _ (some scalar) hash, message =>
    (Crypto.Ecdsa.sign? scalar (hash.digest message)).elim (.error .noEphemeral) .ok
  | ecdsa _ none _, _ => .error (.checksOnly .ecdsa)

def verify : Key → Bytes → Bytes → Bool
  | hmac secret hash, message, signature => hash.hmac secret message == signature
  | rsa publicHalf _ hash, message, signature =>
    Crypto.Rsa.verify publicHalf hash message signature
  | ecdsa point _ hash, message, signature =>
    Crypto.Ecdsa.verify point (hash.digest message) signature

instance : SigningKey Key where
  family
    | hmac .. => .hmac
    | rsa .. => .rsa
    | ecdsa .. => .ecdsa
  hash
    | hmac _ h => h
    | rsa _ _ h => h
    | ecdsa _ _ h => h
  canSign
    | hmac .. => true
    | rsa _ e _ => e.isSome
    | ecdsa _ d _ => d.isSome
  sign k s := k.sign (Text.bytes s)
  verify k s signature := k.verify (Text.bytes s) signature

end Key

end SignedHttp
