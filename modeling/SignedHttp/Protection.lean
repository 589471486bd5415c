import SignedHttp.Crypto.Gcm
import SignedHttp.Fault
import SignedHttp.Hash
import SignedHttp.Text.Base64

namespace SignedHttp

inductive ProtectionDefect where
  | noPassphrase
  | notBase64
  | truncated
  | undecipherable
  | notText
  deriving DecidableEq, Repr

instance : Reportable ProtectionDefect where
  fault
    | .noPassphrase => ⟨.invalidArgument, "protection passphrase must not be empty"⟩
    | .notBase64 => ⟨.crypto, "protected value is not base64"⟩
    | .truncated => ⟨.crypto, "protected value is truncated"⟩
    | .undecipherable => ⟨.crypto, "decryption failed"⟩
    | .notText => ⟨.crypto, "decrypted value is not UTF-8"⟩

/-- A way to protect texts and to read them back. -/
structure Protector where
  protect : String → Except ProtectionDefect String
  unprotect : String → Except ProtectionDefect String

namespace Protector

/-- The key that belongs to a passphrase. -/
def keyOf (passphrase : String) : Bytes :=
  Hash.sha256.digest (Text.bytes passphrase)

/-- The protected form of a text: base64 of the salt, the ciphertext and its tag. -/
def conceal (key salt : Bytes) (plain : String) : String :=
  Text.Base64.encode (salt ++ Crypto.Gcm.encrypt key salt (Text.bytes plain))

def reveal (key : Bytes) (guarded : String) : Except ProtectionDefect String :=
  match Text.Base64.decode guarded with
  | .error _ => .error .notBase64
  | .ok bytes =>
    if bytes.length < Crypto.Gcm.nonceLength then .error .truncated
    else
      match Crypto.Gcm.decrypt? key (bytes.take Crypto.Gcm.nonceLength)
          (bytes.drop Crypto.Gcm.nonceLength) with
      | none => .error .undecipherable
      | some plain =>
        match Text.Utf8.decode? plain with
        | none => .error .notText
        | some text => .ok (String.ofList text)

/-- AES-GCM under a passphrase. `salt` draws the twelve bytes that make each protected form a
different one. -/
def ofPassphrase (passphrase : String) (salt : String → Bytes) :
    Except ProtectionDefect Protector :=
  if passphrase.isEmpty then .error .noPassphrase
  else
    .ok {
      protect := fun plain => .ok (conceal (keyOf passphrase) (salt plain) plain)
      unprotect := reveal (keyOf passphrase) }

end Protector

end SignedHttp
