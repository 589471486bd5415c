import SignedHttp.Crypto.Sha1
import SignedHttp.Crypto.Sha2
import SignedHttp.Fault
import SignedHttp.Text.Ascii
import SignedHttp.Text.Blank

namespace SignedHttp

inductive Hash where
  | sha1
  | sha256
  | sha384
  | sha512
  deriving DecidableEq, Repr

namespace Hash

def name : Hash → String
  | sha1 => "sha1"
  | sha256 => "sha256"
  | sha384 => "sha384"
  | sha512 => "sha512"

def digestName : Hash → String
  | sha1 => "SHA-1"
  | sha256 => "SHA-256"
  | sha384 => "SHA-384"
  | sha512 => "SHA-512"

/-- Capital first letter, as in diagnostics. -/
def title : Hash → String
  | sha1 => "Sha1"
  | sha256 => "Sha256"
  | sha384 => "Sha384"
  | sha512 => "Sha512"

/-- The spelling by which names are compared: no white space around, no hyphens, no capitals. -/
def normalized (name : String) : String :=
  String.ofList (Text.lower ((Text.trim name.toList).filter (· != '-')))

def ofName? (name : String) : Option Hash :=
  match normalized name with
  | "sha1" => some sha1
  | "sha256" => some sha256
  | "sha384" => some sha384
  | "sha512" => some sha512
  | _ => none

inductive Defect where
  | unknownName (given : String)
  deriving DecidableEq, Repr

instance : Reportable Defect where
  fault
    | .unknownName given => ⟨.outOfRange, s!"unknown hash algorithm '{given}'"⟩

def read (name : String) : Except Defect Hash :=
  match ofName? name with
  | some h => .ok h
  | none => .error (.unknownName name)

def digest : Hash → Bytes → Bytes
  | sha1 => Crypto.Sha1.digest
  | sha256 => Crypto.Sha2.sha256
  | sha384 => Crypto.Sha2.sha384
  | sha512 => Crypto.Sha2.sha512

def blockSize : Hash → Nat
  | sha1 => 64
  | sha256 => 64
  | sha384 => 128
  | sha512 => 128

def hmac (h : Hash) (secret message : Bytes) : Bytes :=
  let short := if secret.length > h.blockSize then h.digest secret else secret
  let key := short ++ List.replicate (h.blockSize - short.length) 0
  h.digest (key.map (· ^^^ 0x5c) ++ h.digest (key.map (· ^^^ 0x36) ++ message))

end Hash

end SignedHttp
