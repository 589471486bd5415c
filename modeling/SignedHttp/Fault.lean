namespace SignedHttp

inductive Fault.Kind where
  | validation
  | invalidArgument
  | outOfRange
  | signing
  | invalidSignature
  | clientNotFound
  | storage
  | crypto
  deriving DecidableEq, Repr

structure Fault where
  kind : Fault.Kind
  detail : String
  deriving DecidableEq, Repr

namespace Fault

def Kind.all : List Kind :=
  [.validation, .invalidArgument, .outOfRange, .signing, .invalidSignature, .clientNotFound,
    .storage, .crypto]

def Kind.code : Kind → String
  | .validation => "validation"
  | .invalidArgument => "invalid_argument"
  | .outOfRange => "out_of_range"
  | .signing => "signing"
  | .invalidSignature => "invalid_signature"
  | .clientNotFound => "client_not_found"
  | .storage => "storage_error"
  | .crypto => "crypto_error"

def Kind.label : Kind → String
  | .validation => "Validation failed"
  | .invalidArgument => "Invalid argument"
  | .outOfRange => "Value out of range"
  | .signing => "Signing failed"
  | .invalidSignature => "Invalid signature header"
  | .clientNotFound => "Client not found"
  | .storage => "Storage error"
  | .crypto => "Crypto error"

def message (f : Fault) : String :=
  f.kind.label ++ ": " ++ f.detail

end Fault

/-- Causes of failure that can be reported. -/
class Reportable (ε : Type) where
  fault : ε → Fault

end SignedHttp
