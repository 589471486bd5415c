import SignedHttp.Key
import SignedHttp.Target
import SignedHttp.Tolerances

namespace SignedHttp

structure Claim where
  kind : String
  value : String
  deriving DecidableEq, Repr

namespace Client

inductive Defect where
  | noId
  | noName (id : String)
  | noClockSkew (id : String)
  | noNonceLifetime (id : String)
  deriving DecidableEq, Repr

instance : Reportable Defect where
  fault
    | .noId => ⟨.validation, "client id must not be empty"⟩
    | .noName id => ⟨.validation, s!"client '{id}' must have a name"⟩
    | .noClockSkew id => ⟨.validation, s!"client '{id}' must have a positive clock skew"⟩
    | .noNonceLifetime id => ⟨.validation, s!"client '{id}' must have a positive nonce lifetime"⟩

def defect? (id name : String) (t : Tolerances) : Option Defect :=
  if id.isEmpty then some .noId
  else if (Text.trim name.toList).isEmpty then some (.noName id)
  else if t.clockSkew.isZero then some (.noClockSkew id)
  else if t.nonceLifetime.isZero then some (.noNonceLifetime id)
  else none

end Client

/-- What is agreed with a client. -/
structure Terms where
  tolerances : Tolerances
  escaping : Escaping
  claims : List Claim
  deriving DecidableEq

def Terms.standard : Terms := ⟨.production, .rfc3986, []⟩

structure Client (κ : Type) where
  id : String
  name : String
  key : κ
  terms : Terms
  valid : Client.defect? id name terms.tolerances = none

namespace Client

variable {κ : Type}

def make (id name : String) (key : κ) (terms : Terms) : Except Defect (Client κ) :=
  match h : defect? id name terms.tolerances with
  | some d => .error d
  | none => .ok ⟨id, name, key, terms, h⟩

/-- Clients are the same if their ids are. -/
instance : BEq (Client κ) := ⟨fun c d => c.id == d.id⟩

def clockSkew (c : Client κ) : Duration := c.terms.tolerances.clockSkew

def nonceLifetime (c : Client κ) : Duration := c.terms.tolerances.nonceLifetime

end Client

/-- What is known of the sender of an accepted request. -/
structure Principal where
  claims : List Claim
  deriving DecidableEq, Repr

namespace Principal

def idKind : String := "appid"

def nameKind : String := "name"

/-- Id and name come before the claims of the client. -/
def ofClient {κ : Type} (c : Client κ) : Principal :=
  ⟨⟨idKind, c.id⟩ :: ⟨nameKind, c.name⟩ :: c.terms.claims⟩

def claim? (p : Principal) (kind : String) : Option String :=
  (p.claims.find? (fun c => c.kind == kind)).map Claim.value

def id? (p : Principal) : Option String :=
  p.claim? idKind

end Principal

end SignedHttp
